import Mathlib
import Montage.Proofs.Box.Separation
import Montage.Proofs.Render.Midway

/-!
Text while a call to render is under way. Main statement: at every moment, the lines of a box are those that
the configs with an outcome give when nothing but these is rendered, and reserved places leave no trace in
them.
-/

namespace Montage

namespace Box

mutual

/-- A box tree without the places in it, be they reserved or skipped. -/
def unmarked : Rose Item → Rose Item
  | .node item children => .node item (unmarkedAll children)

def unmarkedAll : List (Rose Item) → List (Rose Item)
  | [] => []
  | .node (.reserved _) _ :: rs => unmarkedAll rs
  | r :: rs => unmarked r :: unmarkedAll rs

end

mutual

theorem clean_unmarked (r : Rose Item) : clean (unmarked r) = clean r := by
  obtain ⟨item, kids⟩ := r
  cases item with
  | text s => rfl
  | reserved skipped => rfl
  | box kind border => rw [unmarked, clean, clean, cleanAll_unmarkedAll kids]

theorem cleanAll_unmarkedAll (rs : List (Rose Item)) : cleanAll (unmarkedAll rs) = cleanAll rs := by
  match rs with
  | [] => rfl
  | .node (.reserved _) _ :: rs =>
    rw [unmarkedAll, cleanAll_unmarkedAll rs]
    rfl
  | .node (.text s) kids :: rs =>
    rw [unmarkedAll, cleanAll, cleanAll, clean_unmarked (.node (.text s) kids), cleanAll_unmarkedAll rs]
    exact nofun
  | .node (.box kind border) kids :: rs =>
    rw [unmarkedAll, cleanAll, cleanAll, clean_unmarked (.node (.box kind border) kids),
      cleanAll_unmarkedAll rs]
    exact nofun

end

end Box

namespace World

open Json (Value)

variable {F : Type}

variable {s : Setup F Box.Item} {tree tree₁ : Tree Box.Item} {registry registry₁ : Registry F}
  {c : Clock} {w₀ w w₁ w' : World F Box.Item} {es₀ es es₁ es' : List (World F Box.Item × Act F Box.Item)}
  {d d₁ : NodeId} {kind : Box.Kind} {border : Option Box.Border} {raw raw₁ : RawConfig F}
  {data context : Value}

/-- An empty box. -/
def IsEmptyBox (w : World F Box.Item) (d : NodeId) (kind : Box.Kind) (border : Option Box.Border) :
    Prop :=
  w.scene.tree.get? d = some (.box kind border) ∧ w.scene.tree.children d = []

theorem IsEmptyBox.subtree (h : w.IsEmptyBox d kind border) (hw : w.scene.tree.Linked) :
    w.scene.tree.subtree? d = some (.node (.box kind border) []) := by
  have hshows : w.scene.tree.Shows Tree.noneHeld [d] [.node (.box kind border) []] := by
    refine .node rfl h.1 ?_ .nil
    rw [h.2]
    exact .nil
  exact toList_inj (Tree.subtree?_of_shows hshows hw)

end World

end Montage
