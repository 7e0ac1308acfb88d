import Montage.Html.Item
import Montage.Proofs.Arena.Walks

/-!
Trees and documents whose nodes are moved, one move after the other. Main statement: as long as no move puts
a node under itself, no node stands above itself and all walks end; the first move that does leaves a node
from which no walk ends.
-/

namespace Montage

namespace Tree

variable {α β : Type} {t : Tree α}

/-- A node is put at the end of another. -/
structure Move where
  parent : NodeId
  child : NodeId

namespace Move

def on (t : Tree α) (m : Move) : Tree α :=
  t.append m.parent m.child

/-- The node does not stand at or above where it is put. Nothing is put in a dead node. -/
def Clear (t : Tree α) (m : Move) : Prop :=
  t.contains m.parent → ¬t.Under m.child m.parent

theorem on_eq (t : Tree α) (m : Move) : m.on t = t.appendAll m.parent [m.child] := rfl

end Move

/-- Each of several steps is clear when it is its turn. -/
def AllClear (step : Tree α → β → Tree α) (clear : Tree α → β → Prop) : Tree α → List β → Prop
  | _, [] => True
  | t, m :: ms => clear t m ∧ AllClear step clear (step t m) ms

/-- After any number of clear steps all walks end; one more step keeps it so if it is clear, and if not, there
is a node from which no walk ends. -/
structure EndsWhileClear (step : Tree α → β → Tree α) (clear : Tree α → β → Prop) (t : Tree α)
    (ms : List β) : Prop where
  ends : AllClear step clear t ms → (ms.foldl step t).Walkable
  more : ∀ m, AllClear step clear t ms → clear (ms.foldl step t) m →
    (step (ms.foldl step t) m).Walkable
  endless : ∀ m, AllClear step clear t ms → ¬clear (ms.foldl step t) m →
    ∃ x, (step (ms.foldl step t) m).Endless x

section

variable {step : Tree α → β → Tree α} {clear : Tree α → β → Prop}
  (hstep : ∀ {t} m, t.Forest →
    clear t m ∧ (step t m).Forest ∨ ¬clear t m ∧ ∃ x, (step t m).Endless x)
include hstep

theorem Forest.steps (h : t.Forest) {ms : List β} (hms : AllClear step clear t ms) :
    (ms.foldl step t).Forest := by
  induction ms generalizing t with
  | nil => exact h
  | cons m ms ih =>
    obtain ⟨hm, hms⟩ := hms
    cases hstep m h with
    | inl hgood => exact ih hgood.2 hms
    | inr hbad => exact absurd hm hbad.1

theorem Forest.endsWhileClear (h : t.Forest) (ms : List β) : EndsWhileClear step clear t ms where
  ends hms := (h.steps hstep hms).walkable
  more m hms hm := by
    cases hstep m (h.steps hstep hms) with
    | inl hgood => exact hgood.2.walkable
    | inr hbad => exact absurd hm hbad.1
  endless m hms hm := by
    cases hstep m (h.steps hstep hms) with
    | inl hgood => exact absurd hgood.1 hm
    | inr hbad => exact hbad.2

end

theorem Forest.move (h : t.Forest) (m : Move) :
    m.Clear t ∧ (m.on t).Forest ∨ ¬m.Clear t ∧ ∃ x, (m.on t).Endless x := by
  rw [Move.on_eq, Move.Clear]
  have hcases := h.appendAll_cases m.parent [m.child]
  simp only [List.mem_singleton, forall_eq] at hcases
  exact hcases.imp_right fun hbad => ⟨hbad.1, m.parent, hbad.2⟩

end Tree

namespace Html

variable {t : Tree Item}

/-- The nodes that are moved with a node: a fragment stays, and its children go. -/
def moved (t : Tree Item) (child : NodeId) : List NodeId :=
  match t.get? child with
  | none => []
  | some .fragment => t.children child
  | some _ => [child]

theorem append_eq (t : Tree Item) (parent child : NodeId) :
    append t parent child = t.appendAll parent (moved t child) := by
  unfold append moved
  cases hc : t.get? child with
  | none => rfl
  | some item => cases item <;> rfl

/-- A node is put at the end of another, as it is or as documents do it. -/
inductive Move where
  | node (m : Tree.Move)
  | document (m : Tree.Move)

namespace Move

def on (t : Tree Item) : Move → Tree Item
  | node m => m.on t
  | document m => append t m.parent m.child

/-- None of the nodes that are moved stands at or above where they are put. -/
def Clear (t : Tree Item) : Move → Prop
  | node m => m.Clear t
  | document m => t.contains m.parent → ∀ c ∈ moved t m.child, ¬t.Under c m.parent

end Move

theorem forest_move (h : t.Forest) (m : Move) :
    m.Clear t ∧ (m.on t).Forest ∨ ¬m.Clear t ∧ ∃ x, (m.on t).Endless x := by
  cases m with
  | node m => exact h.move m
  | document m =>
    have hcases := h.appendAll_cases m.parent (moved t m.child)
    rw [← append_eq] at hcases
    exact hcases.imp_right fun hbad => ⟨hbad.1, m.parent, hbad.2⟩

/-- Whatever nodes are moved in whatever order, in a tree or in a document: no node stands above itself and
all walks end as long as none of the moved nodes stands at or above where it is put. The first move of such
a node is done like any other, and then a node stands above itself from which no walk ends. -/
theorem walks_end_while_clear {α : Type} {t : Tree α} {d : Tree Item} (ht : t.Forest) (hd : d.Forest)
    (ms : List Tree.Move) (ns : List Move) :
    Tree.EndsWhileClear Tree.Move.on Tree.Move.Clear t ms ∧
      Tree.EndsWhileClear Move.on Move.Clear d ns :=
  ⟨ht.endsWhileClear (fun m h => h.move m) ms, hd.endsWhileClear (fun m h => forest_move h m) ns⟩

/-- A node that is put in itself, and an element that is put in its child. -/
theorem endless_of_own_parent :
    let one : Tree Unit := (Tree.empty.create ()).1
    let pair : Tree Item := (((Tree.empty.create (.ofTag "a")).1.create (.ofTag "b")).1.append 1 2)
    one.Forest ∧ pair.Forest ∧ (one.append 1 1).children 1 = [1] ∧ (append pair 2 1).children 2 = [1] ∧
      (∃ x, (one.append 1 1).Endless x) ∧ ∃ x, (append pair 2 1).Endless x := by
  intro one pair
  have hone : one.Forest := Tree.Forest.empty.create ()
  have hpair : pair.Forest := by
    apply ((Tree.Forest.empty.create _).create _).append
    intro hu
    exact absurd (hu.eq_of_no_parent rfl) nofun
  have hchild : pair.parent? 2 = some 1 := by decide
  have hall := walks_end_while_clear hone hpair [] []
  refine ⟨hone, hpair, by decide, by decide, ?_, ?_⟩
  · refine hall.1.endless ⟨1, 1⟩ trivial fun hclear => ?_
    exact hclear (by decide) .self
  · refine hall.2.endless (.document ⟨2, 1⟩) trivial fun hclear => ?_
    exact hclear (by decide) 1 (by decide) (.of_parent hchild)

end Html

end Montage
