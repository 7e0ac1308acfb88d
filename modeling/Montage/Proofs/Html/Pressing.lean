import Mathlib
import Montage.Proofs.Html.Paging
import Montage.Proofs.Media.Likeness
import Montage.Proofs.Render.Repeats

/-!
Lists in documents whose buttons are clicked at any time. Main statement: no item is shown twice just as long
as each page is shown while the wrapper of its button is there, and then at most one wrapper is.
-/

namespace Montage.Html

open Json (Value)
open World (itemsShown turnsOf start)

variable {F : Type} {s : Setup F Item} {c : NodeId} {page : Page F} {u w : World F Item}
  {es₀ es : List (World F Item × Act F Item)}

/-- Buttons of a list are clicked at any time, and the pages of these clicks are shown in any order. If no
page is shown for a click whose wrapper is gone, the items are shown once and in order, with one wrapper at
most for those that are left. If such a page is shown, it shows an item again. -/
theorem shown_once_iff {registry : Registry F} {tree : Tree Item} (htree : tree.Linked)
    (h₀ : History s (fun v a => a.IsProper v) (start registry tree) es₀ u) (hidle : u.tasks = [])
    (hc : u.scene.tree.contains c) (hm : u.scene.tree.contains (page.more.getD c))
    (hnone : ∀ x k, u.scene.clicks.get? x = some k → k.turned? c = none)
    (h : History s (Act.Presses c) (u.renderList s c page).1 es w) :
    (page.limit ≠ some 0 →
      (((itemsShown c page es).map (·.2.index)).Nodup ↔ ∀ e ∈ es, ¬e.2.IsStale c e.1)) ∧
    ((∀ e ∈ es, ¬e.2.IsStale c e.1) →
      itemsShown c page es = (page.course (turnsOf c es)).flatMap Page.shown ∧
      (itemsShown c page es).map (·.2.index) =
        List.range' page.start (page.reached (turnsOf c es) - page.start) ∧
      Displayed s c page u (turnsOf c es) es w) := by
  have hu : World.Orderly u := by
    refine h₀.invariant (I := World.Orderly) (.start registry htree) fun v a v' hv ok next => ?_
    exact hv.act ok next
  rcases World.Pressing.history hu hidle hc hm hnone h with ⟨alls, affs, seats, hw⟩ | hw
  · have hindexes : (itemsShown c page es).map (·.2.index) =
        List.range' page.start (page.reached alls - page.start) := by
      rw [hw.shown, page.map_index_course]
    rw [hw.turned]
    refine ⟨fun _ => iff_of_true ?_ hw.fresh, fun _ => ⟨hw.shown, hindexes, displayed_of_shelf hw.shelf⟩⟩
    rw [hindexes]
    exact List.nodup_range'
  · obtain ⟨e, he, hstale⟩ := hw.stale
    exact ⟨fun hlimit => iff_of_false (hw.twice hlimit) fun hfresh => hfresh e he hstale,
      fun hfresh => absurd hstale (hfresh e he)⟩

/-- A function that shows the text of its data. -/
def showingText : Setup Unit Item :=
  { Setup.scripted fun _ : Unit => ([] : List (Step Unit Item)) with
    host := ⟨fun _ call => [.plant (leaf (.text ((call.data.asStr?).getD "")))],
      fun _ _ _ => .now (.ok .null), fun _ _ _ _ => none, fun _ _ _ => []⟩
    settings := plainSettings }

def twoTexts : Page Unit where
  item := .inline ()
  items := [.str "a", .str "b"]
  context := .null
  offset := 0
  limit := some 1
  more := none

/-- The button is clicked twice before a page is shown, and then all is done that is to be done. -/
def doubleClick : List (Act Unit Item) :=
  [.click 4, .click 4, .step 3, .step 4, .step 2, .step 5, .step 6, .step 7, .step 7, .step 7, .step 7,
    .step 8, .step 8, .step 8, .step 8, .step 9, .step 9, .step 9, .step 9]

/-- Of two texts in pages of one, the second is shown twice. -/
theorem shown_twice_by_double_click :
    let u : World Unit Item := start .empty (.single (Item.ofTag "body"))
    ∃ es w, es.map Prod.snd = doubleClick ∧
      History showingText (Act.Presses 1) (u.renderList showingText 1 twoTexts).1 es w ∧
      (w.scene.tree.subtree? 1).map (Rose.gather Item.content) = some "abb".toList ∧
      (itemsShown 1 twoTexts es).map (·.2.index) = [0, 1, 1] ∧ ∃ e ∈ es, e.2.IsStale 1 e.1 := by
  intro u
  have hplay : (World.play showingText (Act.Presses 1) (u.renderList showingText 1 twoTexts).1
      doubleClick).any (fun w =>
        (w.scene.tree.subtree? 1).map (Rose.gather Item.content) == some "abb".toList) = true := by
    cbv
  have hindexes : (itemsShown 1 twoTexts (World.events showingText
      (u.renderList showingText 1 twoTexts).1 doubleClick)).map (·.2.index) = [0, 1, 1] := by
    cbv
  obtain ⟨w, hw, hend⟩ := (Option.any_eq_true _ _).mp hplay
  obtain ⟨es, hacts, hes⟩ := History.of_play hw
  rw [← hacts, hes.events_eq] at hindexes
  refine ⟨es, w, hacts, hes, beq_iff_eq.mp hend, hindexes, ?_⟩
  by_contra hfresh
  have honce := (shown_once_iff (Tree.Linked.single _) .nil rfl (by decide) (by decide)
    (fun x k hk => by cases hk) hes).1 (by decide)
  rw [hindexes] at honce
  exact absurd (honce.mpr fun e he hstale => hfresh ⟨e, he, hstale⟩) (by decide)

end Montage.Html
