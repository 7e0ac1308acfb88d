import Montage.Html.Popup
import Montage.Proofs.Render.Listing
import Montage.Proofs.Render.Occupancy
import Montage.Proofs.Render.Popups

/-!
What a hover does to a document before it renders. Main statement: the popup is there, nothing stands in
it, and it is hidden or not; no other node is moved, and none goes but what stood in the popup.
-/

namespace Montage.Html

open Json (Value)
open World (Orderly Whole Occupied)

variable {F : Type}

namespace Item

def isHidden : Item → Bool
  | .element _ _ attributes => Fields.contains attributes "hidden"
  | _ => false

variable {item : Item} {name value : String}

@[simp] theorem isElement_addClass (c : String) : (item.addClass c).isElement = item.isElement := by
  cases item with
  | element tag classes attributes =>
    simp only [addClass]
    split <;> rfl
  | _ => rfl

@[simp] theorem isElement_setAttribute : (item.setAttribute name value).isElement = item.isElement := by
  cases item <;> rfl

@[simp] theorem isElement_removeAttribute : (item.removeAttribute name).isElement = item.isElement := by
  cases item <;> rfl

theorem isHidden_setAttribute :
    (item.setAttribute name value).isHidden = (item.isElement && name == "hidden" || item.isHidden) := by
  cases item with
  | element tag classes attributes =>
    by_cases h : name = "hidden"
    · simp [setAttribute, isHidden, isElement, Fields.contains, Fields.get?_insert, h]
    · simp [setAttribute, isHidden, Fields.contains, Fields.get?_insert, h, Ne.symm h]
  | _ => rfl

theorem isHidden_removeAttribute :
    (item.removeAttribute name).isHidden = (name != "hidden" && item.isHidden) := by
  cases item with
  | element tag classes attributes =>
    by_cases h : name = "hidden"
    · simp [removeAttribute, isHidden, Fields.contains, Fields.get?_erase, h]
    · simp [removeAttribute, isHidden, Fields.contains, Fields.get?_erase, h, Ne.symm h]
  | _ => simp [removeAttribute, isHidden]

@[simp] theorem isElement_anchorAt (anchor : Anchor) (trigger : NodeId) (x y : Int) :
    (anchorAt anchor trigger x y item).isElement = item.isElement := by
  cases anchor <;> simp [anchorAt]

/-- Wherever it is shown, it is shown. -/
@[simp] theorem isHidden_anchorAt (anchor : Anchor) (trigger : NodeId) (x y : Int) :
    (anchorAt anchor trigger x y item).isHidden = false := by
  cases anchor <;> simp [anchorAt, isHidden_setAttribute, isHidden_removeAttribute]

end Item

/-! Emptying a node. -/

variable {s s' s'' : Scene F Item} {p x : NodeId} {ids : List NodeId}

/-- Subtrees were discarded, and nothing else happened. -/
structure Shed (ids : List NodeId) (s s' : Scene F Item) : Prop where
  steady : Tree.Steady s.tree s'.tree
  next : s'.tree.next = s.tree.next
  live : ∀ {x}, s'.tree.contains x ↔ s.tree.contains x ∧ ∀ n ∈ ids, ¬s.tree.Under n x
  item : ∀ {x}, s'.tree.contains x → s'.tree.get? x = s.tree.get? x
  clicks : ∀ {n c}, s'.clicks.get? n = some c → s.clicks.get? n = some c
  popup : s.PopupLives → s.KeepsPopup s'

theorem shed_discard (h : s.tree.Linked) (ids : List NodeId) :
    Shed ids s (ids.foldl Scene.discard s) := by
  induction ids generalizing s with
  | nil =>
    exact ⟨(Tree.Grown.refl h none).steady, rfl, by simp, fun _ => rfl, id,
      fun hp => .of_same hp rfl fun _ => id⟩
  | cons n ids ih =>
    have hpruned := Tree.Pruned.remove h n
    have hrest := ih (s := s.discard n) hpruned.after
    constructor
    case steady => exact hpruned.steady.trans hrest.steady
    case next => exact hrest.next.trans hpruned.next
    case live =>
      intro x
      have hone : (s.discard n).tree.contains x ↔ s.tree.contains x ∧ ¬s.tree.Under n x := hpruned.live
      rw [List.foldl_cons, hrest.live, hone, List.forall_mem_cons, and_assoc]
      refine and_congr_right fun hx => and_congr_right fun hn => ?_
      refine forall₂_congr fun m _ => not_congr ⟨fun hu => ?_, fun hu => ?_⟩
      · exact hpruned.steady.path_back hu (h.live_lt hx)
      · exact hpruned.steady.path hu (hone.mpr ⟨hx, hn⟩)
    case item => exact fun hx => (hrest.item hx).trans (hpruned.item (hrest.live.mp hx).1)
    case clicks => exact fun hc => Scene.clicks_of_discard (hrest.clicks hc)
    case popup =>
      intro hp
      have hkeeps := Scene.keepsPopup_discard hp n
      exact hkeeps.trans (hrest.popup hkeeps.lives) fun _ _ hl => (hrest.live.mp hl).1

/-- The popup is there and nothing stands in it. No other node was moved or changed, and no root went. -/
structure Emptied (p : NodeId) (s s' : Scene F Item) : Prop where
  steady : Tree.Steady s.tree s'.tree
  clicks : ∀ {n c}, s'.clicks.get? n = some c → s.clicks.get? n = some c
  popup : s'.popup = some p
  live : s'.tree.contains p
  empty : ∀ x, s'.tree.parent? x ≠ some p
  roots : ∀ {x}, s.tree.contains x → s.tree.parent? x = none → s'.tree.contains x

theorem emptied_clearPopup (h : s.tree.Linked) (hp : s.popup = some p) (hlives : s.PopupLives) :
    Emptied p s (clearPopup s p) ∧ (clearPopup s p).tree.next = s.tree.next ∧
      (clearPopup s p).tree.get? p = s.tree.get? p := by
  have hshed : Shed (s.tree.children p) s (clearPopup s p) := shed_discard h _
  have hl := hlives p hp
  have hlive : (clearPopup s p).tree.contains p := by
    refine hshed.live.mpr ⟨hl, fun n hn hu => ?_⟩
    have hpn := h.link hn (hu.top_live h hl)
    exact Nat.not_lt.mpr (h.le_of_under hu) (h.ordered hpn)
  refine ⟨⟨hshed.steady, hshed.clicks, ?_, hlive, fun x hx => ?_, fun {x} hx hroot => ?_⟩, hshed.next,
    hshed.item hlive⟩
  · exact (hshed.popup hlives).popup.mpr ⟨hp, hlive⟩
  · have hxl := Tree.live_of_parent hx
    rw [hshed.steady.parent (h.live_lt (hshed.live.mp hxl).1) hxl] at hx
    exact (hshed.live.mp hxl).2 x (h.listed hx) .self
  · refine hshed.live.mpr ⟨hx, fun n hn hu => ?_⟩
    obtain rfl := hu.eq_of_no_parent hroot
    rw [h.link hn hx] at hroot
    cases hroot

/-- A new popup has nothing in it. -/
theorem emptied_attach (h : s.tree.Linked) (hbody : body < s.tree.next) (item : Item) :
    Emptied s.tree.next s
      { s with tree := (s.tree.attach body item).1, popup := some s.tree.next } := by
  have hg := Tree.Grown.attach h hbody item
  refine ⟨hg.steady, id, rfl, Tree.contains_attach.mpr (.inr rfl), fun x hx => ?_, fun hx _ => hg.lives hx⟩
  have hx : (s.tree.attach body item).1.parent? x = some s.tree.next := hx
  rw [Tree.parent?_attach hbody] at hx
  split at hx
  · split at hx
    · exact Nat.ne_of_lt hbody (Option.some.inj hx)
    · cases hx
  · exact h.not_live_next (h.parent_live hx)

theorem Emptied.lives (h : Emptied p s s') : s'.PopupLives := by
  intro q hq
  rw [h.popup] at hq
  cases hq
  exact h.live

theorem Emptied.trans (h : Emptied p s s') (h' : Emptied p s' s'') : Emptied p s s'' where
  steady := h.steady.trans h'.steady
  clicks hc := h.clicks (h'.clicks hc)
  popup := h'.popup
  live := h'.live
  empty := h'.empty
  roots hx hr := h'.roots (h.roots hx hr) <|
    (h.steady.parent (h.steady.before.live_lt hx) (h.roots hx hr)).trans hr

theorem Emptied.modify (h : Emptied p s s') (n : NodeId) (f : Item → Item) :
    Emptied p s (modify s' n f) where
  steady := h.steady.trans (Tree.Grown.modify h.steady.after n f).steady
  clicks := h.clicks
  popup := h.popup
  live := Tree.contains_modify.trans h.live
  empty x hx := h.empty x (Tree.parent?_modify.symm.trans hx)
  roots hx hr := Tree.contains_modify.trans (h.roots hx hr)

/-- A node is an element that is hidden or not. -/
def Veiled (hidden : Bool) (t : Tree Item) (p : NodeId) : Prop :=
  ∃ item, t.get? p = some item ∧ item.isElement ∧ item.isHidden = hidden

/-- The popup, if there is one, is an element. -/
def HasElement (s : Scene F Item) : Prop :=
  ∀ p, s.popup = some p → ∃ item, s.tree.get? p = some item ∧ item.isElement

theorem HasElement.lives (h : HasElement s) : s.PopupLives := by
  intro p hp
  obtain ⟨item, hitem, _⟩ := h p hp
  exact Tree.get?_eq_some_live hitem

/-- Whoever looks for the popup finds it. -/
theorem emptied_ensurePopup (h : s.tree.Linked) (hbody : body < s.tree.next) (hs : HasElement s)
    (settings : Settings) (f : Item → Item) :
    let t := ensurePopup s settings
    let s' := modify (clearPopup t.1 t.2) t.2 f
    Emptied t.2 s s' ∧ s'.tree.next = t.1.tree.next ∧
      (∃ item, s'.tree.get? t.2 = some (f item) ∧ item.isElement) ∧
      (s.popup = some t.2 ∨ s.popup = none ∧ t.2 = s.tree.next) := by
  have hmodify : ∀ (t : Tree Item) {n item}, t.get? n = some item →
      (t.modify n f).get? n = some (f item) := by
    intro t n item hn
    rw [Tree.get?_modify, if_pos rfl, hn]
    rfl
  unfold ensurePopup
  cases hp : s.popup with
  | some p =>
    obtain ⟨hempty, hnext, hitem⟩ := emptied_clearPopup h hp hs.lives
    obtain ⟨item, hi, he⟩ := hs p hp
    exact ⟨hempty.modify p f, hnext, ⟨item, hmodify _ (hitem.trans hi), he⟩, .inl rfl⟩
  | none =>
    have helement : ((Item.ofTag "div").addClass (settings.classPrefix ++ "tooltip")).isElement := by
      rw [Item.isElement_addClass]
      rfl
    generalize (Item.ofTag "div").addClass (settings.classPrefix ++ "tooltip") = item at helement
    have hnew := emptied_attach h hbody item
    have hmade : (s.tree.attach body item).1.get? s.tree.next = some item :=
      Tree.get?_attach.trans (if_pos rfl)
    obtain ⟨hempty, hnext, hitem⟩ := emptied_clearPopup hnew.steady.after hnew.popup hnew.lives
    exact ⟨(hnew.trans hempty).modify _ f, hnext, ⟨item, hmodify _ (hitem.trans hmade), helement⟩,
      .inr ⟨rfl, rfl⟩⟩

end Montage.Html
