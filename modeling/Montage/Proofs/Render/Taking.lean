import Montage.Proofs.Render.Turns

/-!
Taking up configs. Main statement: however many configs are taken up into a container, the places held
for them are new, stand at its end in the order of the configs, and are known as pending.
-/

namespace Montage

open Json (Value)

variable {F α : Type} [Medium α]

/-- Runs were made for configs, with their places at the end of `d`. -/
structure Takes (d : NodeId) (s s' : Scene F α) (rs : List (Run F α)) : Prop where
  given : d < s.tree.next
  grown : Scene.Grown (some d) s s'
  children : s.tree.contains d → s'.tree.children d = s.tree.children d ++ rs.map Run.place
  fresh : ∀ r ∈ rs, s.tree.next ≤ r.place ∧ r.place < s'.tree.next
  nodup : (rs.map Run.place).Nodup
  parent : ∀ r ∈ rs, ∀ q, s'.tree.parent? r.place = some q → q = d
  item : ∀ r ∈ rs, s'.tree.get? r.place = some Medium.reserved
  bare : ∀ r ∈ rs, s'.tree.children r.place = []
  items : ∀ x < s.tree.next, s'.tree.get? x = s.tree.get? x
  held : ∀ r ∈ rs, s'.places.get? r.place = some ⟨r.config.viewName?, false⟩
  unpainted : ∀ r ∈ rs, r.output? = none

namespace Takes

variable {d : NodeId} {s s' s'' : Scene F α} {rs rs' : List (Run F α)}

theorem nil (h : s.tree.Linked) (hd : d < s.tree.next) : Takes d s s ([] : List (Run F α)) where
  given := hd
  grown := .refl h
  children _ := by simp
  fresh := by simp
  nodup := by simp
  parent := by simp
  item := by simp
  bare := by simp
  items _ _ := rfl
  held := by simp
  unpainted := by simp

theorem append (h : Takes d s s' rs) (h' : Takes d s' s'' rs') : Takes d s s'' (rs ++ rs') := by
  have hle := h.grown.tree.next_le
  constructor
  case given => exact h.given
  case grown => exact h.grown.trans h'.grown (.inl rfl)
  case children =>
    intro hl
    rw [h'.children (h.grown.tree.lives hl), h.children hl, List.map_append, List.append_assoc]
  case fresh =>
    intro r hr
    rcases List.mem_append.mp hr with hr | hr
    · exact ⟨(h.fresh r hr).1, Nat.lt_of_lt_of_le (h.fresh r hr).2 h'.grown.tree.next_le⟩
    · exact ⟨Nat.le_trans hle (h'.fresh r hr).1, (h'.fresh r hr).2⟩
  case nodup =>
    rw [List.map_append]
    refine List.nodup_append.mpr ⟨h.nodup, h'.nodup, ?_⟩
    intro x hx y hy
    obtain ⟨r, hr, rfl⟩ := List.mem_map.mp hx
    obtain ⟨r', hr', rfl⟩ := List.mem_map.mp hy
    exact Nat.ne_of_lt (Nat.lt_of_lt_of_le (h.fresh r hr).2 (h'.fresh r' hr').1)
  case parent =>
    intro r hr q hq
    rcases List.mem_append.mp hr with hr | hr
    · rw [h'.grown.tree.parent (h.fresh r hr).2] at hq
      exact h.parent r hr q hq
    · exact h'.parent r hr q hq
  case item =>
    intro r hr
    rcases List.mem_append.mp hr with hr | hr
    · rw [h'.items _ (h.fresh r hr).2]
      exact h.item r hr
    · exact h'.item r hr
  case bare =>
    intro r hr
    rcases List.mem_append.mp hr with hr | hr
    · have hne : d ≠ r.place := Nat.ne_of_lt (Nat.lt_of_lt_of_le h.given (h.fresh r hr).1)
      rw [h'.grown.tree.children (h.fresh r hr).2 fun he => hne (Option.some.inj he)]
      exact h.bare r hr
    · exact h'.bare r hr
  case items =>
    intro x hx
    exact (h'.items x (Nat.lt_of_lt_of_le hx hle)).trans (h.items x hx)
  case held =>
    intro r hr
    rcases List.mem_append.mp hr with hr | hr
    · rw [h'.grown.places (h.fresh r hr).2]
      exact h.held r hr
    · exact h'.held r hr
  case unpainted =>
    intro r hr
    exact (List.mem_append.mp hr).elim (h.unpainted r) (h'.unpainted r)

end Takes

/-- Taking up a part of a list, and then perhaps showing that it goes on. -/
inductive TakesList (d : NodeId) (more : Option NodeId) (s s' : Scene F α)
    (batches : List (List (Run F α))) : Prop
  | all (takes : Takes d s s' batches.flatten)
  | part (s₁ : Scene F α) (takes : Takes d s s₁ batches.flatten)
      (grown : Scene.Grown (some (more.getD d)) s₁ s')
      (items : ∀ x < s₁.tree.next, s'.tree.get? x = s₁.tree.get? x)

/-- What both have in common: all places are new, and attached to `d` if at all. -/
structure Reserves (d : NodeId) (s s' : Scene F α) (rs : List (Run F α)) : Prop where
  steady : Tree.Steady s.tree s'.tree
  clicks : ∀ {n c}, s'.clicks.get? n = some c →
    s.clicks.get? n = some c ∨ ∀ e ∈ c.errands, e.Known s'.tree.next
  fresh : ∀ r ∈ rs, s.tree.next ≤ r.place ∧ r.place < s'.tree.next
  nodup : (rs.map Run.place).Nodup
  parent : ∀ r ∈ rs, ∀ q, s'.tree.parent? r.place = some q → q = d
  unpainted : ∀ r ∈ rs, r.output? = none

theorem Takes.reserves {d : NodeId} {s s' : Scene F α} {rs : List (Run F α)}
    (h : Takes d s s' rs) : Reserves d s s' rs where
  steady := h.grown.tree.steady
  clicks := h.grown.clicks
  fresh := h.fresh
  nodup := h.nodup
  parent := h.parent
  unpainted := h.unpainted

theorem TakesList.reserves {d : NodeId} {more : Option NodeId} {s s' : Scene F α}
    {batches : List (List (Run F α))} (h : TakesList d more s s' batches) :
    Reserves d s s' batches.flatten := by
  cases h with
  | all takes => exact takes.reserves
  | part s₁ takes grown items =>
    have hle := grown.tree.next_le
    constructor
    case steady => exact takes.grown.tree.steady.trans grown.tree.steady
    case clicks =>
      intro n c hc
      rcases grown.clicks hc with hc | hc
      · exact (takes.grown.clicks hc).imp_right fun hc e he => (hc e he).mono hle
      · exact .inr hc
    case fresh =>
      intro r hr
      exact ⟨(takes.fresh r hr).1, Nat.lt_of_lt_of_le (takes.fresh r hr).2 hle⟩
    case nodup => exact takes.nodup
    case parent =>
      intro r hr q hq
      rw [grown.tree.parent (takes.fresh r hr).2] at hq
      exact takes.parent r hr q hq
    case unpainted => exact takes.unpainted

namespace World

variable {w : World F α} {d : NodeId}

theorem takes_takeUp (h : w.scene.tree.Linked) (hd : d < w.scene.tree.next)
    (around : Surroundings) (c : Config F) :
    Takes d w.scene (w.takeUp d around c).1.scene [(w.takeUp d around c).2] := by
  have hg := Scene.Grown.reserve h hd c.ensureView.viewName?
  have hone : ∀ {P : Run F α → Prop}, P (w.takeUp d around c).2 →
      ∀ r ∈ [(w.takeUp d around c).2], P r := by
    intro P hP r hr
    exact List.mem_singleton.mp hr ▸ hP
  constructor
  case given => exact hd
  case grown => exact hg
  case children =>
    intro hl
    exact (Tree.children_attach h hd).trans (if_pos ⟨rfl, hl⟩)
  case fresh => exact hone ⟨Nat.le_refl _, by
    change w.scene.tree.next < (w.scene.tree.attach d Medium.reserved).1.next
    simp⟩
  case nodup => simp
  case parent =>
    refine hone fun q hq => ?_
    change (w.scene.tree.attach d Medium.reserved).1.parent? w.scene.tree.next = some q at hq
    rw [Tree.parent?_attach hd, if_pos rfl] at hq
    split at hq
    · exact (Option.some.inj hq).symm
    · cases hq
  case item => exact hone (Tree.get?_attach.trans (if_pos rfl))
  case bare =>
    refine hone ((Tree.children_attach h hd).trans ?_)
    rw [if_neg fun he => Nat.ne_of_gt hd he.1]
    exact Tree.children_of_dead h.not_live_next
  case items => exact fun x hx => Tree.get?_attach.trans (if_neg (Nat.ne_of_lt hx))
  case held => exact hone (Scene.get?_places_reserve.trans (if_pos rfl))
  case unpainted => exact hone rfl

theorem takes_takeUpAll (around : Surroundings) (cs : List (Config F))
    (h : w.scene.tree.Linked) (hd : d < w.scene.tree.next) :
    Takes d w.scene (w.takeUpAll d around cs).1.scene (w.takeUpAll d around cs).2 := by
  induction cs generalizing w with
  | nil => exact .nil h hd
  | cons c cs ih =>
    have hc := takes_takeUp h hd around c
    exact hc.append (ih (w := (w.takeUp d around c).1) hc.grown.tree.after
      (Nat.lt_of_lt_of_le hd hc.grown.tree.next_le))

theorem takes_takeUpItems (s : Setup F α) (raw : RawConfig F) (context : Value)
    (items : List (Value × ListItem)) (h : w.scene.tree.Linked) (hd : d < w.scene.tree.next) :
    Takes d w.scene (w.takeUpItems s d raw context items).1.scene
      (w.takeUpItems s d raw context items).2.flatten := by
  induction items generalizing w with
  | nil => exact .nil h hd
  | cons i items ih =>
    obtain ⟨v, item⟩ := i
    have hc := takes_takeUpAll ⟨v, item.context context, some item⟩ (raw.normalize s.engine) h hd
    exact hc.append (ih hc.grown.tree.after (Nat.lt_of_lt_of_le hd hc.grown.tree.next_le))

theorem takes_takeUpList (s : Setup F α) (page : Page F) (all : Bool)
    (h : w.scene.tree.Linked) (hd : d < w.scene.tree.next)
    (hm : page.more.getD d < w.scene.tree.next) :
    TakesList d page.more w.scene (w.takeUpList s d page all).1.scene
      (w.takeUpList s d page all).2 := by
  obtain ⟨shown, hs | ⟨rest, hrest, hs⟩⟩ := takeUpList_cases w s d page all
  · rw [hs]
    exact .all (takes_takeUpItems s _ _ _ h hd)
  · have ht := takes_takeUpItems s page.item page.context shown h hd
    have hle := ht.grown.tree.next_le
    rw [hs]
    refine .part _ ht ?_ fun x hx => Scene.get?_showMore hx
    rw [← hrest] at hm ⊢
    exact .showMore s.settings d _ ht.grown.tree.after (Nat.lt_of_lt_of_le hd hle)
      (Nat.lt_of_lt_of_le hm hle)

end World

end Montage
