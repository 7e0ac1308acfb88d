import Mathlib.Data.Bool.Basic
import Montage.Proofs.Arena.Removal

/-!
Trees in which an output takes a place. Main statement: splicing an output, or the children of a
fragment, into an attached place moves them there in order, and takes away the place with all that
stood under it and the emptied fragment, and nothing else.
-/

namespace Montage.Tree

variable {α : Type} {t t' : Tree α} {ids l l₁ l₂ : List NodeId} {a c n o p q x : NodeId}

theorem putAt_append (ids l₂ : List NodeId) (h : p ∉ l₁) :
    putAt p ids (l₁ ++ p :: l₂) = l₁ ++ ids ++ l₂ := by
  induction l₁ with
  | nil => simp [putAt]
  | cons b r ih =>
    have hb : b ≠ p := fun hb => h (hb ▸ List.mem_cons_self)
    simp [putAt, hb, ih fun hr => h (List.mem_cons_of_mem _ hr)]

theorem mem_putAt (hp : p ∈ l) (hc : c ≠ p) : c ∈ putAt p ids l ↔ c ∈ ids ∨ c ∈ l := by
  obtain ⟨l₁, l₂, rfl, h⟩ := List.eq_append_cons_of_mem hp
  rw [putAt_append ids _ h]
  simp only [List.mem_append, List.mem_cons, hc, false_or]
  grind

theorem mem_of_mem_putAt (h : c ∈ putAt p ids l) : c ∈ ids ∨ c ∈ l := by
  induction l with
  | nil => simp [putAt] at h
  | cons b r ih =>
    rw [putAt] at h
    split at h
    · rcases List.mem_append.mp h with h | h
      · exact .inl h
      · exact .inr (List.mem_cons_of_mem _ h)
    · rcases List.mem_cons.mp h with h | h
      · exact .inr (h ▸ List.mem_cons_self)
      · exact (ih h).imp_right (List.mem_cons_of_mem _)

theorem count_putAt (hp : p ∈ l) (hc : c ≠ p) :
    (putAt p ids l).count c = ids.count c + l.count c := by
  obtain ⟨l₁, l₂, rfl, h⟩ := List.eq_append_cons_of_mem hp
  rw [putAt_append ids _ h]
  simp only [List.count_append, List.count_cons, beq_iff_eq, Ne.symm hc, ↓reduceIte]
  omega

/-- A target that stood once in a list is gone from it. -/
theorem count_putAt_self (ids : List NodeId) (hp : p ∈ l) :
    (putAt p ids l).count p + 1 = ids.count p + l.count p := by
  obtain ⟨l₁, l₂, rfl, h⟩ := List.eq_append_cons_of_mem hp
  rw [putAt_append ids _ h]
  simp only [List.count_append, List.count_cons_self]
  omega

/-! Detaching one after the other. -/

theorem foldl_detach_frame (ids : List NodeId) (t : Tree α) : (ids.foldl detach t).next = t.next ∧
    (∀ x, (ids.foldl detach t).contains x = t.contains x) ∧
    ∀ x, (ids.foldl detach t).get? x = t.get? x := by
  induction ids generalizing t with
  | nil => simp
  | cons i r ih =>
    obtain ⟨hn, hc, hg⟩ := ih (t.detach i)
    simp only [List.foldl_cons]
    exact ⟨by simp [hn], fun x => by simp [hc], fun x => by simp [hg]⟩

theorem parent?_foldl_detach : (ids.foldl detach t).parent? x =
    if x ∈ ids then none else t.parent? x := by
  induction ids generalizing t with
  | nil => simp
  | cons i r ih =>
    rw [List.foldl_cons, ih, parent?_detach]
    grind

theorem children_foldl_detach : (ids.foldl detach t).children x =
    (t.children x).filter fun c => !(ids.contains c && t.parent? c == some x) := by
  induction ids generalizing t with
  | nil => exact (List.filter_eq_self.mpr (by simp)).symm
  | cons i r ih =>
    rw [List.foldl_cons, ih, children_detach]
    split
    · rw [List.filter_filter]
      refine List.filter_congr fun c _ => ?_
      rw [parent?_detach]
      grind
    · refine List.filter_congr fun c _ => ?_
      rw [parent?_detach]
      grind

/-- Lists that the detached nodes do not stand in stay as they are. -/
theorem children_foldl_detach_of (h : ∀ c ∈ ids, t.parent? c ≠ some x) :
    (ids.foldl detach t).children x = t.children x := by
  rw [children_foldl_detach, List.filter_eq_self]
  intro c _
  have := h c
  grind

/-! Giving several nodes one parent. -/

/-- The last part of a replacement, in which the nodes learn their new parent. -/
theorem foldl_adopt_frame (ids : List NodeId) (q : NodeId) (t : Tree α) :
    let t' := ids.foldl (fun t i => t.modifySlot i fun s => { s with parent := some q }) t
    t'.next = t.next ∧ (∀ x, t'.contains x = t.contains x) ∧ (∀ x, t'.get? x = t.get? x) ∧
      ∀ x, t'.children x = t.children x := by
  induction ids generalizing t with
  | nil => simp
  | cons i r ih =>
    obtain ⟨hn, hc, hg, hk⟩ := ih (t.modifySlot i fun s => { s with parent := some q })
    simp only [List.foldl_cons]
    exact ⟨by simp [hn], fun x => by simp [hc], fun x => by simp [hg], fun x => by simp [hk]⟩

theorem parent?_foldl_adopt :
    (ids.foldl (fun t i => t.modifySlot i fun s => { s with parent := some q }) t).parent? x =
      if x ∈ ids ∧ t.contains x then some q else t.parent? x := by
  induction ids generalizing t with
  | nil => simp
  | cons i r ih =>
    rw [List.foldl_cons, ih, parent?_modifyParent, contains_modifySlot]
    grind

theorem replace_of_no_parent (h : t.parent? p = none) : t.replace p ids = (t, false) := by
  simp [replace, h]

/-- Nodes are moved, and none is made or removed. -/
theorem contains_replace : (t.replace p ids).1.contains x = t.contains x := by
  have hdetached := (foldl_detach_frame ids t).2.1 x
  unfold replace
  split
  · rfl
  · rename_i q _
    dsimp only
    split
    · rw [contains_modifySlot, (foldl_adopt_frame ids q _).2.1, contains_modifySlot, hdetached]
    · exact hdetached

/-- Nodes stand in the place of `p` under `q`, and `p` stands alone. -/
structure Replaced (p q : NodeId) (ids : List NodeId) (t t' : Tree α) : Prop where
  next : t'.next = t.next
  live : ∀ x, t'.contains x = t.contains x
  item : ∀ x, t'.get? x = t.get? x
  parent : ∀ x, t'.parent? x =
    if x = p then none else if x ∈ ids ∧ t.contains x then some q else
      if x ∈ ids then none else t.parent? x
  children : ∀ x, t'.children x =
    if x = q then putAt p ids ((ids.foldl detach t).children x) else (ids.foldl detach t).children x

theorem Wired.replace_of_parent (h : t.Wired) (hp : t.parent? p = some q) (hids : p ∉ ids) :
    (t.replace p ids).2 = true ∧ Replaced p q ids t (t.replace p ids).1 := by
  obtain ⟨hn, hc, hg⟩ := foldl_detach_frame ids t
  have hmem : p ∈ (ids.foldl Tree.detach t).children q := by
    rw [children_foldl_detach, List.mem_filter]
    refine ⟨h.listed hp, ?_⟩
    simp [hids]
  have hq := h.parent_live hp
  have hpl := live_of_parent hp
  have hfound : ((ids.foldl Tree.detach t).children q).contains p = true := List.contains_iff_mem.mpr hmem
  simp only [replace, hp, hfound, ↓reduceIte, true_and]
  obtain ⟨hn', hc', hg', hk'⟩ := foldl_adopt_frame ids q
    ((ids.foldl Tree.detach t).modifySlot q fun s => { s with children := putAt p ids s.children })
  constructor
  · rw [next_modifySlot, hn', next_modifySlot, hn]
  · intro x
    rw [contains_modifySlot, hc', contains_modifySlot, hc]
  · intro x
    rw [get?_modifyParent, hg', get?_modifyChildren, hg]
  · intro x
    rw [parent?_modifyParent, hc', contains_modifySlot, hc, hpl, parent?_foldl_adopt,
      contains_modifySlot, hc, parent?_modifyChildren, parent?_foldl_detach]
    simp
  · intro x
    rw [children_modifyParent, hk', children_modifyChildren, hc, hq]
    simp

namespace Replaced

variable (h : Replaced p q ids t t')
include h

/-- A node stands under `q` now because it was moved there, or it was not moved at all. -/
theorem cases_parent (hp : t'.parent? c = some x) :
    c ≠ p ∧ (c ∈ ids ∧ t.contains c ∧ x = q ∨ c ∉ ids ∧ t.parent? c = some x) := by
  rw [h.parent] at hp
  split at hp
  · cases hp
  · rename_i hcp
    refine ⟨hcp, ?_⟩
    split at hp
    · rename_i hi
      exact .inl ⟨hi.1, hi.2, (Option.some.inj hp).symm⟩
    · split at hp
      · cases hp
      · rename_i _ hi
        exact .inr ⟨hi, hp⟩

theorem parent_moved (hcp : c ≠ p) (hi : c ∈ ids) (hl : t.contains c) : t'.parent? c = some q := by
  rw [h.parent, if_neg hcp, if_pos ⟨hi, hl⟩]

theorem parent_kept (hcp : c ≠ p) (hi : c ∉ ids) : t'.parent? c = t.parent? c := by
  rw [h.parent, if_neg hcp, if_neg fun hi' => hi hi'.1, if_neg hi]

/-- Lists other than that of `q` lose the nodes that were moved. -/
theorem mem_children_other (hx : x ≠ q) :
    c ∈ t'.children x ↔ c ∈ t.children x ∧ (c ∈ ids → t.parent? c ≠ some x) := by
  rw [h.children, if_neg hx, children_foldl_detach, List.mem_filter]
  simp [imp_iff_not_or]

end Replaced

/-- The nodes that an output offers for its place. -/
def offered (t : Tree α) (fragment : Bool) (o : NodeId) : List NodeId :=
  if fragment then t.children o else [o]

/-- A place is attached, and an output that is younger stands by itself. -/
structure Ready (p q o : NodeId) (t : Tree α) : Prop where
  linked : t.Linked
  place : t.parent? p = some q
  root : t.parent? o = none
  younger : p < o
  given : o < t.next

namespace Ready

variable {fragment : Bool} (h : Ready p q o t)
include h

theorem parent_lt : q < p :=
  h.linked.ordered h.place

theorem parent_lt_output : q < o :=
  Nat.lt_trans h.parent_lt h.younger

theorem parent_of_offered (hc : c ∈ t.offered fragment o) (hx : t.parent? c = some x) : x = o := by
  unfold offered at hc
  split at hc
  · have := h.linked.link hc (live_of_parent hx)
    rw [hx] at this
    exact Option.some.inj this
  · rw [List.mem_singleton.mp hc, h.root] at hx
    cases hx

theorem place_not_offered : p ∉ t.offered fragment o :=
  fun hp => Nat.ne_of_lt h.parent_lt_output (h.parent_of_offered hp h.place)

theorem offered_lt (hc : c ∈ t.offered fragment o) : c < t.next := by
  unfold offered at hc
  split at hc
  · exact h.linked.listed_lt hc
  · exact List.mem_singleton.mp hc ▸ h.given

/-- Live nodes that are offered are younger than where they go. -/
theorem lt_of_offered (hc : c ∈ t.offered fragment o) (hl : t.contains c) : q < c := by
  unfold offered at hc
  split at hc
  · exact Nat.lt_trans h.parent_lt_output (h.linked.ordered (h.linked.link hc hl))
  · exact List.mem_singleton.mp hc ▸ h.parent_lt_output

theorem count_offered (hl : t.contains c) : (t.offered fragment o).count c ≤ 1 := by
  unfold offered
  split
  · exact h.linked.once hl
  · exact List.count_le_length

/-- Other lists do not lose anything to the place. -/
theorem children_detached (hx : x ≠ o) :
    ((t.offered fragment o).foldl detach t).children x = t.children x :=
  children_foldl_detach_of fun _ hc hp => hx (h.parent_of_offered hc hp)

section Moving

variable (hr : Replaced p q (t.offered fragment o) t t')
include hr

theorem children_of_replaced : t'.children q = putAt p (t.offered fragment o) (t.children q) := by
  rw [hr.children, if_pos rfl, h.children_detached (Nat.ne_of_lt h.parent_lt_output)]

/-- The place stood in its list once, and is gone from it. -/
theorem place_not_listed : p ∉ t'.children q := by
  intro hm
  rw [h.children_of_replaced hr] at hm
  have hone := h.linked.once (x := q) (live_of_parent h.place)
  have hcount := count_putAt_self (t.offered fragment o) (h.linked.listed h.place)
  rw [List.count_eq_zero_of_not_mem h.place_not_offered] at hcount
  have := List.count_pos_iff.mpr hm
  omega

theorem mem_children_of_replaced (hc : c ≠ p) :
    c ∈ t'.children q ↔ c ∈ t.offered fragment o ∨ c ∈ t.children q := by
  rw [h.children_of_replaced hr]
  exact mem_putAt (h.linked.listed h.place) hc

theorem count_children_of_replaced (hl : t.contains c) : (t'.children q).count c ≤ 1 := by
  by_cases hcp : c = p
  · subst hcp
    rw [List.count_eq_zero_of_not_mem (h.place_not_listed hr)]
    exact Nat.zero_le _
  · rw [h.children_of_replaced hr, count_putAt (h.linked.listed h.place) hcp]
    by_cases hi : c ∈ t.offered fragment o
    · have hc : c ∉ t.children q := fun hm => Nat.ne_of_lt h.parent_lt_output
        (h.parent_of_offered hi (h.linked.link hm hl))
      rw [List.count_eq_zero_of_not_mem hc]
      exact h.count_offered hl
    · rw [List.count_eq_zero_of_not_mem hi, Nat.zero_add]
      exact h.linked.once hl

theorem linked_of_replaced : t'.Linked := by
  constructor
  case live_lt =>
    intro x hx
    rw [hr.next]
    exact h.linked.live_lt (hr.live x ▸ hx)
  case listed_lt =>
    intro x c hc
    rw [hr.next]
    by_cases hx : x = q
    · subst hx
      rw [h.children_of_replaced hr] at hc
      exact (mem_of_mem_putAt hc).elim h.offered_lt fun hc => h.linked.listed_lt hc
    · exact h.linked.listed_lt ((hr.mem_children_other hx).mp hc).1
  case listed =>
    intro x c hp
    obtain ⟨hcp, ⟨hi, _, rfl⟩ | ⟨hi, hp⟩⟩ := hr.cases_parent hp
    · exact (h.mem_children_of_replaced hr hcp).mpr (.inl hi)
    · have hm := h.linked.listed hp
      by_cases hx : x = q
      · subst hx
        exact (h.mem_children_of_replaced hr hcp).mpr (.inr hm)
      · exact (hr.mem_children_other hx).mpr ⟨hm, fun hi' => absurd hi' hi⟩
  case link =>
    intro x c hc hl
    rw [hr.live] at hl
    by_cases hx : x = q
    · subst hx
      have hcp : c ≠ p := by
        rintro rfl
        exact h.place_not_listed hr hc
      by_cases hi : c ∈ t.offered fragment o
      · exact hr.parent_moved hcp hi hl
      · rw [hr.parent_kept hcp hi]
        exact h.linked.link (((h.mem_children_of_replaced hr hcp).mp hc).resolve_left hi) hl
    · obtain ⟨hm, hne⟩ := (hr.mem_children_other hx).mp hc
      have hp := h.linked.link hm hl
      have hcp : c ≠ p := by
        rintro rfl
        exact hx (Option.some.inj (hp.symm.trans h.place))
      exact (hr.parent_kept hcp fun hi => hne hi hp).trans hp
  case once =>
    intro x c hl
    rw [hr.live] at hl
    by_cases hx : x = q
    · subst hx
      exact h.count_children_of_replaced hr hl
    · rw [hr.children, if_neg hx, children_foldl_detach]
      exact Nat.le_trans (List.filter_sublist.count_le c) (h.linked.once hl)
  case ordered =>
    intro x c hp
    obtain ⟨_, ⟨hi, hl, rfl⟩ | ⟨_, hp⟩⟩ := hr.cases_parent hp
    · exact h.lt_of_offered hi hl
    · exact h.linked.ordered hp

end Moving

end Ready

/-- The output `o`, or its children if it is a fragment, took the place `p` under `q`. -/
structure Spliced (p q o : NodeId) (fragment : Bool) (t t' : Tree α) : Prop where
  ready : Ready p q o t
  after : t'.Linked
  next : t'.next = t.next
  live : ∀ {x}, t'.contains x ↔ t.contains x ∧ ¬t.Under p x ∧ ¬(fragment ∧ x = o)
  parent : ∀ {x}, t'.contains x →
    t'.parent? x = if x ∈ t.offered fragment o then some q else t.parent? x
  item : ∀ {x}, t'.contains x → t'.get? x = t.get? x
  children : ∀ {x}, t'.contains x →
    t'.children x = if x = q then putAt p (t.offered fragment o) (t.children q) else t.children x

namespace Ready

variable {fragment : Bool} (h : Ready p q o t)
include h

/-- What stands under the place does so before and after the output is put there. -/
theorem under_place (hr : Replaced p q (t.offered fragment o) t t') :
    t'.Under p x ↔ t.Under p x := by
  have ht' := h.linked_of_replaced hr
  constructor
  · intro hu
    refine hu.congr fun y r _ hp hpr _ => ?_
    obtain ⟨_, ⟨_, _, rfl⟩ | ⟨_, hp⟩⟩ := hr.cases_parent hp
    · exact absurd (ht'.le_of_under hpr) (Nat.not_le.mpr h.parent_lt)
    · exact hp
  · intro hu
    refine hu.congr fun y r _ hp hpr _ => ?_
    have hyp : y ≠ p := by
      rintro rfl
      exact h.linked.not_under_parent hp hpr
    have hi : y ∉ t.offered fragment o := by
      intro hi
      have hro := h.parent_of_offered hi hp
      subst hro
      exact Nat.ne_of_lt h.younger (hpr.eq_of_no_parent h.root)
    exact (hr.parent_kept hyp hi).trans hp

theorem live_of_place_removed (hr : Replaced p q (t.offered fragment o) t t') :
    (t'.remove p).1.contains x ↔ t.contains x ∧ ¬t.Under p x := by
  rw [contains_remove (h.linked_of_replaced hr), hr.live, h.under_place hr]

theorem parent_of_place_removed (hr : Replaced p q (t.offered fragment o) t t')
    (hx : (t'.remove p).1.contains x) :
    (t'.remove p).1.parent? x = if x ∈ t.offered fragment o then some q else t.parent? x := by
  obtain ⟨hl, hu⟩ := (h.live_of_place_removed hr).mp hx
  have hxp : x ≠ p := by
    rintro rfl
    exact hu .self
  rw [parent?_remove (h.linked_of_replaced hr) hx]
  split
  · exact hr.parent_moved hxp ‹_› hl
  · exact hr.parent_kept hxp ‹_›

theorem children_of_place_removed (hr : Replaced p q (t.offered fragment o) t t')
    (hx : (t'.remove p).1.contains x) (hfo : ¬(fragment ∧ x = o)) : (t'.remove p).1.children x =
      if x = q then putAt p (t.offered fragment o) (t.children q) else t.children x := by
  have hnone : t'.parent? p = none := by
    rw [hr.parent, if_pos rfl]
  have hkept : ((t.offered fragment o).foldl detach t).children x = t.children x := by
    refine children_foldl_detach_of fun c hc hp => ?_
    have hxo := h.parent_of_offered hc hp
    subst hxo
    have hf : fragment = false := by simpa using hfo
    subst hf
    rw [List.mem_singleton.mp hc, h.root] at hp
    cases hp
  rw [children_remove hx, hnone, if_neg (by simp), hr.children, hkept]
  split
  · rename_i hxq
    rw [hxq]
  · rfl

/-- A fragment is left without anything under it. -/
theorem emptied (hr : Replaced p q (t.offered true o) t t')
    (hu : (t'.remove p).1.Under o x) : o = x := by
  induction hu with
  | self => rfl
  | @step b c above link ih =>
    subst ih
    have hc := live_of_parent link
    rw [h.parent_of_place_removed hr hc] at link
    split at link
    · exact absurd (Option.some.inj link) (Nat.ne_of_lt h.parent_lt_output)
    · rename_i hi
      exact absurd (h.linked.listed link) hi

theorem spliced (hr : Replaced p q (t.offered fragment o) t t') : Spliced p q o fragment t
    (if fragment then ((t'.remove p).1.remove o).1 else (t'.remove p).1) := by
  have hl := (h.linked_of_replaced hr).remove p
  cases fragment with
  | false =>
    refine ⟨h, hl, (Pruned.remove (h.linked_of_replaced hr) p).next.trans hr.next, ?_,
      h.parent_of_place_removed hr, ?_, fun hx => h.children_of_place_removed hr hx (by simp)⟩
    · simp [h.live_of_place_removed hr]
    · intro x hx
      exact (get?_remove hx).trans (hr.item x)
  | true =>
    have hp := Pruned.remove (h.linked_of_replaced hr) p
    have ho := Pruned.remove hl o
    have hback : ∀ {x}, ((t'.remove p).1.remove o).1.contains x →
        (t'.remove p).1.contains x ∧ x ≠ o := by
      intro x hx
      obtain ⟨hx, hu⟩ := ho.live.mp hx
      exact ⟨hx, fun hxo => hu (hxo ▸ .self)⟩
    have hroot : (t'.remove p).1.parent? o = none := by
      by_cases hlo : (t'.remove p).1.contains o
      · rw [h.parent_of_place_removed hr hlo, if_neg, h.root]
        intro hi
        have := h.linked.link hi ((h.live_of_place_removed hr).mp hlo).1
        rw [h.root] at this
        cases this
      · exact parent?_of_dead hlo
    refine ⟨h, ho.after, ho.next.trans (hp.next.trans hr.next), ?_, ?_, ?_, ?_⟩
    · intro x
      rw [if_pos rfl, ho.live, h.live_of_place_removed hr]
      constructor
      · rintro ⟨⟨hx, hu⟩, huo⟩
        exact ⟨hx, hu, fun hxo => huo (hxo.2 ▸ .self)⟩
      · rintro ⟨hx, hu, hxo⟩
        exact ⟨⟨hx, hu⟩, fun huo => hxo ⟨rfl, (h.emptied hr huo).symm⟩⟩
    · intro x hx
      rw [if_pos rfl] at hx ⊢
      rw [ho.parent hx, h.parent_of_place_removed hr (hback hx).1]
    · intro x hx
      rw [if_pos rfl] at hx ⊢
      rw [ho.item hx, get?_remove (hback hx).1, hr.item]
    · intro x hx
      rw [if_pos rfl] at hx ⊢
      obtain ⟨hx', hxo⟩ := hback hx
      rw [ho.children hx, hroot, if_neg (by simp)]
      exact h.children_of_place_removed hr hx' fun hf => hxo hf.2

end Ready

namespace Spliced

variable {fragment : Bool} (h : Spliced p q o fragment t t')
include h

/-- Paths from nodes other than the output survive. -/
theorem path (hu : t.Under a x) (hx : t'.contains x) (ha : a ≠ o) : t'.Under a x := by
  have hao : ¬t.Under a o := fun hao => ha (hao.eq_of_no_parent h.ready.root)
  induction hu with
  | self => exact .self
  | @step b c above link ih =>
    have hp : t'.parent? c = some b := by
      rw [h.parent hx, if_neg, link]
      intro hi
      exact hao (h.ready.parent_of_offered hi link ▸ above)
    exact .step (ih (h.after.parent_live hp)) hp

/-- What stood under the output stands under the parent of the place. -/
theorem path_output (hu : t.Under o x) (hx : t'.contains x) : t'.Under q x := by
  induction hu with
  | self =>
    refine .of_parent ?_
    rw [h.parent hx, if_pos]
    have hf : fragment = false := by
      simpa using (h.live.mp hx).2.2
    simp [offered, hf]
  | @step b c above link ih =>
    by_cases hi : c ∈ t.offered fragment o
    · refine .of_parent ?_
      rw [h.parent hx, if_pos hi]
    · have hp : t'.parent? c = some b := by
        rw [h.parent hx, if_neg hi, link]
      exact .step (ih (h.after.parent_live hp)) hp

theorem fades : Fades t t' where
  next_le := Nat.le_of_eq h.next.symm
  live _ hl := (h.live.mp hl).1

/-- An output that is there lists nothing more that is not. -/
theorem full {gone : NodeId → Prop} (hf : t.FullBut gone) (ho : t.contains o ∨ gone o) :
    t'.FullBut gone := by
  intro x c hc
  have hx := live_of_listed hc
  have hl := h.ready.linked
  -- A child of a node that does not stand under the place stays.
  have hstays : ∀ y, t.parent? c = some y → c ≠ p → ¬t.Under p y → t'.contains c := by
    intro y hy hcp hpy
    refine h.live.mpr ⟨live_of_parent hy, fun hu => ?_, fun hco => ?_⟩
    · rcases hu.cases_parent with rfl | ⟨r, hr, hpr⟩
      · exact hcp rfl
      · rw [hy] at hr
        cases hr
        exact hpy hpr
    · rw [hco.2, h.ready.root] at hy
      cases hy
  rw [h.children hx] at hc
  split at hc
  · subst x
    have hcp : c ≠ p := by
      rintro rfl
      have hcount := count_putAt_self (t.offered fragment o) (hl.listed h.ready.place)
      have hone := hl.once (x := q) (live_of_parent h.ready.place)
      have hsome := List.one_le_count_iff.mpr hc
      rw [List.count_eq_zero_of_not_mem h.ready.place_not_offered] at hcount
      omega
    rcases mem_of_mem_putAt hc with hc | hc
    · have hpo : ¬t.Under p o := fun hu => Nat.ne_of_lt h.ready.younger (hu.eq_of_no_parent h.ready.root)
      unfold offered at hc
      split at hc
      · exact (hf o c hc).imp_left fun hlive => hstays o (hl.link hc hlive) hcp hpo
      · rename_i hfragment
        rw [List.mem_singleton.mp hc]
        exact ho.imp_left fun hlive => h.live.mpr ⟨hlive, hpo, fun hco => hfragment hco.1⟩
    · refine (hf q c hc).imp_left fun hlive => hstays q (hl.link hc hlive) hcp fun hu => ?_
      exact Nat.not_lt.mpr (hl.le_of_under hu) h.ready.parent_lt
  · rename_i hxq
    refine (hf x c hc).imp_left fun hlive => ?_
    have hy := hl.link hc hlive
    refine hstays x hy ?_ (h.live.mp hx).2.1
    rintro rfl
    rw [h.ready.place] at hy
    exact hxq (Option.some.inj hy).symm

end Spliced

end Montage.Tree
