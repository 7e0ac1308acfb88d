import Montage.Proofs.Arena.Growth

/-!
Trees that lose a subtree. Main statement: removing a node takes away exactly the live nodes under it,
tells all of them, and changes nothing else but the list of children in which the node stood.
-/

namespace Montage.Tree

variable {α : Type} {t t' : Tree α} {slots : Table (Slot α)} {stack : List NodeId} {a n x : NodeId}

@[simp] theorem removeAll_nil : removeAll slots [] = (slots, []) := by
  simp [removeAll]

theorem removeAll_dead (h : slots.get? n = none) :
    removeAll slots (n :: stack) = removeAll slots stack := by
  rw [removeAll.eq_def]
  split
  · rename_i heq
    exact absurd heq (by simp)
  · rename_i heq
    cases heq
    split <;> simp_all

theorem removeAll_live {s : Slot α} (h : slots.get? n = some s) :
    removeAll slots (n :: stack) =
      ((removeAll (slots.erase n) (s.children.reverse ++ stack)).1,
        n :: (removeAll (slots.erase n) (s.children.reverse ++ stack)).2) := by
  rw [removeAll.eq_def]
  split
  · rename_i heq
    exact absurd heq (by simp)
  · rename_i heq
    cases heq
    split <;> simp_all

/-- Of the slots, those that are not removed stay as they are. -/
theorem slot_removeAll (hx : (removeAll slots stack).1.get? x ≠ none) :
    (removeAll slots stack).1.get? x = slots.get? x := by
  induction slots, stack using removeAll.induct with
  | case1 slots => simp
  | case2 slots id rest h ih =>
    rw [removeAll_dead h] at hx ⊢
    exact ih hx
  | case3 slots id rest s h ih =>
    rw [removeAll_live h] at hx ⊢
    have he := ih hx
    rw [Table.get?_erase] at he
    split at he
    · exact absurd he hx
    · exact he

theorem slot_removeAll_none (hx : slots.get? x = none) :
    (removeAll slots stack).1.get? x = none := by
  rcases Option.eq_none_or_eq_some ((removeAll slots stack).1.get? x) with h | ⟨s, h⟩
  · exact h
  · rw [slot_removeAll (by simp [h]), hx] at h
    cases h

/-- What is told is what is gone. -/
theorem mem_removeAll : x ∈ (removeAll slots stack).2 ↔
    slots.get? x ≠ none ∧ (removeAll slots stack).1.get? x = none := by
  induction slots, stack using removeAll.induct with
  | case1 slots => simp
  | case2 slots id rest h ih =>
    rw [removeAll_dead h]
    exact ih
  | case3 slots id rest s h ih =>
    rw [removeAll_live h, List.mem_cons, ih, Table.get?_erase]
    by_cases hx : x = id
    · subst hx
      simp [h, slot_removeAll_none, Table.get?_erase]
    · simp [hx]

/-- The nodes on the stack go. -/
theorem removeAll_stack (hx : x ∈ stack) : (removeAll slots stack).1.get? x = none := by
  induction slots, stack using removeAll.induct with
  | case1 slots => simp at hx
  | case2 slots id rest h ih =>
    rw [removeAll_dead h]
    rcases List.mem_cons.mp hx with rfl | hx
    · exact slot_removeAll_none h
    · exact ih hx
  | case3 slots id rest s h ih =>
    rw [removeAll_live h]
    rcases List.mem_cons.mp hx with rfl | hx
    · exact slot_removeAll_none (by simp [Table.get?_erase])
    · exact ih (List.mem_append_right _ hx)

/-- The children of a node that goes go too. -/
theorem removeAll_closed {s : Slot α} {c : NodeId} (hs : slots.get? x = some s)
    (hx : (removeAll slots stack).1.get? x = none) (hc : c ∈ s.children) :
    (removeAll slots stack).1.get? c = none := by
  induction slots, stack using removeAll.induct with
  | case1 slots => simp [hs] at hx
  | case2 slots id rest h ih =>
    rw [removeAll_dead h] at hx ⊢
    exact ih hs hx
  | case3 slots id rest s' h ih =>
    rw [removeAll_live h] at hx ⊢
    by_cases hid : x = id
    · subst hid
      rw [hs] at h
      cases h
      exact removeAll_stack (List.mem_append_left _ (List.mem_reverse.mpr hc))
    · refine ih ?_ hx
      rw [Table.get?_erase, if_neg hid]
      exact hs

/-- Only nodes go that are reached from the stack through lists of children. -/
theorem removeAll_within {P : NodeId → Prop} (hstack : ∀ y ∈ stack, slots.get? y ≠ none → P y)
    (hclosed : ∀ y s, slots.get? y = some s → P y → ∀ c ∈ s.children, slots.get? c ≠ none → P c)
    (hx : x ∈ (removeAll slots stack).2) : P x := by
  induction slots, stack using removeAll.induct with
  | case1 slots => simp at hx
  | case2 slots id rest h ih =>
    rw [removeAll_dead h] at hx
    exact ih (fun y hy => hstack y (List.mem_cons_of_mem _ hy)) hclosed hx
  | case3 slots id rest s h ih =>
    have hid : P id := hstack id List.mem_cons_self (by simp [h])
    have hleft : ∀ y, (slots.erase id).get? y ≠ none → slots.get? y ≠ none := by
      intro y hy he
      rw [Table.get?_erase, he, ite_self] at hy
      exact hy rfl
    rw [removeAll_live h] at hx
    rcases List.mem_cons.mp hx with rfl | hx
    · exact hid
    · refine ih ?_ ?_ hx
      · intro y hy hl
        rcases List.mem_append.mp hy with hy | hy
        · exact hclosed id s h hid y (List.mem_reverse.mp hy) (hleft y hl)
        · exact hstack y (List.mem_cons_of_mem _ hy) (hleft y hl)
      · intro y u hu hy c hc hl
        rw [Table.get?_erase] at hu
        split at hu
        · simp at hu
        · exact hclosed y u hu hy c hc (hleft c hl)

/-- The subtree at `n` is gone, and `n` from the list of its parent. -/
structure Pruned (n : NodeId) (t t' : Tree α) : Prop where
  before : t.Linked
  after : t'.Linked
  next : t'.next = t.next
  live : ∀ {x}, t'.contains x ↔ t.contains x ∧ ¬t.Under n x
  parent : ∀ {x}, t'.contains x → t'.parent? x = t.parent? x
  item : ∀ {x}, t'.contains x → t'.get? x = t.get? x
  children : ∀ {x}, t'.contains x → t'.children x =
    if t.parent? n = some x then (t.children x).filter (· != n) else t.children x

/-- Exactly the subtree goes. -/
theorem Wired.slot_removeAll_under (h : t.Wired) : (removeAll t.slots [n]).1.get? x ≠ none ↔
    t.slots.get? x ≠ none ∧ ¬t.Under n x := by
  have hgone : ∀ y, t.Under n y → (removeAll t.slots [n]).1.get? y = none := by
    intro y hy
    induction hy with
    | self => exact removeAll_stack List.mem_cons_self
    | @step p c _ link ih =>
      obtain ⟨s, hs⟩ := contains_iff.mp (h.parent_live link)
      refine removeAll_closed hs ih ?_
      have := h.listed link
      simpa [children, hs] using this
  have hwithin : ∀ y, y ∈ (removeAll t.slots [n]).2 → t.Under n y := by
    intro y hy
    refine removeAll_within ?_ ?_ hy
    · intro z hz _
      rw [List.mem_singleton.mp hz]
      exact .self
    · intro z s hs hz c hc hl
      have hc : c ∈ t.children z := by simpa [children, hs] using hc
      refine hz.step (h.link hc ?_)
      simpa [contains, Table.contains, Option.isSome_iff_ne_none] using hl
  constructor
  · intro hx
    exact ⟨slot_removeAll hx ▸ hx, fun hu => hx (hgone x hu)⟩
  · rintro ⟨hl, hu⟩ he
    exact hu (hwithin x (mem_removeAll.mpr ⟨hl, he⟩))

theorem contains_iff_slot : t.contains x ↔ t.slots.get? x ≠ none := by
  simp [contains, Table.contains, Option.isSome_iff_ne_none]

/-- The state of a node after the removal of another one. -/
theorem slot_remove (hx : (t.remove n).1.contains x) :
    (t.remove n).1.slots.get? x = (t.detach n).slots.get? x :=
  slot_removeAll (contains_iff_slot.mp hx)

theorem Wired.contains_remove (h : t.Wired) :
    (t.remove n).1.contains x ↔ t.contains x ∧ ¬t.Under n x := by
  rw [contains_iff_slot, ← contains_detach (n := n), contains_iff_slot, ← h.under_detach]
  exact (h.detach n).slot_removeAll_under

theorem Wired.mem_remove (h : t.Wired) : x ∈ (t.remove n).2 ↔ t.contains x ∧ t.Under n x := by
  have hl : t.contains x ↔ (t.detach n).slots.get? x ≠ none := by
    rw [← contains_detach (n := n), contains_iff_slot]
  have hg := (h.detach n).slot_removeAll_under (n := n) (x := x)
  rw [h.under_detach] at hg
  rw [hl, remove, mem_removeAll]
  constructor
  · rintro ⟨hx, he⟩
    refine ⟨hx, Classical.byContradiction fun hu => ?_⟩
    exact hg.mpr ⟨hx, hu⟩ he
  · rintro ⟨hx, hu⟩
    refine ⟨hx, Classical.byContradiction fun he => ?_⟩
    exact (hg.mp he).2 hu

theorem Wired.parent?_remove (h : t.Wired) (hx : (t.remove n).1.contains x) :
    (t.remove n).1.parent? x = t.parent? x := by
  have hne : x ≠ n := by
    rintro rfl
    exact (h.contains_remove.mp hx).2 .self
  rw [parent?, slot_remove hx, ← parent?, parent?_detach, if_neg hne]

theorem contains_remove (h : t.Linked) :
    (t.remove n).1.contains x ↔ t.contains x ∧ ¬t.Under n x :=
  h.wired.contains_remove

theorem mem_remove (h : t.Linked) : x ∈ (t.remove n).2 ↔ t.contains x ∧ t.Under n x :=
  h.wired.mem_remove

theorem parent?_remove (h : t.Linked) (hx : (t.remove n).1.contains x) :
    (t.remove n).1.parent? x = t.parent? x :=
  h.wired.parent?_remove hx

theorem children_remove (hx : (t.remove n).1.contains x) : (t.remove n).1.children x =
    if t.parent? n = some x then (t.children x).filter (· != n) else t.children x := by
  rw [children, slot_remove hx, ← children, children_detach]

theorem get?_remove (hx : (t.remove n).1.contains x) : (t.remove n).1.get? x = t.get? x := by
  rw [get?, slot_remove hx, ← get?, get?_detach]

theorem Linked.remove (h : t.Linked) (n : NodeId) : (t.remove n).1.Linked := by
  have hd := h.detach n
  have hk : ∀ {x}, (t.remove n).1.contains x →
      (t.remove n).1.children x = (t.detach n).children x := by
    intro x hx
    rw [children_remove hx, children_detach]
  have hn : (t.remove n).1.next = t.next := next_detach
  constructor
  case live_lt =>
    intro x hx
    rw [hn]
    exact h.live_lt ((contains_remove h).mp hx).1
  case listed_lt =>
    intro x c hc
    rw [hk (live_of_listed hc)] at hc
    rw [hn, ← next_detach (n := n)]
    exact hd.listed_lt hc
  case listed =>
    intro x c hp
    have hc := live_of_parent hp
    obtain ⟨_, hu⟩ := (contains_remove h).mp hc
    rw [parent?_remove h hc] at hp
    have hx : (t.remove n).1.contains x :=
      (contains_remove h).mpr ⟨h.parent_live hp, fun hnx => hu (hnx.step hp)⟩
    rw [hk hx]
    refine hd.listed ?_
    rw [parent?_detach, if_neg]
    · exact hp
    · rintro rfl
      exact hu .self
  case link =>
    intro x c hc hl
    rw [hk (live_of_listed hc)] at hc
    rw [parent?_remove h hl]
    exact h.link (mem_children_detach.mp hc).1 ((contains_remove h).mp hl).1
  case once =>
    intro x c hl
    by_cases hx : (t.remove n).1.contains x
    · rw [hk hx]
      refine hd.once ?_
      rw [contains_detach]
      exact ((contains_remove h).mp hl).1
    · simp [children_of_dead hx]
  case ordered =>
    intro x c hp
    rw [parent?_remove h (live_of_parent hp)] at hp
    exact h.ordered hp

theorem Pruned.remove (h : t.Linked) (n : NodeId) : Pruned n t (t.remove n).1 where
  before := h
  after := h.remove n
  next := next_detach
  live := contains_remove h
  parent := parent?_remove h
  item := get?_remove
  children := children_remove

theorem Pruned.gone (h : Pruned n t t') : ¬t'.contains n :=
  fun hn => (h.live.mp hn).2 .self

/-- A change that moves no node that was there before, though it may remove some. -/
structure Steady (t t' : Tree α) : Prop where
  before : t.Linked
  after : t'.Linked
  next_le : t.next ≤ t'.next
  live : ∀ {x}, x < t.next → t'.contains x → t.contains x
  parent : ∀ {x}, x < t.next → t'.contains x → t'.parent? x = t.parent? x
  listed : ∀ {x c}, c ∈ t'.children x → c < t.next → c ∈ t.children x
  full : ∀ {gone}, t.FullBut gone → t'.FullBut gone

theorem Grown.steady {d : Option NodeId} (h : Grown d t t') : Steady t t' where
  before := h.before
  after := h.after
  next_le := h.next_le
  live hx hl := h.live hx ▸ hl
  parent hx _ := h.parent hx
  listed := h.listed
  full := h.full

theorem Pruned.steady (h : Pruned n t t') : Steady t t' where
  before := h.before
  after := h.after
  next_le := Nat.le_of_eq h.next.symm
  live _ hl := (h.live.mp hl).1
  parent _ hl := h.parent hl
  listed {x c} hc _ := by
    rw [h.children (live_of_listed hc)] at hc
    split at hc
    · exact (List.mem_filter.mp hc).1
    · exact hc
  full hf x c hc := by
    have hx := live_of_listed hc
    rw [h.children hx] at hc
    have hc' : c ∈ t.children x := by
      split at hc
      · exact (List.mem_filter.mp hc).1
      · exact hc
    refine (hf x c hc').imp_left fun hl => ?_
    have hp := h.before.link hc' hl
    refine h.live.mpr ⟨hl, fun hu => ?_⟩
    rcases hu.cases_parent with rfl | ⟨q, hq, hnq⟩
    · rw [if_pos hp] at hc
      simpa using (List.mem_filter.mp hc).2
    · rw [hp] at hq
      cases hq
      exact (h.live.mp hx).2 hnq

namespace Steady

theorem trans {t'' : Tree α} (h : Steady t t') (h' : Steady t' t'') : Steady t t'' where
  before := h.before
  after := h'.after
  next_le := Nat.le_trans h.next_le h'.next_le
  live hx hl := h.live hx (h'.live (Nat.lt_of_lt_of_le hx h.next_le) hl)
  parent hx hl := by
    have hx' := Nat.lt_of_lt_of_le hx h.next_le
    exact (h'.parent hx' hl).trans (h.parent hx (h'.live hx' hl))
  listed hc hx := h.listed (h'.listed hc (Nat.lt_of_lt_of_le hx h.next_le)) hx
  full hf := h'.full (h.full hf)

theorem path (h : Steady t t') (hu : t.Under a x) (hx : t'.contains x) : t'.Under a x :=
  hu.kept h.after hx fun _ _ hp hl =>
    (h.parent (h.before.live_lt (live_of_parent hp)) hl).trans hp

theorem path_back (h : Steady t t') (hu : t'.Under a x) (hx : x < t.next) : t.Under a x := by
  induction hu with
  | self => exact .self
  | step _ link ih =>
    refine .step (ih (Nat.lt_trans (h.after.ordered link) hx)) ?_
    rw [← h.parent hx (live_of_parent link)]
    exact link

end Steady

/-- Handles are not given out again, and no dead node comes back. -/
structure Fades (t t' : Tree α) : Prop where
  next_le : t.next ≤ t'.next
  live : ∀ {x}, x < t.next → t'.contains x → t.contains x

theorem Steady.fades (h : Steady t t') : Fades t t' := ⟨h.next_le, h.live⟩

theorem Fades.trans {t'' : Tree α} (h : Fades t t') (h' : Fades t' t'') : Fades t t'' where
  next_le := Nat.le_trans h.next_le h'.next_le
  live hx hl := h.live hx (h'.live (Nat.lt_of_lt_of_le hx h.next_le) hl)

end Montage.Tree
