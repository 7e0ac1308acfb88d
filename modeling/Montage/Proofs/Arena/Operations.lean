import Montage.Proofs.Arena.Links

/-!
What the writing operations of a tree do to its nodes, one operation at a time: which nodes are live
afterwards, and what are their items, parents and children.
-/

namespace Montage.Tree

variable {α : Type} {t : Tree α} {n p x y : NodeId}

section Slots

variable {f : Slot α → Slot α}

@[simp] theorem next_modifySlot : (t.modifySlot n f).next = t.next := rfl

theorem slot_modifySlot : (t.modifySlot n f).slots.get? x =
    if x = n then (t.slots.get? x).map f else t.slots.get? x :=
  Table.get?_modify ..

@[simp] theorem contains_modifySlot : (t.modifySlot n f).contains x = t.contains x := by
  simp only [contains, Table.contains, slot_modifySlot]
  split <;> simp

@[simp] theorem get?_modifyChildren (g : List NodeId → List NodeId) :
    (t.modifySlot n fun s => { s with children := g s.children }).get? x = t.get? x := by
  simp only [get?, slot_modifySlot]
  split
  · cases t.slots.get? x <;> rfl
  · rfl

@[simp] theorem parent?_modifyChildren (g : List NodeId → List NodeId) :
    (t.modifySlot n fun s => { s with children := g s.children }).parent? x = t.parent? x := by
  simp only [parent?, slot_modifySlot]
  split
  · cases t.slots.get? x <;> rfl
  · rfl

theorem children_modifyChildren (g : List NodeId → List NodeId) :
    (t.modifySlot n fun s => { s with children := g s.children }).children x =
      if x = n ∧ t.contains n then g (t.children x) else t.children x := by
  simp only [children, slot_modifySlot, contains, Table.contains]
  by_cases hx : x = n
  · subst hx
    rcases Option.eq_none_or_eq_some (t.slots.get? x) with hs | ⟨s, hs⟩ <;> simp [hs]
  · simp [hx]

@[simp] theorem get?_modifyParent (q : Option NodeId) :
    (t.modifySlot n fun s => { s with parent := q }).get? x = t.get? x := by
  simp only [get?, slot_modifySlot]
  split
  · cases t.slots.get? x <;> rfl
  · rfl

@[simp] theorem children_modifyParent (q : Option NodeId) :
    (t.modifySlot n fun s => { s with parent := q }).children x = t.children x := by
  simp only [children, slot_modifySlot]
  split
  · cases t.slots.get? x <;> rfl
  · rfl

theorem parent?_modifyParent (q : Option NodeId) :
    (t.modifySlot n fun s => { s with parent := q }).parent? x =
      if x = n ∧ t.contains n then q else t.parent? x := by
  simp only [parent?, slot_modifySlot, contains, Table.contains]
  by_cases hx : x = n
  · subst hx
    rcases Option.eq_none_or_eq_some (t.slots.get? x) with hs | ⟨s, hs⟩ <;> simp [hs]
  · simp [hx]

end Slots

/-! Changing an item. -/

section Modify

variable {f : α → α}

@[simp] theorem contains_modify : (t.modify n f).contains x = t.contains x :=
  contains_modifySlot

@[simp] theorem parent?_modify : (t.modify n f).parent? x = t.parent? x := by
  simp only [parent?, modify, slot_modifySlot]
  split
  · cases t.slots.get? x <;> rfl
  · rfl

@[simp] theorem children_modify : (t.modify n f).children x = t.children x := by
  simp only [children, modify, slot_modifySlot]
  split
  · cases t.slots.get? x <;> rfl
  · rfl

theorem get?_modify : (t.modify n f).get? x = if x = n then (t.get? x).map f else t.get? x := by
  simp only [get?, modify, slot_modifySlot]
  split
  · cases t.slots.get? x <;> rfl
  · rfl

end Modify

/-! Creating a node. -/

section Create

variable {v : α}

theorem slot_create : (t.create v).1.slots.get? x =
    if x = t.next then some ⟨v, none, []⟩ else t.slots.get? x :=
  Table.get?_insert ..

theorem contains_create : (t.create v).1.contains x ↔ t.contains x ∨ x = t.next := by
  simp only [contains, Table.contains, slot_create]
  split <;> simp_all

theorem get?_create : (t.create v).1.get? x = if x = t.next then some v else t.get? x := by
  simp only [get?, slot_create]
  split <;> rfl

theorem parent?_create : (t.create v).1.parent? x = if x = t.next then none else t.parent? x := by
  simp only [parent?, slot_create]
  split <;> rfl

theorem children_create : (t.create v).1.children x = if x = t.next then [] else t.children x := by
  simp only [children, slot_create]
  split <;> rfl

theorem Linked.not_live_next (h : t.Linked) : ¬t.contains t.next :=
  fun hc => Nat.lt_irrefl _ (h.live_lt hc)

/-- Nothing stands under a new node. -/
theorem Linked.not_below_next (h : t.Linked) : (t.create v).1.parent? x ≠ some t.next := by
  intro hp
  rw [parent?_create] at hp
  split at hp
  · cases hp
  · exact h.not_live_next (h.parent_live hp)

theorem Linked.create (h : t.Linked) (v : α) : (t.create v).1.Linked where
  live_lt {x} hx := by
    rcases contains_create.mp hx with hx | hx
    · exact Nat.lt_succ_of_lt (h.live_lt hx)
    · exact hx ▸ Nat.lt_succ_self _
  listed_lt {x c} hc := by
    rw [children_create] at hc
    split at hc
    · simp at hc
    · exact Nat.lt_succ_of_lt (h.listed_lt hc)
  listed {x c} hp := by
    rw [parent?_create] at hp
    split at hp
    · simp at hp
    · rw [children_create, if_neg]
      · exact h.listed hp
      · rintro rfl
        exact h.not_live_next (h.parent_live hp)
  link {x c} hc hl := by
    rw [children_create] at hc
    split at hc
    · simp at hc
    · have hne : c ≠ t.next := Nat.ne_of_lt (h.listed_lt hc)
      rw [parent?_create, if_neg hne]
      exact h.link hc ((contains_create.mp hl).resolve_right hne)
  once {x c} hl := by
    rw [children_create]
    split
    · simp
    · rename_i hx
      rcases contains_create.mp hl with hc | hc
      · exact h.once hc
      · subst hc
        have hne : t.next ∉ t.children x := fun hm => Nat.lt_irrefl _ (h.listed_lt hm)
        simp [List.count_eq_zero_of_not_mem hne]
  ordered {x c} hp := by
    rw [parent?_create] at hp
    split at hp
    · simp at hp
    · exact h.ordered hp

end Create

/-! Detaching a node. -/

section Detach

@[simp] theorem next_detach : (t.detach n).next = t.next := by
  unfold detach
  split <;> rfl

@[simp] theorem contains_detach : (t.detach n).contains x = t.contains x := by
  unfold detach
  split <;> simp

@[simp] theorem get?_detach : (t.detach n).get? x = t.get? x := by
  unfold detach
  split
  · rfl
  · rw [get?_modifyParent, get?_modifyChildren]

theorem detach_of_no_parent (h : t.parent? n = none) : t.detach n = t := by
  simp [detach, h]

theorem parent?_detach : (t.detach n).parent? x = if x = n then none else t.parent? x := by
  cases hp : t.parent? n with
  | none =>
    rw [detach_of_no_parent hp]
    split
    · rename_i hx
      rw [hx, hp]
    · rfl
  | some p =>
    have hl := live_of_parent hp
    simp only [detach, hp, parent?_modifyParent, contains_modifySlot, hl, and_true]
    split
    · rfl
    · exact parent?_modifyChildren _

theorem children_detach : (t.detach n).children x =
    if t.parent? n = some x then (t.children x).filter (· != n) else t.children x := by
  cases hp : t.parent? n with
  | none => simp [detach_of_no_parent hp]
  | some p =>
    simp only [detach, hp]
    rw [children_modifyParent, children_modifyChildren]
    by_cases hx : x = p
    · subst hx
      by_cases hl : t.contains x
      · simp [hl]
      · simp [hl, children_of_dead]
    · simp [hx, Ne.symm hx]

theorem mem_children_detach {c : NodeId} :
    c ∈ (t.detach n).children x ↔ c ∈ t.children x ∧ (t.parent? n = some x → c ≠ n) := by
  rw [children_detach]
  split <;> simp_all

theorem under_of_detach (hu : (t.detach n).Under y x) : t.Under y x := by
  refine hu.congr fun z p _ hp _ _ => ?_
  rw [parent?_detach] at hp
  split at hp
  · simp at hp
  · exact hp

theorem Wired.detach (h : t.Wired) (n : NodeId) : (t.detach n).Wired where
  listed {x c} hp := by
    rw [parent?_detach] at hp
    split at hp
    · simp at hp
    · exact mem_children_detach.mpr ⟨h.listed hp, fun _ => ‹_›⟩
  link {x c} hc hl := by
    obtain ⟨hc, hne⟩ := mem_children_detach.mp hc
    rw [contains_detach] at hl
    have hp := h.link hc hl
    rw [parent?_detach, if_neg]
    · exact hp
    · rintro rfl
      exact hne hp rfl
  acyclic {x c} hp hu := by
    rw [parent?_detach] at hp
    split at hp
    · simp at hp
    · exact h.acyclic hp (under_of_detach hu)

theorem Linked.detach (h : t.Linked) (n : NodeId) : (t.detach n).Linked where
  live_lt hx := by
    rw [next_detach]
    exact h.live_lt (contains_detach ▸ hx)
  listed_lt hc := by
    rw [next_detach]
    exact h.listed_lt (mem_children_detach.mp hc).1
  listed := (h.wired.detach n).listed
  link := (h.wired.detach n).link
  once {x c} hl := by
    have hc := h.once (x := x) (contains_detach (n := n) ▸ hl)
    rw [children_detach]
    split
    · exact Nat.le_trans (List.filter_sublist.count_le c) hc
    · exact hc
  ordered {x c} hp := by
    rw [parent?_detach] at hp
    split at hp
    · simp at hp
    · exact h.ordered hp

/-- The paths below a node do not use its own link. -/
theorem Wired.under_detach (h : t.Wired) : (t.detach n).Under n x ↔ t.Under n x := by
  refine ⟨under_of_detach, fun hu => hu.congr fun y p _ hp hnp _ => ?_⟩
  rw [parent?_detach, if_neg]
  · exact hp
  · rintro rfl
    exact h.acyclic hp hnp

end Detach

/-! A new last child. -/

section Attach

variable {d : NodeId} {v : α}

theorem next_append : (t.append d n).next = t.next := by
  unfold append
  split <;> simp

theorem contains_append : (t.append d n).contains x = t.contains x := by
  unfold append
  split <;> simp

theorem get?_append : (t.append d n).get? x = t.get? x := by
  unfold append
  split
  · rw [get?_modifyParent, get?_modifyChildren (· ++ [n]), get?_detach]
  · rfl

@[simp] theorem next_attach : (t.attach d v).1.next = t.next + 1 :=
  next_append

theorem attach_of_dead (hd : d < t.next) (hl : ¬t.contains d) :
    (t.attach d v).1 = (t.create v).1 := by
  have : ¬(t.create v).1.contains d := by
    rw [contains_create]
    exact fun hc => hc.elim hl (Nat.ne_of_lt hd)
  simp [attach, append, this]

theorem append_of_fresh (hd : t.contains d) (hn : t.contains n) (hp : t.parent? n = none) :
    t.append d n = (t.modifySlot d fun s => { s with children := s.children ++ [n] }).modifySlot n
      fun s => { s with parent := some d } := by
  simp [append, hd, hn, detach_of_no_parent hp]

theorem attach_of_live (hl : t.contains d) :
    (t.attach d v).1 =
      ((t.create v).1.modifySlot d fun s => { s with children := s.children ++ [t.next] }).modifySlot
        t.next fun s => { s with parent := some d } := by
  refine append_of_fresh (contains_create.mpr (.inl hl)) (contains_create.mpr (.inr rfl))
    (parent?_create.trans (if_pos rfl))

theorem contains_attach : (t.attach d v).1.contains x ↔ t.contains x ∨ x = t.next := by
  rw [← contains_create, attach, contains_append]

theorem get?_attach : (t.attach d v).1.get? x = if x = t.next then some v else t.get? x := by
  rw [← get?_create, attach, get?_append]

theorem get?_attach_of_lt (hx : x < t.next) : (t.attach d v).1.get? x = t.get? x := by
  rw [get?_attach, if_neg (Nat.ne_of_lt hx)]

theorem lt_next_attach (hx : x < t.next) : x < (t.attach d v).1.next := by
  rw [next_attach]
  exact Nat.lt_succ_of_lt hx

theorem parent?_attach (hd : d < t.next) : (t.attach d v).1.parent? x =
    if x = t.next then (if t.contains d then some d else none) else t.parent? x := by
  by_cases hl : t.contains d
  · rw [attach_of_live hl, parent?_modifyParent, contains_modifySlot,
      parent?_modifyChildren (· ++ [t.next]), parent?_create]
    simp only [hl, contains_create, or_true, and_true, ↓reduceIte]
    split <;> rfl
  · rw [attach_of_dead hd hl, parent?_create]
    simp [hl]

theorem children_attach (h : t.Linked) (hd : d < t.next) : (t.attach d v).1.children x =
    if x = d ∧ t.contains d then t.children d ++ [t.next] else t.children x := by
  have hfresh : t.children t.next = [] := children_of_dead h.not_live_next
  by_cases hl : t.contains d
  · rw [attach_of_live hl, children_modifyParent,
      children_modifyChildren (· ++ [t.next]), children_create]
    simp only [hl, contains_create, true_or, and_true]
    split
    · rename_i hx
      subst hx
      rw [if_neg (Nat.ne_of_lt hd)]
    · split
      · rename_i hx
        rw [hx, hfresh]
      · rfl
  · rw [attach_of_dead hd hl, children_create]
    simp only [hl, Bool.false_eq_true, and_false, ↓reduceIte]
    split
    · rename_i hx
      rw [hx, hfresh]
    · rfl

end Attach

end Montage.Tree
