import Montage.Proofs.Arena.Forest

/-!
Walks up and down a tree. Main statements: in a forest every walk ends, and needs no more steps than there
are nodes; from a node that stands above itself no walk ends; and putting nodes at the end of another keeps
a forest one just if none of them stands at or above it.
-/

namespace Montage.Tree

variable {α β : Type} {t t' : Tree α} {ids : List NodeId} {c d n p x : NodeId}

/-- A walk is at its end after some steps: more of them find nothing more. -/
def EndsBy (steps : Nat) (walk : Nat → β) : Prop :=
  ∀ m, steps ≤ m → walk m = walk steps

/-- A node that stands above itself. -/
def Looped (t : Tree α) (x : NodeId) : Prop :=
  ∃ p, t.parent? x = some p ∧ t.Under x p

/-- No node stands above itself, and all walks from all nodes end. -/
structure Walkable (t : Tree α) : Prop where
  acyclic : ∀ x, ¬t.Looped x
  up : ∀ x, EndsBy t.size fun m => t.ancestorsWithin m x
  down : ∀ x, EndsBy t.size fun m => t.descendantsWithin m x
  subtree : ∀ x, EndsBy t.size fun m => t.subtreeWithin m x

/-- A live node stands above itself, and no walk from it ends after any number of steps. -/
structure Endless (t : Tree α) (x : NodeId) : Prop where
  live : t.contains x
  looped : t.Looped x
  up : ∀ steps, ¬EndsBy steps fun m => t.ancestorsWithin m x
  down : ∀ steps, ¬EndsBy steps fun m => t.descendantsWithin m x
  subtree : ∀ steps, ¬EndsBy steps fun m => t.subtreeWithin m x

/-! In a forest. -/

/-- The number of live nodes at or above a node. -/
noncomputable def above (t : Tree α) (x : NodeId) : Nat :=
  open Classical in (t.slots.entries.filter fun e => t.Under e.1 x).length

theorem above_le (t : Tree α) (x : NodeId) : t.above x ≤ t.size :=
  List.length_filter_le ..

namespace Forest

theorem above_lt (h : t.Forest) (hp : t.parent? x = some p) : t.above p < t.above x := by
  classical
  obtain ⟨s, hs⟩ := contains_iff.mp (live_of_parent hp)
  have hsub : (t.slots.entries.filter fun e => t.Under e.1 p) =
      (t.slots.entries.filter fun e => t.Under e.1 x).filter fun e => t.Under e.1 p := by
    rw [List.filter_filter]
    apply List.filter_congr
    intro e _
    by_cases he : t.Under e.1 p
    · simp [he, he.step hp]
    · simp [he]
  rw [above, above, hsub]
  apply List.length_filter_lt_length_iff_exists.mpr
  refine ⟨(x, s), ?_, by simpa using h.acyclic hp⟩
  exact List.mem_filter.mpr ⟨Table.mem_entries.mpr hs, by simpa using Under.self⟩

theorem ancestorsWithin_eq (h : t.Forest) {m k : Nat} (hm : t.above x ≤ m) (hk : t.above x ≤ k) :
    t.ancestorsWithin m x = t.ancestorsWithin k x := by
  induction m generalizing x k with
  | zero =>
    cases hp : t.parent? x with
    | none => cases k <;> simp [ancestorsWithin, hp]
    | some p =>
      have := h.above_lt hp
      omega
  | succ m ih =>
    cases hp : t.parent? x with
    | none => cases k <;> simp [ancestorsWithin, hp]
    | some p =>
      have hless := h.above_lt hp
      cases k with
      | zero => omega
      | succ k =>
        simp only [ancestorsWithin, hp]
        rw [ih (x := p) (k := k) (by omega) (by omega)]

/-- What a child is given is enough for it. -/
theorem below_child (h : t.Forest) {m : Nat} (hm : t.below x ≤ m + 1) (hc : c ∈ t.children x) :
    t.below c ≤ m := by
  have := h.below_lt (h.child_iff.mp hc)
  omega

theorem descendantsWithin_eq (h : t.Forest) {m k : Nat} (hm : t.below x ≤ m) (hk : t.below x ≤ k) :
    t.descendantsWithin m x = t.descendantsWithin k x := by
  by_cases hx : t.contains x
  · have hpos := below_pos hx
    induction m generalizing x k with
    | zero => omega
    | succ m ih =>
      cases k with
      | zero => omega
      | succ k =>
        have hkids : (t.children x).flatMap (t.descendantsWithin m) =
            (t.children x).flatMap (t.descendantsWithin k) := by
          apply List.flatMap_congr
          intro c hc
          have hl := live_of_parent (h.child_iff.mp hc)
          exact ih (h.below_child hm hc) (h.below_child hk hc) hl (below_pos hl)
        simp only [descendantsWithin, hx, ↓reduceIte, hkids]
  · cases m <;> cases k <;> simp [descendantsWithin, hx]

theorem subtreeWithin_eq (h : t.Forest) {m k : Nat} (hm : t.below x ≤ m) (hk : t.below x ≤ k) :
    t.subtreeWithin m x = t.subtreeWithin k x := by
  cases hs : t.slots.get? x with
  | none => cases m <;> cases k <;> simp [subtreeWithin, hs]
  | some s =>
    have hpos := below_pos (contains_iff.mpr ⟨s, hs⟩)
    induction m generalizing x k s with
    | zero => omega
    | succ m ih =>
      cases k with
      | zero => omega
      | succ k =>
        have hkids : s.children.filterMap (t.subtreeWithin m) =
            s.children.filterMap (t.subtreeWithin k) := by
          apply List.filterMap_congr
          intro c hc
          have hc : c ∈ t.children x := by simpa [children, hs] using hc
          have hl := live_of_parent (h.child_iff.mp hc)
          obtain ⟨s', hs'⟩ := contains_iff.mp hl
          exact ih (h.below_child hm hc) (h.below_child hk hc) s' hs' (below_pos hl)
        simp only [subtreeWithin, hs, hkids]

theorem top_live (h : t.Forest) (hu : t.Under p x) (hx : t.contains x) : t.contains p := by
  induction hu with
  | self => exact hx
  | step _ link ih => exact ih (h.parent_live link)

theorem walkable (h : t.Forest) : t.Walkable where
  acyclic _ := fun ⟨_, hp, hu⟩ => h.acyclic hp hu
  up x _ hm := h.ancestorsWithin_eq (Nat.le_trans (above_le t x) hm) (above_le t x)
  down x _ hm := h.descendantsWithin_eq (Nat.le_trans (below_le t x) hm) (below_le t x)
  subtree x _ hm := h.subtreeWithin_eq (Nat.le_trans (below_le t x) hm) (below_le t x)

end Forest

/-! Around a loop. -/

/-- A walk that grows with its steps does not end. -/
theorem not_endsBy_of_le {walk : Nat → β} (f : β → Nat) (h : ∀ m, m ≤ f (walk m)) (steps : Nat) :
    ¬EndsBy steps walk := by
  intro hends
  have hsame := hends (steps + f (walk steps) + 1) (by omega)
  have hlater := h (steps + f (walk steps) + 1)
  rw [hsame] at hlater
  omega

namespace Looped

theorem parent (h : t.Looped x) (hp : t.parent? x = some p) : t.Looped p := by
  obtain ⟨q, hq, hu⟩ := h
  rw [hp] at hq
  cases hq
  cases hu.cases_parent with
  | inl heq => exact ⟨p, heq ▸ hp, .self⟩
  | inr habove =>
    obtain ⟨q, hq, hu⟩ := habove
    exact ⟨q, hq, (Under.of_parent hp).trans hu⟩

theorem child (h : t.Looped x) : ∃ c, t.parent? c = some x ∧ t.Looped c := by
  obtain ⟨p, hp, hu⟩ := h
  cases hu.cases_child with
  | inl heq => exact ⟨x, heq ▸ hp, p, hp, hu⟩
  | inr hbelow =>
    obtain ⟨c, hc, hu⟩ := hbelow
    exact ⟨c, hc, x, hc, hu.step hp⟩

theorem live (h : t.Looped x) : t.contains x := by
  obtain ⟨p, hp, _⟩ := h
  exact live_of_parent hp

theorem length_ancestorsWithin (h : t.Looped x) (m : Nat) : (t.ancestorsWithin m x).length = m := by
  induction m generalizing x with
  | zero => rfl
  | succ m ih =>
    obtain ⟨p, hp, _⟩ := id h
    simp [ancestorsWithin, hp, ih (h.parent hp)]

end Looped

/-- Every node is listed under its parent. -/
def Listed (t : Tree α) : Prop :=
  ∀ c p, t.parent? c = some p → c ∈ t.children p

theorem Forest.listed (h : t.Forest) : t.Listed :=
  fun _ _ => h.child_iff.mpr

theorem Looped.le_length_descendantsWithin (h : t.Looped x) (hl : t.Listed) (m : Nat) :
    m ≤ (t.descendantsWithin m x).length := by
  induction m generalizing x with
  | zero => exact Nat.zero_le _
  | succ m ih =>
    obtain ⟨c, hc, hloop⟩ := h.child
    have hpart := (List.sublist_flatten_of_mem
      (List.mem_map.mpr ⟨c, hl c x hc, rfl⟩ : t.descendantsWithin m c ∈ _)).length_le
    rw [← List.flatMap_def] at hpart
    simp only [descendantsWithin, h.live, ↓reduceIte, List.length_cons]
    have := ih hloop
    omega

theorem Looped.le_sizeOf_subtreeWithin (h : t.Looped x) (hl : t.Listed) (m : Nat) :
    m ≤ sizeOf (t.subtreeWithin m x) := by
  have hsome : ∀ m x, t.Looped x → ∃ r, t.subtreeWithin (m + 1) x = some r ∧ m ≤ sizeOf r := by
    intro m
    induction m with
    | zero =>
      intro x hx
      obtain ⟨s, hs⟩ := contains_iff.mp hx.live
      exact ⟨_, by simp only [subtreeWithin, hs]; rfl, Nat.zero_le _⟩
    | succ m ih =>
      intro x hx
      obtain ⟨s, hs⟩ := contains_iff.mp hx.live
      obtain ⟨c, hc, hloop⟩ := hx.child
      obtain ⟨r, hr, hsize⟩ := ih c hloop
      have hm : c ∈ s.children := by simpa [children, hs] using hl c x hc
      have hpart := List.sizeOf_lt_of_mem (List.mem_filterMap.mpr ⟨c, hm, hr⟩)
      refine ⟨_, by rw [subtreeWithin, hs], ?_⟩
      simp only [Rose.node.sizeOf_spec]
      omega
  cases m with
  | zero => exact Nat.zero_le _
  | succ m =>
    obtain ⟨r, hr, hsize⟩ := hsome m x h
    rw [hr, Option.some.sizeOf_spec]
    omega

theorem Looped.endless (h : t.Looped x) (hl : t.Listed) : t.Endless x where
  live := h.live
  looped := h
  up := not_endsBy_of_le List.length fun m => Nat.le_of_eq (h.length_ancestorsWithin m).symm
  down := not_endsBy_of_le List.length (h.le_length_descendantsWithin hl)
  subtree := not_endsBy_of_le sizeOf (h.le_sizeOf_subtreeWithin hl)

theorem Endless.not_walkable (h : t.Endless x) : ¬t.Walkable :=
  fun hw => hw.acyclic x h.looped

/-! Putting nodes at the end of another. -/

theorem parent?_append (hd : t.contains d) (hn : t.contains n) :
    (t.append d n).parent? x = if x = n then some d else t.parent? x := by
  simp only [append, hd, hn, Bool.and_self, ↓reduceIte]
  rw [parent?_modifyParent, contains_modifySlot, contains_detach, parent?_modifyChildren (· ++ [n]),
    parent?_detach]
  simp only [hn, and_true]
  split <;> rfl

theorem children_append (hd : t.contains d) (hn : t.contains n) :
    (t.append d n).children x = (t.detach n).children x ++ if x = d then [n] else [] := by
  simp only [append, hd, hn, Bool.and_self, ↓reduceIte]
  rw [children_modifyParent, children_modifyChildren (· ++ [n]), contains_detach]
  by_cases hx : x = d <;> simp [hx, hd]

theorem Listed.append (h : t.Listed) (d n : NodeId) : (t.append d n).Listed := by
  intro c p hp
  by_cases hlive : t.contains d ∧ t.contains n
  · rw [parent?_append hlive.1 hlive.2] at hp
    rw [children_append hlive.1 hlive.2]
    apply List.mem_append.mpr
    split at hp
    · rename_i hc
      cases hp
      simp [hc]
    · rename_i hc
      exact .inl (mem_children_detach.mpr ⟨h c p hp, fun _ => hc⟩)
  · rw [Forest.append_of_dead hlive] at hp ⊢
    exact h c p hp

/-- A path down to where a node is put is kept, unless it leads through that node. -/
theorem Under.append (hd : t.contains d) (hn : t.contains n) (hu : t.Under c x)
    (hfree : ∀ y p, t.Under c p → t.parent? y = some p → t.Under y x → y ≠ n) :
    (t.append d n).Under c x := by
  apply hu.congr
  intro y p _ hp hcp hyx
  rw [parent?_append hd hn, if_neg (hfree y p hcp hp hyx)]
  exact hp

/-- What stood under a node that is moved still does, or it is that node. -/
theorem Under.append_moved (hd : t.contains d) (hn : t.contains n) (hu : t.Under n x) :
    (t.append d n).Under n x := by
  induction hu with
  | self => exact .self
  | @step p y _ link ih =>
    by_cases hy : y = n
    · exact hy ▸ .self
    · apply ih.step
      rw [parent?_append hd hn, if_neg hy]
      exact link

/-- Putting a node under itself makes a loop. -/
theorem looped_append (hd : t.contains d) (hn : t.contains n) (hu : t.Under n d) :
    (t.append d n).Looped d := by
  have hlink : (t.append d n).parent? n = some d := by
    rw [parent?_append hd hn, if_pos rfl]
  exact Looped.parent ⟨d, hlink, hu.append_moved hd hn⟩ hlink

/-- A loop through a node stays, whatever is put at its end. -/
theorem Looped.append (h : t.Looped d) (n : NodeId) : (t.append d n).Looped d := by
  by_cases hn : t.contains n
  · by_cases hu : t.Under n d
    · exact looped_append h.live hn hu
    · obtain ⟨p, hp, hup⟩ := id h
      have hne : ∀ y, t.Under y p → y ≠ n := by
        intro y hy heq
        exact hu (heq ▸ hy.step hp)
      refine ⟨p, ?_, hup.append h.live hn fun y _ _ _ => hne y⟩
      rw [parent?_append h.live hn, if_neg (hne d hup)]
      exact hp
  · rwa [Forest.append_of_dead fun hlive => hn hlive.2]

/-- Puts nodes at the end of another, one after the other. -/
def appendAll (t : Tree α) (d : NodeId) (ids : List NodeId) : Tree α :=
  ids.foldl (fun t c => t.append d c) t

theorem Listed.appendAll (h : t.Listed) (d : NodeId) (ids : List NodeId) :
    (t.appendAll d ids).Listed := by
  induction ids generalizing t with
  | nil => exact h
  | cons i ids ih => exact ih (h.append d i)

theorem Looped.appendAll (h : t.Looped d) (ids : List NodeId) : (t.appendAll d ids).Looped d := by
  induction ids generalizing t with
  | nil => exact h
  | cons i ids ih => exact ih (h.append i)

theorem appendAll_of_dead (hd : ¬t.contains d) (ids : List NodeId) : t.appendAll d ids = t := by
  induction ids with
  | nil => rfl
  | cons i ids ih =>
    rw [appendAll, List.foldl_cons, Forest.append_of_dead fun hlive => hd hlive.1]
    exact ih

namespace Forest

/-- Putting a node that is not above it at the end of another changes nothing of what is above that. -/
theorem under_append (h : t.Forest) (hd : t.contains d) (hn : t.contains n) (hfree : ¬t.Under n d) :
    (t.append d n).Under c d ↔ t.Under c d := by
  constructor
  · intro hu
    have hlink : (t.append d n).parent? n = some d := by
      rw [parent?_append hd hn, if_pos rfl]
    apply hu.congr
    intro y p _ hp _ hyd
    rw [parent?_append hd hn, if_neg] at hp
    · exact hp
    · intro heq
      exact (h.append hfree).acyclic hlink (heq ▸ hyd)
  · intro hu
    apply hu.append hd hn
    intro y _ _ _ hyd heq
    exact hfree (heq ▸ hyd)

theorem appendAll (h : t.Forest) (hclear : t.contains d → ∀ c ∈ ids, ¬t.Under c d) :
    (t.appendAll d ids).Forest := by
  by_cases hd : t.contains d
  · replace hclear := hclear hd
    induction ids generalizing t with
    | nil => exact h
    | cons i ids ih =>
      have hi := hclear i List.mem_cons_self
      apply ih (h.append hi)
      · exact contains_append.trans hd
      · intro c hc
        by_cases hlive : t.contains i
        · rw [h.under_append hd hlive hi]
          exact hclear c (List.mem_cons_of_mem _ hc)
        · rw [append_of_dead fun hboth => hlive hboth.2]
          exact hclear c (List.mem_cons_of_mem _ hc)
  · rwa [appendAll_of_dead hd]

theorem looped_appendAll (h : t.Forest) (hd : t.contains d) (hc : c ∈ ids) (hu : t.Under c d) :
    (t.appendAll d ids).Looped d := by
  induction ids generalizing t with
  | nil => cases hc
  | cons i ids ih =>
    by_cases hi : t.Under i d
    · have hlive := h.top_live hi hd
      exact (looped_append hd hlive hi).appendAll ids
    · -- The node in question comes later, and nothing of what is above it has changed.
      have hc : c ∈ ids := by
        cases List.mem_cons.mp hc with
        | inl heq => exact absurd (heq ▸ hu) hi
        | inr hm => exact hm
      apply ih (h.append hi)
      · exact contains_append.trans hd
      · exact hc
      · by_cases hlive : t.contains i
        · exact (h.under_append hd hlive hi).mpr hu
        · rwa [append_of_dead fun hboth => hlive hboth.2]

/-- Nodes can be put at the end of another just if none of them stands at or above it. If one does, no walk
ends from where they are put. -/
theorem appendAll_cases (h : t.Forest) (d : NodeId) (ids : List NodeId) :
    ((t.contains d → ∀ c ∈ ids, ¬t.Under c d) ∧ (t.appendAll d ids).Forest) ∨
      (¬(t.contains d → ∀ c ∈ ids, ¬t.Under c d) ∧ (t.appendAll d ids).Endless d) := by
  by_cases hclear : t.contains d → ∀ c ∈ ids, ¬t.Under c d
  · exact .inl ⟨hclear, h.appendAll hclear⟩
  · have hbad := hclear
    simp only [Classical.not_imp, not_forall, not_not] at hbad
    obtain ⟨hd, c, hc, hu⟩ := hbad
    exact .inr ⟨hclear, (h.looped_appendAll hd hc hu).endless (h.listed.appendAll d ids)⟩

end Forest

end Montage.Tree
