import Montage.Arena.Tree

/-!
Trees whose links agree: a node is a child of its parent, and a live child names its parent. Main
statements: two nodes above a third stand one above the other, and a node above another is older.
-/

namespace Montage.Table

theorem mem_entries {β : Type} {t : Table β} {k : NodeId} {v : β} :
    (k, v) ∈ t.entries ↔ t.get? k = some v := by
  have hfind : ∀ es : List (NodeId × β), (es.map Prod.fst).Nodup →
      ((k, v) ∈ es ↔ find k es = some v) := by
    intro es hes
    induction es with
    | nil => simp [find]
    | cons e es ih =>
      obtain ⟨j, u⟩ := e
      obtain ⟨hj, hes⟩ := List.nodup_cons.mp hes
      by_cases hk : k = j
      · subst hk
        have hnot : ∀ v, (k, v) ∉ es := fun v hm => hj (List.mem_map.mpr ⟨_, hm, rfl⟩)
        simp [find, hnot, eq_comm]
      · simp [find, hk, ih hes]
  exact hfind t.entries t.nodup

end Montage.Table

namespace Montage.Tree

variable {α : Type}

/-- `n` is the second node or stands above it. -/
inductive Under (t : Tree α) (n : NodeId) : NodeId → Prop
  | self : Under t n n
  | step {p c : NodeId} (above : Under t n p) (link : t.parent? c = some p) : Under t n c

/-- Parent links and child lists agree, and a parent is older than its children. A list of children
may still name nodes that are gone, since a node can be put in a place after its death. -/
structure Linked (t : Tree α) : Prop where
  live_lt : ∀ {x}, t.contains x → x < t.next
  listed_lt : ∀ {x c}, c ∈ t.children x → c < t.next
  listed : ∀ {x c}, t.parent? c = some x → c ∈ t.children x
  link : ∀ {x c}, c ∈ t.children x → t.contains c → t.parent? c = some x
  once : ∀ {x c}, t.contains c → (t.children x).count c ≤ 1
  ordered : ∀ {x c}, t.parent? c = some x → x < c

/-- Parent links and child lists agree, and no node stands under one of its children. -/
structure Wired (t : Tree α) : Prop where
  listed : ∀ {x c}, t.parent? c = some x → c ∈ t.children x
  link : ∀ {x c}, c ∈ t.children x → t.contains c → t.parent? c = some x
  acyclic : ∀ {x c}, t.parent? c = some x → ¬t.Under c x

/-- Whatever is listed is there, but for some that are gone. -/
def FullBut (t : Tree α) (gone : NodeId → Prop) : Prop :=
  ∀ x c, c ∈ t.children x → t.contains c ∨ gone c

variable {t t' : Tree α} {a b n p x y : NodeId}

theorem contains_iff : t.contains x ↔ ∃ s, t.slots.get? x = some s := by
  simp [contains, Table.contains, Option.isSome_iff_exists]

theorem parent?_eq_some :
    t.parent? x = some p ↔ ∃ s, t.slots.get? x = some s ∧ s.parent = some p := by
  simp [parent?, Option.bind_eq_some_iff]

theorem live_of_parent (h : t.parent? x = some p) : t.contains x := by
  obtain ⟨s, hs, _⟩ := parent?_eq_some.mp h
  exact contains_iff.mpr ⟨s, hs⟩

theorem parent?_of_dead (h : ¬t.contains x) : t.parent? x = none := by
  cases hp : t.parent? x with
  | none => rfl
  | some p => exact absurd (live_of_parent hp) h

theorem live_of_listed (h : x ∈ t.children n) : t.contains n := by
  cases hs : t.slots.get? n with
  | none => simp [children, hs] at h
  | some s => exact contains_iff.mpr ⟨s, hs⟩

theorem children_of_dead (h : ¬t.contains x) : t.children x = [] := by
  apply List.eq_nil_iff_forall_not_mem.mpr
  intro c hc
  exact h (live_of_listed hc)

theorem get?_eq_some_live {v : α} (h : t.get? x = some v) : t.contains x := by
  cases hs : t.slots.get? x with
  | none => simp [get?, hs] at h
  | some s => exact contains_iff.mpr ⟨s, hs⟩

theorem Wired.parent_live (h : t.Wired) (hp : t.parent? x = some p) : t.contains p :=
  live_of_listed (h.listed hp)

theorem Linked.parent_live (h : t.Linked) (hp : t.parent? x = some p) : t.contains p :=
  live_of_listed (h.listed hp)

/-! Standing under a node. -/

namespace Under

theorem trans (h : t.Under a b) (h' : t.Under b x) : t.Under a x := by
  induction h' with
  | self => exact h
  | step _ link ih => exact ih.step link

theorem of_parent (h : t.parent? x = some p) : t.Under p x :=
  Under.self.step h

/-- A node under another is that node, or its parent is under it. -/
theorem cases_parent (h : t.Under a x) : a = x ∨ ∃ p, t.parent? x = some p ∧ t.Under a p := by
  cases h with
  | self => exact .inl rfl
  | step above link => exact .inr ⟨_, link, above⟩

theorem parent (h : t.Under a x) (hne : a ≠ x) (hp : t.parent? x = some p) : t.Under a p := by
  rcases h.cases_parent with he | ⟨q, hq, hu⟩
  · exact absurd he hne
  · rw [hp] at hq
    exact Option.some.inj hq ▸ hu

theorem eq_of_no_parent (h : t.Under a x) (hp : t.parent? x = none) : a = x := by
  rcases h.cases_parent with he | ⟨q, hq, _⟩
  · exact he
  · simp [hp] at hq

theorem top_live (h : t.Under a x) (ht : t.Linked) (hx : t.contains x) : t.contains a := by
  induction h with
  | self => exact hx
  | step _ link ih => exact ih (ht.parent_live link)

/-- Of two nodes above a third, one stands above the other. -/
theorem comparable (h : t.Under a x) (h' : t.Under b x) : t.Under a b ∨ t.Under b a := by
  induction h with
  | self => exact .inr h'
  | @step p c above link ih =>
    rcases h'.cases_parent with rfl | ⟨q, hq, hu⟩
    · exact .inl (above.step link)
    · rw [link] at hq
      exact ih (Option.some.inj hq ▸ hu)

/-- A path to a node that keeps its links is still a path. -/
theorem congr (h : t.Under a x)
    (hl : ∀ y p, t.Under a y → t.parent? y = some p → t.Under a p → t.Under y x →
      t'.parent? y = some p) : t'.Under a x := by
  induction h with
  | self => exact .self
  | step above link ih =>
    refine .step (ih fun y p hy hp hap hyx => ?_) (hl _ _ (above.step link) link above .self)
    exact hl y p hy hp hap (hyx.step link)

end Under

theorem Linked.le_of_under (h : t.Linked) (hu : t.Under a x) : a ≤ x := by
  induction hu with
  | self => exact Nat.le_refl a
  | step _ link ih => exact Nat.le_trans ih (Nat.le_of_lt (h.ordered link))

theorem Linked.under_lt (h : t.Linked) (ha : a < t.next) (hu : t.Under a x) : x < t.next := by
  rcases hu.cases_parent with rfl | ⟨p, hp, _⟩
  · exact ha
  · exact h.live_lt (live_of_parent hp)

/-- Above every node there is one without a parent. -/
theorem Linked.exists_top (h : t.Linked) (x : NodeId) :
    ∃ a, t.Under a x ∧ t.parent? a = none := by
  induction x using Nat.strongRecOn with
  | ind x ih =>
    cases hp : t.parent? x with
    | none => exact ⟨x, .self, hp⟩
    | some p =>
      obtain ⟨a, hu, ha⟩ := ih p (h.ordered hp)
      exact ⟨a, hu.step hp, ha⟩

theorem Linked.not_under_parent (h : t.Linked) (hp : t.parent? x = some p) : ¬t.Under x p :=
  fun hu => Nat.not_lt.mpr (h.le_of_under hu) (h.ordered hp)

theorem Linked.wired (h : t.Linked) : t.Wired :=
  ⟨h.listed, h.link, h.not_under_parent⟩

end Montage.Tree
