import Montage.Proofs.Arena.Links

/-!
What is found above a node. Main statement: a search through the lineage of a node ends at the nearest
node at or above it for which there is something to be found.
-/

namespace Montage.Tree

variable {α β : Type} {t : Tree α} {P : NodeId → Prop} {f : NodeId → Option β} {a p x : NodeId}

/-- The nearest of the nodes at or above `x` that have a property. -/
structure Nearest (t : Tree α) (P : NodeId → Prop) (x a : NodeId) : Prop where
  above : t.Under a x
  has : P a
  nearest : ∀ {b}, t.Under b x → P b → t.Under b a

theorem Nearest.self (h : P x) : t.Nearest P x x := ⟨.self, h, fun hu _ => hu⟩

theorem Nearest.eq_self (h : t.Nearest P x a) (ht : t.Linked) (hx : P x) : a = x :=
  Nat.le_antisymm (ht.le_of_under h.above) (ht.le_of_under (h.nearest .self hx))

/-- A node without the property leaves the search to its parent. -/
theorem Nearest.of_parent (h : t.Nearest P p a) (hp : t.parent? x = some p) (hx : ¬P x) :
    t.Nearest P x a where
  above := h.above.step hp
  has := h.has
  nearest {b} hu hb := by
    refine h.nearest (hu.parent ?_ hp) hb
    rintro rfl
    exact hx hb

/-- How many live nodes are older than a node, which bounds how many stand above it. -/
def older (t : Tree α) (x : NodeId) : Nat :=
  (t.slots.entries.filter fun e => e.1 < x).length

theorem older_le (t : Tree α) (x : NodeId) : t.older x ≤ t.size :=
  List.length_filter_le ..

theorem older_lt (hp : t.contains p) (hlt : p < x) : t.older p < t.older x := by
  have hentry : ∃ s, (p, s) ∈ t.slots.entries := by
    obtain ⟨s, hs⟩ := contains_iff.mp hp
    exact ⟨s, Table.mem_entries.mpr hs⟩
  obtain ⟨s, hs⟩ := hentry
  have hsub : (t.slots.entries.filter fun e => e.1 < p) =
      (t.slots.entries.filter fun e => e.1 < x).filter fun e => e.1 < p := by
    rw [List.filter_filter]
    refine List.filter_congr fun e _ => ?_
    by_cases he : e.1 < p
    · simp [he, Nat.lt_trans he hlt]
    · simp [he]
  rw [older, hsub]
  refine List.length_filter_lt_length_iff_exists.mpr ⟨(p, s), ?_, by simp⟩
  exact List.mem_filter.mpr ⟨hs, by simpa using hlt⟩

/-- What a search above `x` should find: what the nearest node has that has something. -/
def Finds (t : Tree α) (f : NodeId → Option β) (x : NodeId) (found : Option β) : Prop :=
  (∃ a, t.Nearest (f · ≠ none) x a ∧ found = f a) ∨
    (∀ a, t.Under a x → f a = none) ∧ found = none

theorem Finds.of_root (hp : t.parent? x = none) : t.Finds f x (f x) := by
  cases hv : f x with
  | some v => exact .inl ⟨x, .self (by simp [hv]), hv.symm⟩
  | none => exact .inr ⟨fun a ha => (ha.eq_of_no_parent hp).symm ▸ hv, rfl⟩

theorem Finds.of_parent {found : Option β} (h : t.Finds f p found) (hp : t.parent? x = some p) :
    t.Finds f x ((f x).or found) := by
  cases hv : f x with
  | some v => exact .inl ⟨x, .self (by simp [hv]), hv.symm⟩
  | none =>
    rw [Option.none_or]
    refine h.imp (fun ⟨a, ha, hf⟩ => ⟨a, ha.of_parent hp (by simp [hv]), hf⟩) ?_
    rintro ⟨hall, hf⟩
    refine ⟨fun a ha => ?_, hf⟩
    by_cases hax : a = x
    · exact hax ▸ hv
    · exact hall a (ha.parent hax hp)

/-- Enough ancestors are looked at. -/
theorem finds_ancestorsWithin (h : t.Linked) {fuel : Nat} (hfuel : t.older x ≤ fuel) :
    t.Finds f x ((f x).or ((t.ancestorsWithin fuel x).findSome? f)) := by
  induction fuel generalizing x with
  | zero =>
    cases hp : t.parent? x with
    | none => simpa [ancestorsWithin] using Finds.of_root (f := f) hp
    | some p =>
      have := older_lt (h.parent_live hp) (h.ordered hp)
      omega
  | succ fuel ih =>
    cases hp : t.parent? x with
    | none => simpa [ancestorsWithin, hp] using Finds.of_root (f := f) hp
    | some p =>
      have := older_lt (h.parent_live hp) (h.ordered hp)
      have hsome := (ih (x := p) (by omega)).of_parent hp
      rw [ancestorsWithin, hp, List.findSome?_cons]
      cases hv : f p <;> simpa [hv] using hsome

theorem finds_lineage (h : t.Linked) (f : NodeId → Option β) (x : NodeId) :
    t.Finds f x ((t.lineage x).findSome? f) := by
  have hfinds := finds_ancestorsWithin (f := f) h (older_le t x)
  rw [lineage, ancestors, List.findSome?_cons]
  cases hv : f x <;> simpa [hv] using hfinds

end Montage.Tree
