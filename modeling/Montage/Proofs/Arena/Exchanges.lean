import Montage.Proofs.Arena.Forest

/-!
Any handles in the place of a node. Main statement: putting them there changes all or nothing just if the
node has no parent, or is not among them and they are distinct live nodes; a node that is to replace itself
is taken out, though nothing takes its place.
-/

namespace Montage.Tree

variable {α : Type} {t : Tree α} {ids : List NodeId} {p q : NodeId}

/-- A change that tells whether it happened, and happened in full or not at all: the tree is as before, or
it is a forest again in which whatever is listed is live and listed once, and the node stands alone. -/
structure AllOrNothing (t : Tree α) (p : NodeId) (r : Tree α × Bool) : Prop where
  nothing : r.2 = false → r.1 = t
  all : r.2 = true → r.1.Forest ∧ r.1.parent? p = none ∧
    ∀ x, ∀ c ∈ r.1.children x, r.1.contains c ∧ (r.1.children x).count c = 1

namespace Forest

/-- In a forest, whatever is listed is live and listed once. -/
theorem listed_once {c x : NodeId} (h : t.Forest) (hc : c ∈ t.children x) :
    t.contains c ∧ (t.children x).count c = 1 := by
  have hlink := h.child_iff.mp hc
  constructor
  · exact live_of_parent hlink
  · rw [h.once, if_pos hlink]

/-- A node among those that are to replace it loses its place before they get there. -/
theorem replace_of_mem (h : t.Forest) (hp : t.parent? p = some q) (hids : p ∈ ids) :
    t.replace p ids = (ids.foldl Tree.detach t, false) := by
  have hgone : p ∉ (ids.foldl Tree.detach t).children q := by
    rw [h.children_foldl_detach]
    simp [hids]
  simp [Tree.replace, hp, hgone]

theorem parent?_replace_of_mem (h : t.Forest) (hp : t.parent? p = some q) (hids : p ∈ ids) :
    (t.replace p ids).1.parent? p = none := by
  rw [h.replace_of_mem hp hids, parent?_foldl_detach, if_pos hids]

/-- The handles are listed in the place of the node, whatever they stand for. -/
theorem infix_replace (h : t.Forest) (hp : t.parent? p = some q) (hids : p ∉ ids) :
    ids <:+: (t.replace p ids).1.children q := by
  obtain ⟨before, after, hsplit, hbefore⟩ := List.eq_append_cons_of_mem (h.child_iff.mpr hp)
  have hchildren := ((h.wired.replace_of_parent hp hids).2).children q
  rw [if_pos rfl, h.children_foldl_detach, hsplit, List.filter_append,
    List.filter_cons_of_pos (by simpa using hids), putAt_append] at hchildren
  · rw [hchildren]
    exact ⟨_, _, rfl⟩
  · intro hm
    exact hbefore (List.mem_of_mem_filter hm)

/-- What is listed stands there once only if the handles are distinct live nodes. -/
theorem distinct_live_of_replace (h : t.Forest) (hp : t.parent? p = some q) (hids : p ∉ ids)
    (hlisted : ∀ x, ∀ c ∈ (t.replace p ids).1.children x,
      (t.replace p ids).1.contains c ∧ ((t.replace p ids).1.children x).count c = 1) :
    ids.Nodup ∧ ∀ c ∈ ids, t.contains c := by
  have hpart := h.infix_replace hp hids
  constructor
  · apply List.nodup_iff_count_le_one.mpr
    intro c
    by_cases hc : c ∈ ids
    · have hone := (hlisted q c (hpart.subset hc)).2
      have hle := hpart.sublist.count_le c
      omega
    · simp [List.count_eq_zero_of_not_mem hc]
  · intro c hc
    have hlive := (hlisted q c (hpart.subset hc)).1
    rwa [contains_replace] at hlive

end Forest

/-- Replacing a node by any handles, none of which stands above it, succeeds just if it has a parent and is
not among them. It is all or nothing just if the node has no parent, or is not among the handles and they
are distinct live nodes: a node that is to replace itself is detached with the others, and nothing is put
in its place; a handle that is dead or repeated is listed as it is. -/
theorem replace_all_or_nothing_iff (h : t.Forest) (habove : ∀ c ∈ ids, t.Under c p → c = p) :
    ((t.replace p ids).2 = true ↔ t.parent? p ≠ none ∧ p ∉ ids) ∧
    (t.parent? p ≠ none → p ∈ ids → (t.replace p ids).1 = ids.foldl Tree.detach t) ∧
    (t.AllOrNothing p (t.replace p ids) ↔
      t.parent? p = none ∨ p ∉ ids ∧ ids.Nodup ∧ ∀ c ∈ ids, t.contains c) := by
  cases hp : t.parent? p with
  | none =>
    rw [replace_of_no_parent hp]
    refine ⟨by simp, by simp, ?_⟩
    have hsame : t.AllOrNothing p (t, false) := ⟨fun _ => rfl, nofun⟩
    simp [hsame]
  | some q =>
    by_cases hids : p ∈ ids
    · have hself := h.replace_of_mem hp hids
      refine ⟨by simp [hself, hids], fun _ _ => congrArg Prod.fst hself, ?_⟩
      -- The node has lost its parent, though nothing is said to have happened.
      have hchanged : ¬t.AllOrNothing p (t.replace p ids) := by
        intro hall
        have hsame := hall.nothing (congrArg Prod.snd hself)
        have halone := h.parent?_replace_of_mem hp hids
        rw [hsame, hp] at halone
        cases halone
      simp [hchanged, hids]
    · obtain ⟨hfound, hdone⟩ := h.wired.replace_of_parent hp hids
      refine ⟨by simp [hfound, hids], fun _ hm => absurd hm hids, ?_⟩
      constructor
      · intro hall
        have hdistinct := h.distinct_live_of_replace hp hids (hall.all hfound).2.2
        exact .inr ⟨hids, hdistinct⟩
      · intro hgood
        have hgood := (hgood.resolve_left (by simp)).2
        have hfree : ∀ c ∈ ids, ¬t.Under c p := fun c hc hu => hids (habove c hc hu ▸ hc)
        have hforest := h.replace (p := p) ⟨hgood.1, hgood.2, hfree⟩
        refine ⟨fun hfalse => ?_, fun _ => ⟨hforest, ?_, fun x c => hforest.listed_once⟩⟩
        · rw [hfound] at hfalse
          cases hfalse
        · rw [hdone.parent, if_pos rfl]

/-- A node under a parent. -/
def childOfOne : Tree Unit :=
  [.create (), .create (), .append 1 2].foldl Edit.on .empty

theorem replace_child_by_itself :
    childOfOne.Forest ∧ (∀ c ∈ [2], childOfOne.Under c 2 → c = 2) ∧
      (childOfOne.replace 2 [2]).2 = false ∧ childOfOne.children 1 = [2] ∧
      (childOfOne.replace 2 [2]).1.children 1 = [] ∧
      ¬childOfOne.AllOrNothing 2 (childOfOne.replace 2 [2]) := by
  have hroot : ∀ {t : Tree Unit} {c p : NodeId}, t.parent? p = none → c ≠ p → ¬t.Under c p :=
    fun hp hne hu => hne (hu.eq_of_no_parent hp)
  have hforest : childOfOne.Forest :=
    ((Forest.empty.create ()).create ()).append (d := 1) (n := 2) (hroot rfl nofun)
  have habove : ∀ c ∈ [2], childOfOne.Under c 2 → c = 2 := by simp
  have hiff := replace_all_or_nothing_iff hforest habove
  refine ⟨hforest, habove, by decide, by decide, by decide, fun hall => ?_⟩
  have hgood := hiff.2.2.mp hall
  simp [show childOfOne.parent? 2 = some 1 by decide] at hgood

end Montage.Tree
