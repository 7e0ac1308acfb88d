import Mathlib.Data.List.Basic
import Mathlib.Data.List.Nodup
import Montage.Proofs.Arena.Replacement

/-!
Trees under any sequence of operations. Main statement: as long as no node is put under itself, parents and
children agree after each operation and nothing stands above itself; handles are given out once; removing a
node takes away its subtree and nothing else, and replacing one puts the others in its place.
-/

namespace Montage.Tree

variable {α : Type} {t t' : Tree α} {ids : List NodeId} {a c d n p q x y : NodeId}

/-- A node stands once in the list of its parent and in no other list, and no node stands under one of its
children. -/
structure Forest (t : Tree α) : Prop where
  live_lt : ∀ {x}, t.contains x → x < t.next
  once : ∀ p c, (t.children p).count c = if t.parent? c = some p then 1 else 0
  acyclic : ∀ {c p}, t.parent? c = some p → ¬t.Under c p

namespace Forest

theorem child_iff (h : t.Forest) : c ∈ t.children p ↔ t.parent? c = some p := by
  rw [← List.count_pos_iff, h.once]
  split <;> simp_all

theorem wired (h : t.Forest) : t.Wired :=
  ⟨h.child_iff.mpr, fun hc _ => h.child_iff.mp hc, h.acyclic⟩

theorem nodup (h : t.Forest) (p : NodeId) : (t.children p).Nodup := by
  rw [List.nodup_iff_count_le_one]
  intro c
  rw [h.once]
  split <;> omega

theorem parent_live (h : t.Forest) (hp : t.parent? c = some p) : t.contains p :=
  h.wired.parent_live hp

theorem not_live_next (h : t.Forest) : ¬t.contains t.next :=
  fun hc => Nat.lt_irrefl _ (h.live_lt hc)

theorem empty : (Tree.empty : Tree α).Forest :=
  ⟨nofun, fun _ _ => rfl, nofun⟩

end Forest

/-! Nodes that move to another parent. -/

/-- A path uses no new link, or it comes down to the new parent and goes on below a moved node. -/
theorem Under.of_moved {S : NodeId → Prop} (hu : t'.Under a x)
    (hlinks : ∀ {c p}, t'.parent? c = some p → t.parent? c = some p ∨ S c ∧ p = q) :
    t.Under a x ∨ t.Under a q ∧ ∃ r, S r ∧ t.Under r x := by
  induction hu with
  | self => exact .inl .self
  | @step p c _ link ih =>
    rcases hlinks link with hold | ⟨hc, rfl⟩
    · rcases ih with ih | ⟨ha, r, hr, ih⟩
      · exact .inl (ih.step hold)
      · exact .inr ⟨ha, r, hr, ih.step hold⟩
    · rcases ih with ih | ⟨ha, _⟩
      · exact .inr ⟨ih, c, hc, .self⟩
      · exact .inr ⟨ha, c, hc, .self⟩

/-- Nodes may move to where they are not above. -/
theorem Forest.acyclic_of_moved {S : NodeId → Prop} (h : t.Forest)
    (hlinks : ∀ {c p}, t'.parent? c = some p → t.parent? c = some p ∨ S c ∧ p = q)
    (hfree : ∀ r, S r → ¬t.Under r q) : ∀ {c p}, t'.parent? c = some p → ¬t'.Under c p := by
  intro c p link hu
  rcases hlinks link with hold | ⟨hc, rfl⟩
  · rcases hu.of_moved hlinks with hu | ⟨hcq, r, hr, hrp⟩
    · exact h.acyclic hold hu
    · exact hfree r hr ((hrp.step hold).trans hcq)
  · rcases hu.of_moved hlinks with hu | ⟨hcp, _⟩
    · exact hfree c hc hu
    · exact hfree c hc hcp

/-- A change that gives no node another parent, though it may take parents away. -/
theorem Forest.acyclic_of_kept (h : t.Forest)
    (hlinks : ∀ {c p}, t'.parent? c = some p → t.parent? c = some p) :
    ∀ {c p}, t'.parent? c = some p → ¬t'.Under c p :=
  h.acyclic_of_moved (S := fun _ => False) (q := 0) (fun hp => .inl (hlinks hp)) nofun

/-! One operation. -/

namespace Forest

theorem create (h : t.Forest) (v : α) : (t.create v).1.Forest where
  live_lt {x} hx := by
    rcases contains_create.mp hx with hx | rfl
    · exact Nat.lt_succ_of_lt (h.live_lt hx)
    · exact Nat.lt_succ_self _
  once p c := by
    have hnext : t.parent? t.next = none := parent?_of_dead h.not_live_next
    have hbelow : t.parent? c ≠ some t.next := fun hc => h.not_live_next (h.parent_live hc)
    rw [children_create, parent?_create]
    by_cases hp : p = t.next
    · subst hp
      by_cases hc : c = t.next <;> simp [hc, hbelow]
    · rw [if_neg hp, h.once]
      by_cases hc : c = t.next
      · rw [hc, if_pos rfl, hnext]
      · rw [if_neg hc]
  acyclic := h.acyclic_of_kept fun {c p} hp => by
    rw [parent?_create] at hp
    split at hp
    · cases hp
    · exact hp

theorem children_detach (h : t.Forest) : (t.detach n).children x = (t.children x).filter (· != n) := by
  rw [Tree.children_detach]
  split
  · rfl
  · rename_i hn
    refine (List.filter_eq_self.mpr fun c hc => ?_).symm
    have hne : c ≠ n := by
      rintro rfl
      exact hn (h.child_iff.mp hc)
    simpa using hne

theorem detach (h : t.Forest) (n : NodeId) : (t.detach n).Forest where
  live_lt hx := by
    rw [next_detach]
    exact h.live_lt (contains_detach ▸ hx)
  once p c := by
    rw [h.children_detach, parent?_detach]
    by_cases hc : c = n
    · subst hc
      rw [if_pos rfl, if_neg nofun]
      exact List.count_eq_zero_of_not_mem fun hm => by simp at hm
    · rw [if_neg hc, ← h.once]
      exact List.count_filter (by simpa using hc)
  acyclic := (h.wired.detach n).acyclic

/-- A live node becomes the last child of another. -/
theorem append_live (h : t.Forest) (hd : t.contains d) (hn : t.contains n) :
    (∀ x, (t.append d n).parent? x = if x = n then some d else t.parent? x) ∧
      ∀ x, (t.append d n).children x =
        (t.children x).filter (· != n) ++ if x = d then [n] else [] := by
  have hdl : (t.detach n).contains d := by rwa [contains_detach]
  have hnl : (t.detach n).contains n := by rwa [contains_detach]
  have happend : t.append d n = ((t.detach n).modifySlot d
      fun s => { s with children := s.children ++ [n] }).modifySlot n
        fun s => { s with parent := some d } := by
    simp [append, hd, hn]
  constructor
  · intro x
    rw [happend, parent?_modifyParent, contains_modifySlot, parent?_modifyChildren (· ++ [n]),
      parent?_detach]
    simp only [hnl, and_true]
    split <;> rfl
  · intro x
    rw [happend, children_modifyParent, children_modifyChildren (· ++ [n]), h.children_detach]
    by_cases hx : x = d <;> simp [hx, hdl]

theorem append_of_dead (hdead : ¬(t.contains d ∧ t.contains n)) : t.append d n = t :=
  if_neg (by simpa using hdead)

theorem append (h : t.Forest) (hfree : ¬t.Under n d) : (t.append d n).Forest := by
  by_cases hlive : t.contains d ∧ t.contains n
  · obtain ⟨hparent, hchildren⟩ := h.append_live hlive.1 hlive.2
    constructor
    case live_lt =>
      intro x hx
      rw [next_append]
      exact h.live_lt (contains_append ▸ hx)
    case once =>
      intro p c
      have hdetached := (h.detach n).once p c
      rw [h.children_detach, parent?_detach] at hdetached
      rw [hchildren, hparent, List.count_append, hdetached]
      grind
    case acyclic =>
      refine h.acyclic_of_moved (S := (· = n)) (q := d) (fun {c p} hp => ?_) fun r hr => hr ▸ hfree
      rw [hparent] at hp
      split at hp
      · exact .inr ⟨‹_›, (Option.some.inj hp).symm⟩
      · exact .inl hp
  · rwa [append_of_dead hlive]

end Forest

/-- Exactly the subtree of a node is gone, and the node from the list of its parent. -/
structure Felled (n : NodeId) (t t' : Tree α) (removed : List NodeId) : Prop where
  told : removed.Perm (t.descendants n)
  nodup : removed.Nodup
  below : ∀ x, x ∈ removed ↔ t.contains x ∧ t.Under n x
  live : ∀ x, t'.contains x ↔ t.contains x ∧ x ∉ removed
  item : ∀ x, x ∉ removed → t'.get? x = t.get? x
  parent : ∀ x, x ∉ removed → t'.parent? x = t.parent? x
  children : ∀ x, x ∉ removed → t'.children x = (t.children x).filter (· != n)

/-- Nodes stand in order where another one stood, among those of its siblings that are not of them. -/
structure Exchanged (p q : NodeId) (ids : List NodeId) (t t' : Tree α) : Prop where
  live : ∀ x, t'.contains x = t.contains x
  item : ∀ x, t'.get? x = t.get? x
  parent : ∀ x, t'.parent? x = if x = p then none else if x ∈ ids then some q else t.parent? x
  place : ∃ before after, t.children q = before ++ p :: after ∧
    t'.children q = before.filter (· ∉ ids) ++ ids ++ after.filter (· ∉ ids)
  others : ∀ x, x ≠ q → t'.children x = (t.children x).filter (· ∉ ids)

/-- Each of several nodes is live and not at or above the node that they replace. -/
structure Replaces (t : Tree α) (p : NodeId) (ids : List NodeId) : Prop where
  distinct : ids.Nodup
  live : ∀ c ∈ ids, t.contains c
  free : ∀ c ∈ ids, ¬t.Under c p

namespace Forest

theorem children_foldl_detach (h : t.Forest) :
    (ids.foldl Tree.detach t).children x = (t.children x).filter (· ∉ ids) := by
  rw [Tree.children_foldl_detach]
  refine List.filter_congr fun c hc => ?_
  simp [h.child_iff.mp hc]

theorem exchanged (h : t.Forest) (hr : t.Replaces p ids) (hp : t.parent? p = some q) :
    (t.replace p ids).2 = true ∧ Exchanged p q ids t (t.replace p ids).1 := by
  have hpids : p ∉ ids := fun hm => hr.free p hm .self
  obtain ⟨hfound, hdone⟩ := h.wired.replace_of_parent hp hpids
  refine ⟨hfound, hdone.live, hdone.item, ?_, ?_, ?_⟩
  · intro x
    rw [hdone.parent]
    by_cases hx : x ∈ ids
    · simp [hx, hr.live x hx]
    · simp [hx]
  · obtain ⟨before, after, hsplit, hbefore⟩ := List.eq_append_cons_of_mem (h.child_iff.mpr hp)
    refine ⟨before, after, hsplit, ?_⟩
    rw [hdone.children, if_pos rfl, h.children_foldl_detach, hsplit, List.filter_append,
      List.filter_cons_of_pos (by simpa using hpids), putAt_append]
    exact fun hm => hbefore (List.mem_of_mem_filter hm)
  · intro x hx
    rw [hdone.children, if_neg hx, h.children_foldl_detach]

theorem count_filter_not_mem (l : List NodeId) :
    (l.filter (· ∉ ids)).count c = if c ∈ ids then 0 else l.count c := by
  split
  · rename_i hc
    exact List.count_eq_zero_of_not_mem fun hm => by simp [hc] at hm
  · rename_i hc
    exact List.count_filter (by simpa using hc)

theorem replace (h : t.Forest) (hr : t.Replaces p ids) : (t.replace p ids).1.Forest := by
  cases hp : t.parent? p with
  | none => rwa [replace_of_no_parent hp]
  | some q =>
    obtain ⟨-, hdone⟩ := h.exchanged hr hp
    have hpids : p ∉ ids := fun hm => hr.free p hm .self
    constructor
    case live_lt =>
      intro x hx
      rw [((h.wired.replace_of_parent hp hpids).2).next]
      exact h.live_lt (hdone.live x ▸ hx)
    case once =>
      intro x c
      have hbefore := h.once x c
      rw [hdone.parent]
      by_cases hx : x = q
      · subst hx
        obtain ⟨before, after, hsplit, hnew⟩ := hdone.place
        rw [hsplit, List.count_append, List.count_cons] at hbefore
        rw [hnew, List.count_append, List.count_append, count_filter_not_mem, count_filter_not_mem]
        by_cases hids : c ∈ ids
        · have hone := List.count_eq_one_of_mem hr.distinct hids
          have hne : c ≠ p := fun he => hpids (he ▸ hids)
          simp [hids, hone, hne]
        · have hnone := List.count_eq_zero_of_not_mem hids
          by_cases hc : c = p
          · subst hc
            have hone : before.count c + (after.count c + 1) = 1 := by simpa [hp] using hbefore
            have hzero : before.count c = 0 ∧ after.count c = 0 := by omega
            simp [hids, hnone, hzero]
          · simpa [hids, hnone, hc, Ne.symm hc] using hbefore
      · rw [hdone.others x hx, count_filter_not_mem, hbefore]
        have hqx : q ≠ x := Ne.symm hx
        by_cases hc : c = p
        · subst hc
          simp [hp, hqx]
        · by_cases hids : c ∈ ids <;> simp [hc, hids, hqx]
    case acyclic =>
      refine h.acyclic_of_moved (S := (· ∈ ids)) (q := q) (fun {c x} hc => ?_) fun r hm hu =>
        hr.free r hm (hu.step hp)
      rw [hdone.parent] at hc
      split at hc
      · cases hc
      · split at hc
        · exact .inr ⟨‹_›, (Option.some.inj hc).symm⟩
        · exact .inl hc

end Forest

/-! Walking down a subtree. -/

/-- The number of live nodes under a node. -/
noncomputable def below (t : Tree α) (n : NodeId) : Nat :=
  open Classical in (t.slots.entries.filter fun e => t.Under n e.1).length

theorem below_le (t : Tree α) (n : NodeId) : t.below n ≤ t.size :=
  List.length_filter_le ..

namespace Forest

theorem below_lt (h : t.Forest) (hc : t.parent? c = some n) : t.below c < t.below n := by
  classical
  obtain ⟨s, hs⟩ := contains_iff.mp (h.parent_live hc)
  have hsub : (t.slots.entries.filter fun e => t.Under c e.1) =
      (t.slots.entries.filter fun e => t.Under n e.1).filter fun e => t.Under c e.1 := by
    rw [List.filter_filter]
    refine List.filter_congr fun e _ => ?_
    by_cases he : t.Under c e.1
    · simp [he, (Under.of_parent hc).trans he]
    · simp [he]
  rw [below, below, hsub]
  refine List.length_filter_lt_length_iff_exists.mpr ⟨(n, s), ?_, by simpa using h.acyclic hc⟩
  exact List.mem_filter.mpr ⟨Table.mem_entries.mpr hs, by simpa using Under.self⟩

theorem below_pos (hn : t.contains n) : 0 < t.below n := by
  classical
  obtain ⟨s, hs⟩ := contains_iff.mp hn
  refine List.length_pos_of_mem (List.mem_filter.mpr ⟨Table.mem_entries.mpr hs, ?_⟩)
  simpa using Under.self

end Forest

theorem Under.live (hu : t.Under n x) (hn : t.contains n) : t.contains x := by
  rcases hu.cases_parent with rfl | ⟨p, hp, _⟩
  · exact hn
  · exact live_of_parent hp

/-- What stands under a node is that node, or stands under one of its children. -/
theorem Under.cases_child (hu : t.Under n x) : n = x ∨ ∃ c, t.parent? c = some n ∧ t.Under c x := by
  induction hu with
  | self => exact .inl rfl
  | @step p x _ link ih =>
    rcases ih with rfl | ⟨c, hc, hu⟩
    · exact .inr ⟨x, link, .self⟩
    · exact .inr ⟨c, hc, hu.step link⟩

namespace Forest

/-- As many steps are enough as there are nodes below. -/
theorem mem_descendantsWithin (h : t.Forest) {fuel : Nat} (hfuel : t.below n ≤ fuel) :
    x ∈ t.descendantsWithin fuel n ↔ t.contains n ∧ t.Under n x := by
  induction fuel generalizing n with
  | zero =>
    refine iff_of_false nofun fun ⟨hn, _⟩ => ?_
    exact Nat.not_lt.mpr hfuel (below_pos hn)
  | succ fuel ih =>
    rw [descendantsWithin]
    by_cases hn : t.contains n
    · have hchild : ∀ c ∈ t.children n, x ∈ t.descendantsWithin fuel c ↔ t.Under c x := by
        intro c hc
        have hlink := h.child_iff.mp hc
        have hless := h.below_lt hlink
        rw [ih (by omega), and_iff_right (live_of_parent hlink)]
      rw [if_pos hn, List.mem_cons, List.mem_flatMap, and_iff_right hn]
      constructor
      · rintro (rfl | ⟨c, hc, hx⟩)
        · exact .self
        · exact (Under.of_parent (h.child_iff.mp hc)).trans ((hchild c hc).mp hx)
      · intro hu
        rcases hu.cases_child with rfl | ⟨c, hc, hu⟩
        · exact .inl rfl
        · have hm := h.child_iff.mpr hc
          exact .inr ⟨c, hm, (hchild c hm).mpr hu⟩
    · simp [hn]

theorem mem_descendants (h : t.Forest) : x ∈ t.descendants n ↔ t.contains n ∧ t.Under n x :=
  h.mem_descendantsWithin (below_le t n)

theorem under_of_descendantsWithin (h : t.Forest) {fuel : Nat} (hx : x ∈ t.descendantsWithin fuel n) :
    t.Under n x := by
  induction fuel generalizing n with
  | zero => cases hx
  | succ fuel ih =>
    rw [descendantsWithin] at hx
    split at hx
    · rcases List.mem_cons.mp hx with rfl | hx
      · exact .self
      · obtain ⟨c, hc, hx⟩ := List.mem_flatMap.mp hx
        exact (Under.of_parent (h.child_iff.mp hc)).trans (ih hx)
    · cases hx

/-- Nothing stands under two children of a node. -/
theorem child_unique (h : t.Forest) (hc : t.parent? c = some n) (hd : t.parent? d = some n)
    (hcx : t.Under c x) (hdx : t.Under d x) : c = d := by
  have hsame : ∀ {a b : NodeId}, t.parent? a = some n → t.parent? b = some n → t.Under a b → a = b := by
    intro a b ha hb hu
    rcases hu.cases_parent with he | ⟨p, hp, hap⟩
    · exact he
    · rw [hb] at hp
      exact absurd (Option.some.inj hp ▸ hap) (h.acyclic ha)
  rcases hcx.comparable hdx with hu | hu
  · exact hsame hc hd hu
  · exact (hsame hd hc hu).symm

theorem nodup_descendantsWithin (h : t.Forest) (fuel : Nat) (n : NodeId) :
    (t.descendantsWithin fuel n).Nodup := by
  induction fuel generalizing n with
  | zero => exact List.nodup_nil
  | succ fuel ih =>
    rw [descendantsWithin]
    split
    · refine List.nodup_cons.mpr ⟨fun hm => ?_, ?_⟩
      · obtain ⟨c, hc, hx⟩ := List.mem_flatMap.mp hm
        exact h.acyclic (h.child_iff.mp hc) (h.under_of_descendantsWithin hx)
      · refine List.nodup_flatMap.mpr ⟨fun c _ => ih c, ?_⟩
        refine (h.nodup n).imp_of_mem fun {c d} hc hd hne => ?_
        intro x hcx hdx
        exact hne (h.child_unique (h.child_iff.mp hc) (h.child_iff.mp hd)
          (h.under_of_descendantsWithin hcx) (h.under_of_descendantsWithin hdx))
    · exact List.nodup_nil

/-- No node is among its ancestors. -/
theorem not_mem_ancestors (h : t.Forest) (x : NodeId) : x ∉ t.ancestors x := by
  have habove : ∀ fuel x, ∀ a ∈ t.ancestorsWithin fuel x, ∃ p, t.parent? x = some p ∧ t.Under a p := by
    intro fuel
    induction fuel with
    | zero => exact fun x => nofun
    | succ fuel ih =>
      intro x a ha
      rw [ancestorsWithin] at ha
      split at ha
      · cases ha
      · rename_i p hp
        rcases List.mem_cons.mp ha with rfl | ha
        · exact ⟨a, hp, .self⟩
        · obtain ⟨q, hq, hu⟩ := ih p a ha
          exact ⟨p, hp, hu.step hq⟩
  intro hm
  obtain ⟨p, hp, hu⟩ := habove _ x x hm
  exact h.acyclic hp hu

end Forest

/-! Removing a subtree. -/

theorem nodup_removeAll (slots : Table (Slot α)) (stack : List NodeId) :
    (removeAll slots stack).2.Nodup := by
  induction slots, stack using removeAll.induct with
  | case1 slots => simp
  | case2 slots id rest h ih =>
    rw [removeAll_dead h]
    exact ih
  | case3 slots id rest s h ih =>
    rw [removeAll_live h]
    refine List.nodup_cons.mpr ⟨fun hm => ?_, ih⟩
    exact (mem_removeAll.mp hm).1 (by simp [Table.get?_erase])

theorem get?_of_dead (h : ¬t.contains x) : t.get? x = none := by
  cases hv : t.get? x with
  | none => rfl
  | some v => exact absurd (get?_eq_some_live hv) h

theorem remove_of_dead (h : ¬t.contains n) : t.remove n = (t, []) := by
  have hslot : t.slots.get? n = none := not_not.mp (contains_iff_slot.not.mp h)
  simp [remove, detach_of_no_parent (parent?_of_dead h), removeAll_dead hslot]

namespace Forest

theorem felled (h : t.Forest) (hn : t.contains n) : Felled n t (t.remove n).1 (t.remove n).2 := by
  have hmem : ∀ x, x ∈ (t.remove n).2 ↔ t.contains x ∧ t.Under n x := fun x => h.wired.mem_remove
  have hlive : ∀ x, (t.remove n).1.contains x ↔ t.contains x ∧ x ∉ (t.remove n).2 := by
    intro x
    rw [h.wired.contains_remove, hmem]
    tauto
  have hnodup : (t.remove n).2.Nodup := nodup_removeAll _ _
  -- of a dead node nothing is known before or after
  have hdead : ∀ x, x ∉ (t.remove n).2 → ¬(t.remove n).1.contains x → ¬t.contains x :=
    fun x hx hgone hl => hgone ((hlive x).mpr ⟨hl, hx⟩)
  constructor
  case told =>
    refine (List.perm_ext_iff_of_nodup hnodup (h.nodup_descendantsWithin _ _)).mpr fun x => ?_
    rw [hmem, ← descendants, h.mem_descendants, and_iff_right hn]
    exact ⟨And.right, fun hu => ⟨hu.live hn, hu⟩⟩
  case nodup => exact hnodup
  case below => exact hmem
  case live => exact hlive
  case item =>
    intro x hx
    by_cases hl : (t.remove n).1.contains x
    · exact get?_remove hl
    · rw [get?_of_dead hl, get?_of_dead (hdead x hx hl)]
  case parent =>
    intro x hx
    by_cases hl : (t.remove n).1.contains x
    · exact h.wired.parent?_remove hl
    · rw [parent?_of_dead hl, parent?_of_dead (hdead x hx hl)]
  case children =>
    intro x hx
    by_cases hl : (t.remove n).1.contains x
    · rw [children_remove hl, ← Tree.children_detach, h.children_detach]
    · rw [children_of_dead hl, children_of_dead (hdead x hx hl), List.filter_nil]

theorem remove (h : t.Forest) (n : NodeId) : (t.remove n).1.Forest := by
  by_cases hn : t.contains n
  · have hf := h.felled hn
    have hgone : ∀ {x}, x ∈ (t.remove n).2 → ¬(t.remove n).1.contains x :=
      fun {x} hx hl => ((hf.live x).mp hl).2 hx
    have hkept : ∀ {c p}, (t.remove n).1.parent? c = some p → t.parent? c = some p :=
      fun {c p} hp => hf.parent c (fun hm => hgone hm (live_of_parent hp)) ▸ hp
    constructor
    case live_lt =>
      intro x hx
      rw [show (t.remove n).1.next = t.next from next_detach]
      exact h.live_lt ((hf.live x).mp hx).1
    case once =>
      intro p c
      by_cases hp : p ∈ (t.remove n).2
      · have hlink : (t.remove n).1.parent? c ≠ some p := by
          intro hc
          have hunder := ((hf.below p).mp hp).2.step (hkept hc)
          exact hgone ((hf.below c).mpr ⟨live_of_parent (hkept hc), hunder⟩) (live_of_parent hc)
        rw [children_of_dead (hgone hp), if_neg hlink, List.count_nil]
      · rw [hf.children p hp]
        by_cases hc : c ∈ (t.remove n).2
        · rw [parent?_of_dead (hgone hc), if_neg nofun]
          refine List.count_eq_zero_of_not_mem fun hm => ?_
          obtain ⟨hm, hne⟩ := List.mem_filter.mp hm
          have hlink := h.child_iff.mp hm
          have hunder := ((hf.below c).mp hc).2.parent (Ne.symm (by simpa using hne)) hlink
          exact hp ((hf.below p).mpr ⟨h.parent_live hlink, hunder⟩)
        · have hne : c ≠ n := by
            rintro rfl
            exact hc ((hf.below c).mpr ⟨hn, .self⟩)
          rw [hf.parent c hc, ← h.once]
          exact List.count_filter (by simpa using hne)
    case acyclic => exact h.acyclic_of_kept hkept
  · rwa [remove_of_dead hn]

end Forest

/-! Any sequence of operations. -/

/-- An operation on a tree. -/
inductive Edit (α : Type) where
  | create (v : α)
  | append (parent child : NodeId)
  | detach (id : NodeId)
  | replace (target : NodeId) (ids : List NodeId)
  | remove (id : NodeId)

namespace Edit

def on (t : Tree α) : Edit α → Tree α
  | create v => (t.create v).1
  | append parent child => t.append parent child
  | detach id => t.detach id
  | replace target ids => (t.replace target ids).1
  | remove id => (t.remove id).1

/-- No node is put under itself, and what replaces a node are distinct live nodes. Other handles may be
dead. -/
def Fits (t : Tree α) : Edit α → Prop
  | append parent child => ¬t.Under child parent
  | replace target ids => t.Replaces target ids
  | _ => True

/-- The handle that an operation gives out. -/
def given (t : Tree α) : Edit α → List NodeId
  | create v => [(t.create v).2]
  | _ => []

end Edit

/-- A tree that operations make out of nothing, and the handles given out on the way. -/
inductive Made : Tree α → List NodeId → Prop
  | empty : Made .empty []
  | edit {t : Tree α} {given : List NodeId} (before : Made t given) (e : Edit α) (fits : e.Fits t) :
      Made (e.on t) (given ++ e.given t)

variable {given : List NodeId}

theorem Forest.edit (h : t.Forest) {e : Edit α} (he : e.Fits t) : (e.on t).Forest := by
  cases e with
  | create v => exact h.create v
  | append parent child => exact h.append he
  | detach id => exact h.detach id
  | replace target ids => exact h.replace he
  | remove id => exact h.remove id

theorem Forest.next_edit (h : t.Forest) {e : Edit α} (he : e.Fits t) :
    (e.on t).next = t.next + (e.given t).length := by
  cases e with
  | create v => rfl
  | append parent child => exact next_append
  | detach id => exact next_detach
  | replace target ids =>
    cases hp : t.parent? target with
    | none => simp [Edit.on, Edit.given, replace_of_no_parent hp]
    | some q => exact (h.wired.replace_of_parent hp fun hm => he.free target hm .self).2.next
  | remove id => exact next_detach

namespace Made

theorem forest (h : Made t given) : t.Forest := by
  induction h with
  | empty => exact .empty
  | edit _ e fits ih => exact ih.edit fits

theorem next (h : Made t given) : t.next = given.length + 1 := by
  induction h with
  | empty => rfl
  | edit before e fits ih =>
    rw [before.forest.next_edit fits, ih, List.length_append]
    exact Nat.add_right_comm ..

/-- Handles are given out in order. -/
theorem given_eq (h : Made t given) : given = List.range' 1 given.length := by
  induction h with
  | empty => rfl
  | @edit t given before e fits ih =>
    cases e with
    | create v =>
      have hid : (t.create v).2 = 1 + 1 * given.length := by
        rw [Nat.one_mul, Nat.add_comm]
        exact before.next
      rw [Edit.given, hid, List.length_append, List.length_singleton, List.range'_concat, ← ih]
    | _ => simpa [Edit.given] using ih

end Made

/-- Parents and children agree and are live, nothing stands above itself, and no handle was given out twice;
removing a live node takes away just its subtree, and replacing an attached one moves the others to its
place. -/
structure Woven (t : Tree α) (given : List NodeId) : Prop where
  once : ∀ p c, (t.children p).count c = if t.parent? c = some p then 1 else 0
  live : ∀ p c, t.parent? c = some p → t.contains p ∧ t.contains c
  acyclic : ∀ x, x ∉ t.ancestors x ∧ ∀ p, t.parent? x = some p → ¬t.Under x p
  distinct : given.Nodup
  bounded : given.length < UInt64.size - 1 → t.next < UInt64.size
  removal : ∀ n, t.contains n → Felled n t (t.remove n).1 (t.remove n).2
  replacement : ∀ p ids, t.Replaces p ids →
    (t.parent? p = none ∧ t.replace p ids = (t, false)) ∨
      ∃ q, t.parent? p = some q ∧ (t.replace p ids).2 = true ∧ Exchanged p q ids t (t.replace p ids).1

theorem woven_of_made (h : Made t given) : Woven t given where
  once := h.forest.once
  live _ _ hp := ⟨h.forest.parent_live hp, live_of_parent hp⟩
  acyclic x := ⟨h.forest.not_mem_ancestors x, fun _ hp => h.forest.acyclic hp⟩
  distinct := h.given_eq ▸ List.nodup_range'
  bounded hlt := by
    rw [h.next]
    exact Nat.add_lt_of_lt_sub hlt
  removal _ hn := h.forest.felled hn
  replacement p ids hr := by
    cases hp : t.parent? p with
    | none => exact .inl ⟨rfl, replace_of_no_parent hp⟩
    | some q => exact .inr ⟨q, rfl, h.forest.exchanged hr hp⟩

/-- A node with three children, of which the first gives its place to the last and to its own child. -/
def reparented : Tree Unit :=
  [.create (), .create (), .create (), .create (), .create (), .append 1 2, .append 1 3, .append 1 4,
    .append 2 5, .detach 9, .replace 2 [4, 5]].foldl Edit.on .empty

theorem woven_of_reparented :
    Made reparented [1, 2, 3, 4, 5] ∧ Woven reparented [1, 2, 3, 4, 5] ∧
      reparented.children 1 = [4, 5, 3] := by
  have hroot : ∀ {t : Tree Unit} {c p : NodeId}, t.parent? p = none → c ≠ p → ¬t.Under c p :=
    fun hp hne hu => hne (hu.eq_of_no_parent hp)
  have hchild : ∀ {t : Tree Unit} {c : NodeId}, t.parent? 2 = some 1 → t.parent? 1 = none → c ≠ 2 →
      c ≠ 1 → ¬t.Under c 2 :=
    fun hp hp' hne hne' hu => hroot hp' hne' (hu.parent hne hp)
  have hmade : Made reparented [1, 2, 3, 4, 5] := by
    have hnodes := ((((Made.empty.edit (.create ()) trivial).edit (.create ()) trivial).edit (.create ())
      trivial).edit (.create ()) trivial).edit (.create ()) trivial
    have hkids := (((hnodes.edit (.append 1 2) (hroot rfl nofun)).edit (.append 1 3)
      (hroot rfl nofun)).edit (.append 1 4) (hroot rfl nofun)).edit (.append 2 5)
        (hchild rfl rfl nofun nofun)
    refine (hkids.edit (.detach 9) trivial).edit (.replace 2 [4, 5]) ⟨by decide, ?_, ?_⟩
    · intro c hc
      rcases List.mem_pair.mp hc with rfl | rfl <;> rfl
    · intro c hc
      rcases List.mem_pair.mp hc with rfl | rfl <;> exact hchild rfl rfl nofun nofun
  exact ⟨hmade, woven_of_made hmade, by decide⟩

end Montage.Tree
