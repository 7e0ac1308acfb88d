import Mathlib.Algebra.BigOperators.Group.Finset.Basic
import Montage.Proofs.Render.Courses

/-!
How the tasks under way will end. A forecast tells of tasks of interest what their jobs end with and in how
many turns. Main statement: whatever is done next, a forecast that is right stays right, with one turn
less to go after a step.
-/

namespace Montage

variable {F α : Type} [Medium α]

/-- What each task will end with and in how many turns, the epoch in which those that it waits for will
have ended, and what it will have painted by then. -/
structure Forecast (α : Type) where
  due : TaskId → Yield α
  turns : TaskId → Nat
  since : TaskId → Nat
  draft : TaskId → List (Rose α)

namespace Forecast

/-- A forecast after a task went on: it has drawn what it did, and waits for what is below. -/
def goes (f : Forecast α) (id first : TaskId) (epoch last n : Nat) (draft : List (Rose α))
    (below : List (Done F α)) : Forecast α where
  due i := if i < first then f.due i else (below[i - first]?).elim (f.due i) Done.yield
  turns i :=
    if i = id then n else if i < first then f.turns i else (below[i - first]?).elim 0 Done.turns
  since i := if i = id then last else if i < first then f.since i else epoch
  draft i := if i = id then draft else if i < first then f.draft i else []

variable {f : Forecast α} {id first i k : TaskId} {epoch last n : Nat} {draft : List (Rose α)}
  {below : List (Done F α)} {b : Done F α}

theorem goes_own (hid : id < first) :
    (f.goes id first epoch last n draft below).due id = f.due id ∧
      (f.goes id first epoch last n draft below).turns id = n ∧
      (f.goes id first epoch last n draft below).since id = last ∧
      (f.goes id first epoch last n draft below).draft id = draft :=
  ⟨if_pos hid, if_pos rfl, if_pos rfl, if_pos rfl⟩

theorem goes_due (hi : i < first) : (f.goes id first epoch last n draft below).due i = f.due i :=
  if_pos hi

theorem goes_other (hi : i < first) (hid : i ≠ id) :
    (f.goes id first epoch last n draft below).due i = f.due i ∧
      (f.goes id first epoch last n draft below).turns i = f.turns i ∧
      (f.goes id first epoch last n draft below).since i = f.since i ∧
      (f.goes id first epoch last n draft below).draft i = f.draft i :=
  ⟨if_pos hi, (if_neg hid).trans (if_pos hi), (if_neg hid).trans (if_pos hi),
    (if_neg hid).trans (if_pos hi)⟩

theorem goes_new (hid : id < first) (hb : below[k]? = some b) :
    (f.goes id first epoch last n draft below).due (first + k) = b.yield ∧
      (f.goes id first epoch last n draft below).turns (first + k) = b.turns ∧
      (f.goes id first epoch last n draft below).since (first + k) = epoch ∧
      (f.goes id first epoch last n draft below).draft (first + k) = [] := by
  have hne : first + k ≠ id := Nat.ne_of_gt (Nat.lt_add_right k hid)
  have hge : ¬first + k < first := Nat.not_lt.mpr (Nat.le_add_right first k)
  simp only [goes, hge, hne, if_false, Nat.add_sub_cancel_left, hb, Option.elim_some, and_self]

theorem goes_below {x : Nat} :
    (∃ i < below.length, ((f.goes id first epoch last n draft below).due (first + i)).epoch = x) ↔
      ∃ b ∈ below, b.yield.epoch = x := by
  have hdue : ∀ i b, below[i]? = some b →
      (f.goes id first epoch last n draft below).due (first + i) = b.yield := by
    intro i b hb
    have hge : ¬first + i < first := Nat.not_lt.mpr (Nat.le_add_right first i)
    simp only [goes, hge, if_false, Nat.add_sub_cancel_left, hb, Option.elim_some]
  constructor
  · rintro ⟨i, hi, hx⟩
    rw [hdue i _ (List.getElem?_eq_getElem hi)] at hx
    exact ⟨_, List.getElem_mem hi, hx⟩
  · rintro ⟨b, hb, hx⟩
    obtain ⟨i, hi⟩ := List.mem_iff_getElem?.mp hb
    exact ⟨i, (List.getElem?_eq_some_iff.mp hi).1, (hdue i b hi).symm ▸ hx⟩

theorem sum_goes_new (hid : id < first) : ∑ i ∈ Finset.range below.length,
    (f.goes id first epoch last n draft below).turns (first + i) = (below.map Done.turns).sum := by
  have hsum : ∀ below : List (Done F α), ∑ i ∈ Finset.range below.length,
      (below[i]?).elim 0 Done.turns = (below.map Done.turns).sum := by
    intro below
    induction below with
    | nil => rfl
    | cons b below ih =>
      rw [List.length_cons, Finset.sum_range_succ', List.map_cons, List.sum_cons, Nat.add_comm]
      exact congrArg (b.turns + ·) ih
  rw [← hsum]
  refine Finset.sum_congr rfl fun i hi => ?_
  have hb := List.getElem?_eq_getElem (Finset.mem_range.mp hi)
  rw [(goes_new hid hb).2.1, hb]
  rfl

end Forecast

/-- The job of a new task is one of those below. -/
theorem Done.of_works {below : List (Done F α)} {works : List (Work F α)} {i : Nat} {k : Work F α}
    (h : below.map Done.job = works.map (Work.job [])) (hk : works[i]? = some k) :
    ∃ b, below[i]? = some b ∧ b.job = k.job [] := by
  have hjob : (below.map Done.job)[i]? = some (k.job []) := by
    rw [h, List.getElem?_map, hk]
    rfl
  rw [List.getElem?_map] at hjob
  exact Option.map_eq_some_iff.mp hjob

/-- A task of interest: it has one of these numbers, or works for one that has. -/
def Task.IsOf (t : Task F α) (I : TaskId → Prop) : Prop :=
  ∃ i, I i ∧ t.isWithin i

namespace Task.IsOf

variable {I : TaskId → Prop} {t u : Task F α}

theorem of_all (hI : ∀ i, I i) (t : Task F α) : t.IsOf I :=
  ⟨t.id, hI _, isWithin_iff.mpr (.inl rfl)⟩

theorem congr (h : t.IsOf I) (hid : u.id = t.id) (howners : u.owners = t.owners) : u.IsOf I := by
  obtain ⟨i, hi, hin⟩ := h
  exact ⟨i, hi, (isWithin_congr hid howners).mpr hin⟩

/-- Who works for a task of interest is of interest. -/
theorem below (h : t.IsOf I) (howners : u.owners = t.id :: t.owners) : u.IsOf I := by
  obtain ⟨i, hi, hin⟩ := h
  exact ⟨i, hi, isWithin_iff.mpr (.inr (howners ▸ mem_owners_below.mpr hin))⟩

/-- Who works for a task is of interest only if that task is, or if it has one of the numbers. -/
theorem above (h : u.IsOf I) (howners : u.owners = t.id :: t.owners) (hnot : ¬I u.id) : t.IsOf I := by
  obtain ⟨i, hi, hin⟩ := h
  rcases isWithin_iff.mp hin with rfl | hin
  · exact absurd hi hnot
  · rw [howners] at hin
    exact ⟨i, hi, mem_owners_below.mp hin⟩

/-- Who works for a task of interest at some remove is of interest. -/
theorem of_owner {w : World F α} (h : w.Roster) (ht : t ∈ w.tasks) (hu : u ∈ w.tasks)
    (hof : t.IsOf I) (hin : t.id ∈ u.owners) : u.IsOf I := by
  obtain ⟨v, hv, hid, hsuffix⟩ := h.suffix hu hin
  obtain rfl := h.id_inj hv ht hid
  obtain ⟨i, hi, hwithin⟩ := hof
  exact ⟨i, hi, isWithin_iff.mpr (.inr (hsuffix.subset (mem_owners_below.mpr hwithin)))⟩

end Task.IsOf

/-! Jobs that wait for a gate. -/

namespace Ends

variable {s : Setup F α} {registry : Registry F} {c : Clock} {job : Job F α} {k n : Nat} {y : Yield α}

/-- An epoch in which a job has no turn does not count. -/
theorem skip (h : Ends s registry c job (k + 1) y n)
    (hnone : ∀ opened, c.Allows k opened → job.turn s registry opened = none) :
    Ends s registry c job k y n := by
  cases h with
  | ends turn => exact .ends (turn.skip hnone)
  | goes below turn done latest rest => exact .goes below (turn.skip hnone) done latest rest

theorem later (h : Ends s registry c job k y n)
    (hnone : ∀ opened, c.Allows k opened → job.turn s registry opened = none) :
    Ends s registry c job (k + 1) y n := by
  cases h with
  | ends turn => exact .ends (turn.later hnone)
  | goes below turn done latest rest => exact .goes below (turn.later hnone) done latest rest

end Ends

namespace World

variable {s : Setup F α} {registry : Registry F} {c : Clock} {w w' : World F α} {t u : Task F α}
  {work : Work F α} {works : List (Work F α)} {f : Forecast α} {id : TaskId}
  {due due' : TaskId → Yield α} {below : List (Done F α)} {x : Nat} {I : TaskId → Prop}

/-- The epoch, and those in which the tasks that one waits for end. -/
def awaited (w : World F α) (c : Clock) (due : TaskId → Yield α) (id : TaskId) : Set Nat :=
  {x | x = c.epoch w.opened ∨ ∃ u ∈ w.tasks, u.owner? = some id ∧ (due u.id).epoch = x}

/-- What a forecast tells of a task comes true. -/
structure Foreseen (s : Setup F α) (registry : Registry F) (c : Clock) (f : Forecast α) (w : World F α)
    (t : Task F α) : Prop where
  since : IsGreatest (w.awaited c f.due t.id) (f.since t.id)
  ends : Ends s registry c (t.work.job (f.draft t.id)) (f.since t.id) (f.due t.id) (f.turns t.id)

/-- All turns that are still to be taken. -/
def turnsLeft (w : World F α) (f : Forecast α) : Nat :=
  ∑ id ∈ (w.tasks.map Task.id).toFinset, f.turns id

omit [Medium α] in
theorem isGreatest_epoch {k : Nat} : IsGreatest {x | x = k} k :=
  ⟨rfl, fun _ hx => Nat.le_of_eq hx⟩

theorem awaited_of_alone (hc : w.hasChildren id = false) :
    w.awaited c due id = {x | x = c.epoch w.opened} := by
  ext x
  refine or_iff_left ?_
  rintro ⟨u, hu, ho, _⟩
  have hany : w.hasChildren id = true := List.any_eq_true.mpr ⟨u, hu, beq_iff_eq.mpr ho⟩
  rw [hc] at hany
  cases hany

theorem Foreseen.of_eq {k n : Nat} {y : Yield α} {draft : List (Rose α)} (hsince : f.since t.id = k)
    (hdue : f.due t.id = y) (hturns : f.turns t.id = n) (hdraft : f.draft t.id = draft)
    (since : IsGreatest (w.awaited c f.due t.id) k)
    (ends : Ends s registry c (t.work.job draft) k y n) : Foreseen s registry c f w t where
  since := hsince ▸ since
  ends := by
    rw [hsince, hdue, hturns, hdraft]
    exact ends

theorem awaited_congr (hdue : ∀ u ∈ w.tasks, due' u.id = due u.id) :
    w.awaited c due' id = w.awaited c due id := by
  ext x
  refine or_congr .rfl (exists_congr fun u => and_congr_right fun hu => ?_)
  rw [hdue u hu]

theorem Foreseen.since_of_alone (h : Foreseen s registry c f w t) (hc : w.hasChildren t.id = false) :
    f.since t.id = c.epoch w.opened := by
  have hsince := h.since
  rw [awaited_of_alone hc] at hsince
  exact hsince.unique isGreatest_epoch

/-! A task goes on. -/

section Going

variable (hm : Moved w t work works w') (hr : Roster w) (ht : t ∈ w.tasks)
  (hopened : w'.opened = w.opened) (hdue : ∀ i < w.nextTask, due' i = due i)
include hm hr ht hopened

include hdue in
/-- Who waited for others waits for the same. -/
theorem awaited_other (hid : id ≠ t.id) : w'.awaited c due' id = w.awaited c due id := by
  ext x
  refine or_congr (by rw [hopened]) ⟨?_, ?_⟩
  · rintro ⟨u, hu, ho, hx⟩
    rcases (hm.mem hr ht).mp hu with ⟨hu, _⟩ | rfl | hu
    · exact ⟨u, hu, ho, by rw [← hdue _ (hr.id_lt hu), hx]⟩
    · exact ⟨t, ht, ho, by rw [← hdue _ (hr.id_lt ht), hx]⟩
    · obtain ⟨_, _, _, howners, _⟩ := mem_number.mp hu
      rw [Task.owner?, howners] at ho
      exact absurd (Option.some.inj ho).symm hid
  · rintro ⟨u, hu, ho, hx⟩
    have hx : (due' u.id).epoch = x := by rw [hdue _ (hr.id_lt hu), hx]
    by_cases hut : u.id = t.id
    · rw [hr.id_inj hu ht hut] at ho hx
      exact ⟨_, (hm.mem hr ht).mpr (.inr (.inl rfl)), ho, hx⟩
    · exact ⟨u, (hm.mem hr ht).mpr (.inl ⟨hu, hut⟩), ho, hx⟩

/-- The task itself waits for the new tasks. -/
theorem awaited_own (hc : w.hasChildren t.id = false) : w'.awaited c due' t.id =
    {x | x = c.epoch w.opened ∨ ∃ i < works.length, (due' (w.nextTask + i)).epoch = x} := by
  have hchild : ∀ {u : Task F α}, u ∈ w.tasks → u.owner? ≠ some t.id := by
    intro u hu ho
    have hany : w.hasChildren t.id = true := List.any_eq_true.mpr ⟨u, hu, beq_iff_eq.mpr ho⟩
    rw [hc] at hany
    cases hany
  ext x
  refine or_congr (by rw [hopened]) ⟨?_, ?_⟩
  · rintro ⟨u, hu, ho, hx⟩
    rcases (hm.mem hr ht).mp hu with ⟨hu, _⟩ | rfl | hu
    · exact absurd ho (hchild hu)
    · have ho : t.owner? = some t.id := ho
      exact absurd ho (hchild ht)
    · obtain ⟨i, hi, hid, _⟩ := mem_number.mp hu
      exact ⟨i, (List.getElem?_eq_some_iff.mp hi).1, hid ▸ hx⟩
  · rintro ⟨i, hi, hx⟩
    obtain ⟨u, hu, hid, howners, _⟩ := hm.exists_new hr ht (List.getElem?_eq_getElem hi)
    exact ⟨u, hu, by rw [Task.owner?, howners]; rfl, hid ▸ hx⟩

/-- New tasks wait for nothing. -/
theorem awaited_new (hid : w.nextTask ≤ id) : w'.awaited c due' id = {x | x = c.epoch w.opened} := by
  rw [← hopened]
  refine awaited_of_alone (Bool.eq_false_iff.mpr fun hany => ?_)
  obtain ⟨u, hu, ho⟩ := List.any_eq_true.mp hany
  have ho : u.owner? = some id := beq_iff_eq.mp ho
  have hold : ∀ {v : Task F α}, v ∈ w.tasks → v.owner? ≠ some id := by
    intro v hv ho
    obtain ⟨o, os, hos⟩ := List.exists_cons_of_ne_nil (l := v.owners) fun hnil => by
      rw [Task.owner?, hnil] at ho
      cases ho
    obtain ⟨v', hv', hvid, _⟩ := hr.owned hv hos
    rw [Task.owner?, hos] at ho
    have hlt := hr.id_lt hv'
    rw [hvid, Option.some.inj ho] at hlt
    exact Nat.not_lt.mpr hid hlt
  rcases (hm.mem hr ht).mp hu with ⟨hu, _⟩ | rfl | hu
  · exact hold hu ho
  · exact hold ht ho
  · obtain ⟨_, _, _, howners, _⟩ := mem_number.mp hu
    rw [Task.owner?, howners] at ho
    exact Nat.not_lt.mpr hid (Option.some.inj ho ▸ hr.id_lt ht)

omit hopened in
/-- The tasks go on under their numbers, and there are new ones. -/
theorem mem_ids_of_moved {i : TaskId} : (∃ u ∈ w'.tasks, u.id = i) ↔
    (∃ u ∈ w.tasks, u.id = i) ∨ ∃ k < works.length, w.nextTask + k = i := by
  constructor
  · rintro ⟨u, hu, rfl⟩
    rcases (hm.mem hr ht).mp hu with ⟨hu, _⟩ | rfl | hu
    · exact .inl ⟨u, hu, rfl⟩
    · exact .inl ⟨t, ht, rfl⟩
    · obtain ⟨k, hk, hid, _⟩ := mem_number.mp hu
      exact .inr ⟨k, (List.getElem?_eq_some_iff.mp hk).1, hid.symm⟩
  · rintro (⟨u, hu, rfl⟩ | ⟨k, hk, rfl⟩)
    · by_cases hid : u.id = t.id
      · exact ⟨_, (hm.mem hr ht).mpr (.inr (.inl rfl)), hid.symm⟩
      · exact ⟨u, (hm.mem hr ht).mpr (.inl ⟨hu, hid⟩), rfl⟩
    · obtain ⟨u, hu, hid, _⟩ := hm.exists_new hr ht (List.getElem?_eq_getElem hk)
      exact ⟨u, hu, hid⟩

/-- If those new tasks that are of interest end as the jobs below, and the task itself, if it is of
interest, ends from there on as it would have, then what was forecast stays true. -/
theorem Foreseen.went (h : ∀ u ∈ w.tasks, u.IsOf I → u.id ≠ t.id → Foreseen s registry c f w u)
    (hc : w.hasChildren t.id = false) {last n : Nat} {draft : List (Rose α)}
    (hjobs : below.map Done.job = works.map (Work.job []))
    (done : ∀ k b, below[k]? = some b → t.IsOf I ∨ I (w.nextTask + k) →
      Ends s registry c b.job (c.epoch w.opened) b.yield b.turns)
    (latest : t.IsOf I → IsGreatest {x | x = c.epoch w.opened ∨ ∃ b ∈ below, b.yield.epoch = x} last)
    (rest : t.IsOf I → Ends s registry c (work.job draft) last (f.due t.id) n) :
    ∀ u ∈ w'.tasks, u.IsOf I → Foreseen s registry c
      (f.goes t.id w.nextTask (c.epoch w.opened) last n draft below) w' u := by
  have hlt := hr.id_lt ht
  intro u hu hof
  rcases (hm.mem hr ht).mp hu with ⟨hu, hid⟩ | rfl | hu
  · obtain ⟨hdue, hturns, hsince, hdraft⟩ := Forecast.goes_other (f := f) (hr.id_lt hu) hid
    refine .of_eq hsince hdue hturns hdraft ?_ (h u hu hof hid).ends
    rw [awaited_other hm hr ht hopened (fun i hi => Forecast.goes_due hi) hid]
    exact (h u hu hof hid).since
  · have hof : t.IsOf I := hof.congr rfl rfl
    obtain ⟨hdue, hturns, hsince, hdraft⟩ := Forecast.goes_own (f := f) hlt
    refine .of_eq hsince hdue hturns hdraft ?_ (rest hof)
    have hlength : below.length = works.length := by simpa using congrArg List.length hjobs
    rw [awaited_own hm hr ht hopened hc, ← hlength]
    simp only [Forecast.goes_below]
    exact latest hof
  · obtain ⟨i, hi, hid, howners, _⟩ := mem_number.mp hu
    obtain ⟨b, hb, hjob⟩ := Done.of_works hjobs hi
    obtain ⟨hdue, hturns, hsince, hdraft⟩ := Forecast.goes_new (f := f) hlt hb
    rw [← hid] at hdue hturns hsince hdraft
    refine .of_eq hsince hdue hturns hdraft ?_ (hjob ▸ done i b hb ?_)
    · rw [hid, awaited_new hm hr ht hopened (Nat.le_add_right _ _)]
      exact isGreatest_epoch
    · refine or_iff_not_imp_right.mpr fun hnot => hof.above howners ?_
      rw [hid]
      exact hnot

omit hopened in
/-- Who is of interest after another task went on was there before, and is as it was. -/
theorem mem_of_other (hnot : ¬t.IsOf I) (hI : ∀ i, I i → i < w.nextTask) {u : Task F α}
    (hu : u ∈ w'.tasks) (hof : u.IsOf I) : u ∈ w.tasks ∧ u.id ≠ t.id := by
  rcases (hm.mem hr ht).mp hu with hu | rfl | hu
  · exact hu
  · exact absurd (hof.congr rfl rfl) hnot
  · obtain ⟨i, _, hid, howners, _⟩ := mem_number.mp hu
    refine absurd (hof.above howners fun hi => ?_) hnot
    exact Nat.not_lt.mpr (hid ▸ Nat.le_add_right _ _) (hI _ hi)

/-- What was forecast stays true when a task goes on that is of no interest. -/
theorem Foreseen.other (h : ∀ u ∈ w.tasks, u.IsOf I → Foreseen s registry c f w u)
    (hnot : ¬t.IsOf I) (hI : ∀ i, I i → i < w.nextTask) :
    ∀ u ∈ w'.tasks, u.IsOf I → Foreseen s registry c f w' u := by
  intro u hu hof
  obtain ⟨hu, hid⟩ := mem_of_other hm hr ht hnot hI hu hof
  refine ⟨?_, (h u hu hof).ends⟩
  rw [awaited_other hm hr ht hopened (fun _ _ => rfl) hid]
  exact (h u hu hof).since

omit hopened in
/-- A step leaves one turn less. -/
theorem turnsLeft_went {last n : Nat} {draft : List (Rose α)}
    (hlength : below.length = works.length)
    (hturns : f.turns t.id = 1 + (below.map Done.turns).sum + n) :
    w.turnsLeft f =
      1 + w'.turnsLeft (f.goes t.id w.nextTask (c.epoch w.opened) last n draft below) := by
  have hlt := hr.id_lt ht
  have hmem : t.id ∈ (w.tasks.map Task.id).toFinset :=
    List.mem_toFinset.mpr (List.mem_map_of_mem ht)
  have hold : ∀ i ∈ (w.tasks.map Task.id).toFinset, i < w.nextTask := by
    intro i hi
    obtain ⟨u, hu, rfl⟩ := List.mem_map.mp (List.mem_toFinset.mp hi)
    exact hr.id_lt hu
  have hids : (w'.tasks.map Task.id).toFinset = (w.tasks.map Task.id).toFinset ∪
      (Finset.range works.length).image (w.nextTask + ·) := by
    ext i
    simp only [Finset.mem_union, List.mem_toFinset, List.mem_map, Finset.mem_image, Finset.mem_range]
    exact mem_ids_of_moved hm hr ht
  have hapart : Disjoint (w.tasks.map Task.id).toFinset
      ((Finset.range works.length).image (w.nextTask + ·)) := by
    refine Finset.disjoint_left.mpr fun i hi hnew => ?_
    obtain ⟨k, _, rfl⟩ := Finset.mem_image.mp hnew
    exact Nat.not_lt.mpr (Nat.le_add_right _ _) (hold _ hi)
  generalize hf : f.goes t.id w.nextTask (c.epoch w.opened) last n draft below = f'
  have hnew : ∑ k ∈ Finset.range works.length, f'.turns (w.nextTask + k) =
      (below.map Done.turns).sum := by
    rw [← hlength, ← hf]
    exact Forecast.sum_goes_new hlt
  have hsame : ∑ i ∈ (w.tasks.map Task.id).toFinset.erase t.id, f'.turns i =
      ∑ i ∈ (w.tasks.map Task.id).toFinset.erase t.id, f.turns i := by
    refine Finset.sum_congr rfl fun i hi => ?_
    obtain ⟨hne, hi⟩ := Finset.mem_erase.mp hi
    rw [← hf]
    exact (Forecast.goes_other (hold i hi) hne).2.1
  have hown : f'.turns t.id = n := hf ▸ (Forecast.goes_own hlt).2.1
  rw [turnsLeft, turnsLeft, hids, Finset.sum_union hapart, Finset.sum_image (by simp), hnew,
    ← Finset.add_sum_erase _ _ hmem, ← Finset.add_sum_erase _ f'.turns hmem, hsame, hown, hturns]
  omega

end Going

/-! A task ends. -/

section Ending

variable (htasks : w'.tasks = w.tasks.filter (·.id != t.id))
include htasks

/-- Who waited for a task that ended now waits for the others. -/
theorem awaited_dropped (hopened : w'.opened = w.opened) (hr : Roster w) (ht : t ∈ w.tasks)
    (hdue : t.owner? = some id → (due t.id).epoch = c.epoch w.opened) :
    w'.awaited c due id = w.awaited c due id := by
  ext x
  constructor
  · rintro (hx | ⟨u, hu, ho, hx⟩)
    · exact .inl (hx.trans (by rw [hopened]))
    · rw [htasks] at hu
      exact .inr ⟨u, (List.mem_filter.mp hu).1, ho, hx⟩
  · rintro (hx | ⟨u, hu, ho, hx⟩)
    · exact .inl (hx.trans (by rw [hopened]))
    · by_cases hid : u.id = t.id
      · obtain rfl := hr.id_inj hu ht hid
        rw [hdue ho] at hx
        exact .inl (hx.symm.trans (by rw [hopened]))
      · refine .inr ⟨u, ?_, ho, hx⟩
        rw [htasks]
        exact List.mem_filter.mpr ⟨hu, bne_iff_ne.mpr hid⟩

theorem turnsLeft_dropped (ht : t ∈ w.tasks) : w.turnsLeft f = f.turns t.id + w'.turnsLeft f := by
  have hids : (w'.tasks.map Task.id).toFinset = (w.tasks.map Task.id).toFinset.erase t.id := by
    ext i
    simp only [htasks, List.mem_toFinset, List.mem_map, List.mem_filter, bne_iff_ne, Finset.mem_erase]
    constructor
    · rintro ⟨u, ⟨hu, hid⟩, rfl⟩
      exact ⟨hid, u, hu, rfl⟩
    · rintro ⟨hid, u, hu, rfl⟩
      exact ⟨u, ⟨hu, hid⟩, rfl⟩
  rw [turnsLeft, turnsLeft, hids]
  exact (Finset.add_sum_erase _ _ (List.mem_toFinset.mpr (List.mem_map_of_mem ht))).symm

end Ending

/-! Gates open. -/

section Opening

variable (hs : Stays w w')
include hs

theorem hasChildren_stays : w'.hasChildren id = w.hasChildren id := by
  refine Bool.eq_iff_iff.mpr ?_
  simp only [hasChildren, List.any_eq_true, hs.mem]

theorem awaited_stays : w'.awaited c due id =
    {x | x = c.epoch w'.opened ∨ ∃ u ∈ w.tasks, u.owner? = some id ∧ (due u.id).epoch = x} := by
  ext x
  exact or_congr .rfl (exists_congr fun u => and_congr_left' (hs.mem u))

theorem turnsLeft_stays (f f' : Forecast α) (hturns : f'.turns = f.turns) :
    w'.turnsLeft f' = w.turnsLeft f := by
  have hids : (w'.tasks.map Task.id).toFinset = (w.tasks.map Task.id).toFinset := by
    ext i
    simp only [List.mem_toFinset, List.mem_map, hs.mem]
  rw [turnsLeft, turnsLeft, hids, hturns]

end Opening

theorem exists_child (hc : w.hasChildren id = true) : ∃ u ∈ w.tasks, u.owner? = some id := by
  obtain ⟨u, hu, ho⟩ := List.any_eq_true.mp hc
  exact ⟨u, hu, beq_iff_eq.mp ho⟩

/-! What is forecast stays true. -/

namespace Foreseen

section

variable (hw : Course registry c w) (hc : w.hasChildren t.id = false)
include hw hc

/-- A task that goes on does so as was forecast. -/
theorem goes (h : ∀ u ∈ w.tasks, u.IsOf I → Foreseen s registry c f w u) (ht : t ∈ w.tasks)
    (hof : t.IsOf I) (hm : Moved w t work works w') (hopened : w'.opened = w.opened)
    {draw : List (Rose α) → List (Rose α) → List (Rose α)}
    (turn : ∀ draft, (t.work.job draft).turn s registry w.opened =
      some (.goes (fun shown => work.job (draw draft shown)) (works.map (Work.job [])))) :
    ∃ (below : List (Done F α)) (last n : Nat), below.map Done.job = works.map (Work.job []) ∧
      (∀ b ∈ below, Ends s registry c b.job (c.epoch w.opened) b.yield b.turns) ∧
      f.turns t.id = 1 + (below.map Done.turns).sum + n ∧
      ∀ u ∈ w'.tasks, u.IsOf I → Foreseen s registry c (f.goes t.id w.nextTask (c.epoch w.opened)
        last n (draw (f.draft t.id) (below.flatMap (·.yield.shown))) below) w' u := by
  have hr := hw.orderly.sound.roster
  have hends := (h t ht hof).ends
  rw [(h t ht hof).since_of_alone hc] at hends
  generalize hy : f.due t.id = y at hends
  generalize hn : f.turns t.id = n' at hends ⊢
  cases hends with
  | ends turn' => cases (turn'.here hw.fits (turn _)).2
  | @goes _ _ _ last n _ _ below turn' done latest rest =>
    obtain ⟨rfl, hmove⟩ := turn'.here hw.fits (turn _)
    obtain ⟨rfl, hjobs⟩ := Move.goes.inj hmove
    exact ⟨below, last, n, hjobs.symm, done, rfl, .went hm hr ht hopened (fun u hu hof _ => h u hu hof) hc
      hjobs.symm (fun _ b hb _ => done b (List.mem_of_getElem? hb)) (fun _ => latest)
      fun _ => hy.symm ▸ rest⟩

/-- A task that ends does so as was forecast. -/
theorem ended (h : Foreseen s registry c f w t) {outcome : Option Outcome}
    {left : List (Rose α) → List (Rose α)}
    (turn : ∀ draft, (t.work.job draft).turn s registry w.opened =
      some (.ends outcome (left draft))) :
    f.due t.id = ⟨outcome, left (f.draft t.id), c.epoch w.opened⟩ ∧ f.turns t.id = 1 := by
  have hends := h.ends
  rw [h.since_of_alone hc] at hends
  generalize f.due t.id = y at hends ⊢
  generalize f.turns t.id = n at hends ⊢
  cases hends with
  | ends turn' =>
    obtain ⟨rfl, hmove⟩ := turn'.here hw.fits (turn _)
    cases hmove
    exact ⟨rfl, rfl⟩
  | goes below turn' done latest rest => cases (turn'.here hw.fits (turn _)).2

end

/-- When a task ends, the others go on. -/
theorem left (h : ∀ u ∈ w.tasks, u.IsOf I → Foreseen s registry c f w u) (hr : Roster w)
    (ht : t ∈ w.tasks) (hdue : t.IsOf I → (f.due t.id).epoch = c.epoch w.opened)
    (htasks : w'.tasks = w.tasks.filter (·.id != t.id)) (hopened : w'.opened = w.opened) :
    ∀ u ∈ w'.tasks, u.IsOf I → Foreseen s registry c f w' u := by
  intro u hu hof
  have hu : u ∈ w.tasks := (List.mem_filter.mp (htasks ▸ hu)).1
  constructor
  · rw [awaited_dropped htasks hopened hr ht fun ho => hdue (hof.below (hr.child_owners hu ht ho))]
    exact (h u hu hof).since
  · exact (h u hu hof).ends

theorem stays (h : ∀ u ∈ w.tasks, u.IsOf I → Foreseen s registry c f w u) (hs : Stays w w')
    (hepoch : c.epoch w'.opened = c.epoch w.opened) :
    ∀ u ∈ w'.tasks, u.IsOf I → Foreseen s registry c f w' u := by
  intro u hu hof
  have hu := (hs.mem u).mp hu
  constructor
  · rw [awaited_stays hs, hepoch]
    exact (h u hu hof).since
  · exact (h u hu hof).ends

end Foreseen

section Opening

variable (hw : Course registry c w) (hs : Stays w w') (hstalled : w.Stalled s)
  (hepoch : c.epoch w'.opened = c.epoch w.opened + 1)
  (htold : ∀ opened, c.Allows (c.epoch w.opened) opened → opened = w.opened)
include hw hstalled htold

/-- When nothing can go on, no task that waits for no other has a turn in that epoch. -/
theorem turn_of_stalled (ht : t ∈ w.tasks) (hc : w.hasChildren t.id = false)
    (draft : List (Rose α)) (opened : List Gate) (ha : c.Allows (c.epoch w.opened) opened) :
    (t.work.job draft).turn s registry opened = none := by
  rw [htold opened ha]
  exact turn_of_stuck hw ht hc (Option.isNone_iff_eq_none.mp (hstalled t ht)) draft

/-- When nothing can go on, nothing ends in that epoch. -/
theorem due_of_stalled (h : ∀ u ∈ w.tasks, u.IsOf I → Foreseen s registry c f w u) :
    ∀ t ∈ w.tasks, t.IsOf I → c.epoch w.opened + 1 ≤ (f.due t.id).epoch := by
  have hr := hw.orderly.sound.roster
  refine hr.inward fun t ht ih hof => ?_
  cases hc : w.hasChildren t.id with
  | false =>
    have hends := (h t ht hof).ends
    rw [(h t ht hof).since_of_alone hc] at hends
    exact (hends.later (turn_of_stalled hw hstalled htold ht hc _)).le
  | true =>
    obtain ⟨u, hu, ho⟩ := exists_child hc
    have hle : (f.due u.id).epoch ≤ f.since t.id := (h t ht hof).since.2 (.inr ⟨u, hu, ho, rfl⟩)
    exact Nat.le_trans (ih u hu ho (hof.below (hr.child_owners ht hu ho)))
      (Nat.le_trans hle (h t ht hof).ends.le)

theorem since_of_stalled (h : ∀ u ∈ w.tasks, u.IsOf I → Foreseen s registry c f w u) (ht : t ∈ w.tasks)
    (hof : t.IsOf I) (hc : w.hasChildren t.id = true) : c.epoch w.opened + 1 ≤ f.since t.id := by
  obtain ⟨u, hu, ho⟩ := exists_child hc
  have hchild := hof.below (hw.orderly.sound.roster.child_owners ht hu ho)
  exact Nat.le_trans (due_of_stalled hw hstalled htold h u hu hchild)
    ((h t ht hof).since.2 (.inr ⟨u, hu, ho, rfl⟩))

include hs hepoch

/-- In the next epoch, those that waited for no other begin to wait anew. -/
theorem Foreseen.opened (h : ∀ u ∈ w.tasks, u.IsOf I → Foreseen s registry c f w u) :
    ∀ u ∈ w'.tasks, u.IsOf I → Foreseen s registry c
      { f with since := fun i => max (f.since i) (c.epoch w'.opened) } w' u := by
  intro t ht hof
  have ht := (hs.mem t).mp ht
  cases hc : w.hasChildren t.id with
  | false =>
    have hsince := (h t ht hof).since_of_alone hc
    have hmax : max (f.since t.id) (c.epoch w'.opened) = c.epoch w'.opened := by
      rw [hsince, hepoch]
      exact Nat.max_eq_right (Nat.le_succ _)
    refine .of_eq hmax rfl rfl rfl ?_ ?_
    · rw [awaited_of_alone ((hasChildren_stays hs).trans hc)]
      exact isGreatest_epoch
    · have hends := (h t ht hof).ends
      rw [hsince] at hends
      rw [hepoch]
      exact hends.later (turn_of_stalled hw hstalled htold ht hc _)
  | true =>
    have hge := since_of_stalled hw hstalled htold h ht hof hc
    refine .of_eq (Nat.max_eq_left (hepoch ▸ hge)) rfl rfl rfl ?_ (h t ht hof).ends
    rw [awaited_stays hs]
    constructor
    · rcases (h t ht hof).since.1 with heq | hchild
      · exact absurd heq (Nat.ne_of_gt hge)
      · exact .inr hchild
    · rintro x (rfl | hchild)
      · exact hepoch ▸ hge
      · exact (h t ht hof).since.2 (.inr hchild)

end Opening

end World

end Montage
