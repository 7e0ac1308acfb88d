import Mathlib.Data.List.TakeDrop
import Montage.Proofs.Render.Taking
import Montage.Render.Waiting

/-!
The tasks under way and who waits for whom. Main statements: every owner of a task is under way itself,
with the owners that follow it, and a task that owns another at any remove waits for one.
-/

namespace Montage

open Json (Value)

variable {F α : Type} [Medium α]

namespace World

variable {w w' : World F α} {t u : Task F α} {work : Work F α} {works : List (Work F α)}
  {ts new : List (Task F α)} {owner id : TaskId} {owners os : List TaskId}

theorem mem_insertBefore : u ∈ insertBefore owner new ts ↔ u ∈ new ∨ u ∈ ts := by
  induction ts with
  | nil => simp [insertBefore]
  | cons t ts ih =>
    rw [insertBefore]
    split
    · simp
    · simp only [List.mem_cons, ih]
      exact or_left_comm

/-- The tasks made for pieces of work, by number. -/
theorem mem_number {crowded : Bool} {n : TaskId} : u ∈ number owners crowded n works ↔
    ∃ i, works[i]? = some u.work ∧ u.id = n + i ∧ u.owners = owners ∧ u.crowded = crowded := by
  induction works generalizing n with
  | nil => simp [number]
  | cons k works ih =>
    rw [number, List.mem_cons, ih]
    constructor
    · rintro (rfl | ⟨i, hk, hid, ho, hc⟩)
      · exact ⟨0, rfl, rfl, rfl, rfl⟩
      · exact ⟨i + 1, hk, hid.trans (Nat.succ_add_eq_add_succ n i), ho, hc⟩
    · rintro ⟨i, hk, hid, ho, hc⟩
      cases i with
      | zero =>
        refine .inl ?_
        obtain ⟨id, os, c, k'⟩ := u
        cases hk
        cases hid
        cases ho
        cases hc
        rfl
      | succ i => exact .inr ⟨i, hk, hid.trans (Nat.succ_add_eq_add_succ n i).symm, ho, hc⟩

/-- Tasks have their own numbers, and wait for each other in lines that lead to calls. -/
structure Roster (w : World F α) : Prop where
  id_lt : ∀ {t}, t ∈ w.tasks → t.id < w.nextTask
  id_inj : ∀ {t u}, t ∈ w.tasks → u ∈ w.tasks → t.id = u.id → t = u
  owned : ∀ {t o os}, t ∈ w.tasks → t.owners = o :: os → ∃ u ∈ w.tasks, u.id = o ∧ u.owners = os
  calls : ∀ {t es}, t ∈ w.tasks → t.work = .errands es → t.owners = []
  settled : ∀ {id o}, w.outcomes.get? id = some o → id < w.nextTask ∧ ∀ t ∈ w.tasks, t.id ≠ id

/-- The owners of a task are under way, each with the owners after it. -/
theorem Roster.suffix (h : Roster w) (ht : t ∈ w.tasks) (hid : id ∈ t.owners) :
    ∃ u ∈ w.tasks, u.id = id ∧ (u.id :: u.owners) <:+ t.owners := by
  generalize hos : t.owners = os at hid
  induction os generalizing t with
  | nil => cases hid
  | cons o os ih =>
    obtain ⟨u, hu, huid, huo⟩ := h.owned ht hos
    rcases List.mem_cons.mp hid with rfl | hid
    · exact ⟨u, hu, huid, by simp [huid, huo]⟩
    · obtain ⟨v, hv, hvid, hvo⟩ := ih hu huo hid
      exact ⟨v, hv, hvid, hvo.trans (List.suffix_cons o os)⟩

/-- Whoever owns a task at some remove owns one directly. -/
theorem Roster.hasChildren_of_owner (h : Roster w) (ht : t ∈ w.tasks) (hid : id ∈ t.owners) :
    w.hasChildren id = true := by
  generalize hos : t.owners = os at hid
  induction os generalizing t with
  | nil => cases hid
  | cons o os ih =>
    rcases List.mem_cons.mp hid with rfl | hid
    · refine List.any_eq_true.mpr ⟨t, ht, ?_⟩
      simp [Task.owner?, hos]
    · obtain ⟨u, hu, _, huo⟩ := h.owned ht hos
      exact ih hu huo hid

theorem Roster.not_owner (h : Roster w) (hc : w.hasChildren id = false) (ht : t ∈ w.tasks) :
    id ∉ t.owners := by
  intro hid
  rw [h.hasChildren_of_owner ht hid] at hc
  cases hc

/-- Owners are older. -/
theorem Roster.owner_ne (h : Roster w) (ht : t ∈ w.tasks) : t.id ∉ t.owners := by
  intro hid
  obtain ⟨u, hu, huid, huo⟩ := h.suffix ht hid
  have := h.id_inj hu ht huid
  subst this
  exact absurd huo.length_le (Nat.not_succ_le_self _)

theorem Roster.task? (h : Roster w) (ht : t ∈ w.tasks) : w.task? t.id = some t := by
  cases hu : w.task? t.id with
  | none =>
    have := List.find?_eq_none.mp hu t ht
    simp at this
  | some u =>
    obtain ⟨hm, hid⟩ := task?_eq_some hu
    rw [h.id_inj hm ht hid]

/-- Who is under way after a task went on. -/
theorem Moved.mem (hm : Moved w t work works w') (h : Roster w) (ht : t ∈ w.tasks) :
    u ∈ w'.tasks ↔ (u ∈ w.tasks ∧ u.id ≠ t.id) ∨ u = { t with work := work } ∨
      u ∈ number (t.id :: t.owners) (crowdBound < works.length) w.nextTask works := by
  rw [hm.tasks, mem_insertBefore, List.mem_map]
  constructor
  · rintro (hu | ⟨v, hv, rfl⟩)
    · exact .inr (.inr hu)
    · split
      · rename_i hid
        rw [h.id_inj hv ht hid]
        exact .inr (.inl rfl)
      · exact .inl ⟨hv, ‹_›⟩
  · rintro (⟨hu, hid⟩ | rfl | hu)
    · exact .inr ⟨u, hu, if_neg hid⟩
    · exact .inr ⟨t, ht, if_pos rfl⟩
    · exact .inl hu

/-- New work is that of a new task. -/
theorem Moved.exists_new (hm : Moved w t work works w') (h : Roster w) (ht : t ∈ w.tasks) {i : Nat}
    {k : Work F α} (hi : works[i]? = some k) :
    ∃ u ∈ w'.tasks, u.id = w.nextTask + i ∧ u.owners = t.id :: t.owners ∧ u.work = k :=
  ⟨⟨w.nextTask + i, t.id :: t.owners, _, k⟩,
    (hm.mem h ht).mpr (.inr (.inr (mem_number.mpr ⟨i, hi, rfl, rfl, rfl⟩))), rfl, rfl, rfl⟩

/-- A task holds this place. -/
def Holds (w : World F α) (p : NodeId) : Prop :=
  ∃ t ∈ w.tasks, p ∈ t.work.places

/-- When a task goes on, its places are still held, and those of its new work too. -/
theorem Moved.holds {p : NodeId} (hm : Moved w t work works w') (h : Roster w) (ht : t ∈ w.tasks)
    (hkept : ∀ q ∈ t.work.places, q ∈ work.places ∨ ∃ k ∈ works, q ∈ k.places)
    (hp : w.Holds p ∨ ∃ k ∈ works, p ∈ k.places) : w'.Holds p := by
  have hnew : (∃ k ∈ works, p ∈ k.places) → w'.Holds p := by
    rintro ⟨k, hk, hp⟩
    obtain ⟨i, hi⟩ := List.mem_iff_getElem?.mp hk
    obtain ⟨u, hu, _, _, rfl⟩ := hm.exists_new h ht hi
    exact ⟨u, hu, hp⟩
  rcases hp with ⟨u, hu, hp⟩ | hk
  · by_cases hid : u.id = t.id
    · obtain rfl := h.id_inj hu ht hid
      rcases hkept p hp with hp | hk
      · exact ⟨_, (hm.mem h hu).mpr (.inr (.inl rfl)), hp⟩
      · exact hnew hk
    · exact ⟨u, (hm.mem h ht).mpr (.inl ⟨hu, hid⟩), hp⟩
  · exact hnew hk

/-- A task that ends lets go of its own places alone. -/
theorem Holds.dropped {p : NodeId} (hp : w.Holds p) (h : Roster w) (ht : t ∈ w.tasks)
    (htasks : w'.tasks = w.tasks.filter (·.id != t.id)) (hnot : p ∉ t.work.places) : w'.Holds p := by
  obtain ⟨u, hu, hp⟩ := hp
  refine ⟨u, ?_, hp⟩
  rw [htasks]
  refine List.mem_filter.mpr ⟨hu, bne_iff_ne.mpr fun hid => hnot ?_⟩
  exact h.id_inj hu ht hid ▸ hp

theorem Roster.moved (h : Roster w) (ht : t ∈ w.tasks) (hm : Moved w t work works w')
    (hwork : ∀ es, work = .errands es → t.owners = [])
    (hworks : ∀ es, .errands es ∉ works) : Roster w' := by
  have hmem {u : Task F α} := hm.mem (u := u) h ht
  have hnew : ∀ {u}, u ∈ number (t.id :: t.owners) (crowdBound < works.length) w.nextTask works →
      w.nextTask ≤ u.id ∧ u.id < w'.nextTask ∧ u.owners = t.id :: t.owners ∧ u.work ∈ works := by
    intro u hu
    obtain ⟨i, hi, hid, ho, _⟩ := mem_number.mp hu
    obtain ⟨hlt, _⟩ := List.getElem?_eq_some_iff.mp hi
    rw [hid, hm.next]
    exact ⟨Nat.le_add_right _ _, Nat.add_lt_add_left hlt _, ho, List.mem_of_getElem? hi⟩
  have hle : w.nextTask ≤ w'.nextTask := hm.next ▸ Nat.le_add_right _ _
  have hold : ∀ {u}, u ∈ w.tasks → ∃ v ∈ w'.tasks, v.id = u.id ∧ v.owners = u.owners := by
    intro u hu
    by_cases hid : u.id = t.id
    · rw [h.id_inj hu ht hid]
      exact ⟨_, hmem.mpr (.inr (.inl rfl)), rfl, rfl⟩
    · exact ⟨u, hmem.mpr (.inl ⟨hu, hid⟩), rfl, rfl⟩
  constructor
  case id_lt =>
    intro u hu
    rcases hmem.mp hu with ⟨hu, _⟩ | rfl | hu
    · exact Nat.lt_of_lt_of_le (h.id_lt hu) hle
    · exact Nat.lt_of_lt_of_le (show t.id < w.nextTask from h.id_lt ht) hle
    · exact (hnew hu).2.1
  case id_inj =>
    intro u v hu hv hid
    have hlt : t.id < w.nextTask := h.id_lt ht
    rcases hmem.mp hu with ⟨hu, hut⟩ | rfl | hu <;> rcases hmem.mp hv with ⟨hv, hvt⟩ | rfl | hv
    · exact h.id_inj hu hv hid
    · exact absurd hid hut
    · exact absurd (h.id_lt hu) (Nat.not_lt.mpr (hid ▸ (hnew hv).1))
    · exact absurd hid.symm hvt
    · rfl
    · exact absurd hlt (Nat.not_lt.mpr (hid ▸ (hnew hv).1))
    · exact absurd (h.id_lt hv) (Nat.not_lt.mpr (hid ▸ (hnew hu).1))
    · exact absurd hlt (Nat.not_lt.mpr (hid ▸ (hnew hu).1))
    · obtain ⟨i, hi, hiu, ho, hc⟩ := mem_number.mp hu
      obtain ⟨j, hj, hjv, ho', hc'⟩ := mem_number.mp hv
      have hij : i = j := Nat.add_left_cancel (hiu.symm.trans (hid.trans hjv))
      subst hij
      rw [hi] at hj
      obtain ⟨_, _, _, _⟩ := u
      obtain ⟨_, _, _, _⟩ := v
      simp_all
  case owned =>
    intro u o os hu ho
    rcases hmem.mp hu with ⟨hu, _⟩ | rfl | hu
    · obtain ⟨v, hv, hvid, hvo⟩ := h.owned hu ho
      obtain ⟨v', hv', hid', ho'⟩ := hold hv
      exact ⟨v', hv', hid'.trans hvid, ho'.trans hvo⟩
    · obtain ⟨v, hv, hvid, hvo⟩ := h.owned ht ho
      obtain ⟨v', hv', hid', ho'⟩ := hold hv
      exact ⟨v', hv', hid'.trans hvid, ho'.trans hvo⟩
    · rw [(hnew hu).2.2.1] at ho
      cases ho
      exact ⟨_, hmem.mpr (.inr (.inl rfl)), rfl, rfl⟩
  case calls =>
    intro u es hu he
    rcases hmem.mp hu with ⟨hu, _⟩ | rfl | hu
    · exact h.calls hu he
    · exact hwork es he
    · exact absurd (he ▸ (hnew hu).2.2.2) (hworks es)
  case settled =>
    intro id o ho
    rw [hm.outcomes] at ho
    obtain ⟨hlt, hne⟩ := h.settled ho
    refine ⟨Nat.lt_of_lt_of_le hlt hle, fun u hu => ?_⟩
    rcases hmem.mp hu with ⟨hu, _⟩ | rfl | hu
    · exact hne u hu
    · exact hne t ht
    · exact Nat.ne_of_gt (Nat.lt_of_lt_of_le hlt (hnew hu).1)

/-- A task that none waits for can go. -/
theorem Roster.dropped (h : Roster w) (hc : w.hasChildren id = false)
    (htasks : w'.tasks = w.tasks.filter (·.id != id)) (hn : w'.nextTask = w.nextTask)
    (ho : ∀ j o, w'.outcomes.get? j = some o →
      w.outcomes.get? j = some o ∨ j = id ∧ id < w.nextTask) : Roster w' := by
  have hmem {u : Task F α} : u ∈ w'.tasks ↔ u ∈ w.tasks ∧ u.id ≠ id := by
    simp [htasks, List.mem_filter]
  constructor
  case id_lt =>
    intro u hu
    exact hn ▸ h.id_lt (hmem.mp hu).1
  case id_inj =>
    intro u v hu hv hid
    exact h.id_inj (hmem.mp hu).1 (hmem.mp hv).1 hid
  case owned =>
    intro u o os hu hos
    obtain ⟨v, hv, hvid, hvo⟩ := h.owned (hmem.mp hu).1 hos
    refine ⟨v, hmem.mpr ⟨hv, fun hid => ?_⟩, hvid, hvo⟩
    refine h.not_owner hc (hmem.mp hu).1 ?_
    rw [hos, ← hvid, hid]
    exact List.mem_cons_self
  case calls =>
    intro u es hu he
    exact h.calls (hmem.mp hu).1 he
  case settled =>
    intro j o hj
    rcases ho j o hj with hj | ⟨rfl, hlt⟩
    · obtain ⟨hlt, hne⟩ := h.settled hj
      exact ⟨hn ▸ hlt, fun u hu => hne u (hmem.mp hu).1⟩
    · exact ⟨hn ▸ hlt, fun u hu => (hmem.mp hu).2⟩

/-- A call is entered, as yet without anything to wait for. -/
theorem Roster.called (h : Roster w) (es : List (Errand F))
    (htasks : w'.tasks = w.tasks ++ [⟨w.nextTask, [], false, .errands es⟩])
    (hn : w'.nextTask = w.nextTask + 1) (ho : w'.outcomes = w.outcomes) : Roster w' := by
  have hmem {u : Task F α} : u ∈ w'.tasks ↔ u ∈ w.tasks ∨
      u = ⟨w.nextTask, [], false, .errands es⟩ := by
    simp [htasks]
  constructor
  case id_lt =>
    intro u hu
    rw [hn]
    rcases hmem.mp hu with hu | rfl
    · exact Nat.lt_succ_of_lt (h.id_lt hu)
    · exact Nat.lt_succ_self _
  case id_inj =>
    intro u v hu hv hid
    rcases hmem.mp hu with hu | rfl <;> rcases hmem.mp hv with hv | rfl
    · exact h.id_inj hu hv hid
    · exact absurd hid (Nat.ne_of_lt (h.id_lt hu))
    · exact absurd hid (Nat.ne_of_gt (h.id_lt hv))
    · rfl
  case owned =>
    intro u o os hu hos
    rcases hmem.mp hu with hu | rfl
    · obtain ⟨v, hv, hvo⟩ := h.owned hu hos
      exact ⟨v, hmem.mpr (.inl hv), hvo⟩
    · cases hos
  case calls =>
    intro u es' hu he
    rcases hmem.mp hu with hu | rfl
    · exact h.calls hu he
    · rfl
  case settled =>
    intro j o hj
    rw [ho] at hj
    obtain ⟨hlt, hne⟩ := h.settled hj
    refine ⟨hn ▸ Nat.lt_succ_of_lt hlt, fun u hu => ?_⟩
    rcases hmem.mp hu with hu | rfl
    · exact hne u hu
    · exact Nat.ne_of_gt hlt

/-- The order of the tasks does not matter. -/
theorem Roster.perm (h : Roster w) (hm : ∀ u, u ∈ w'.tasks ↔ u ∈ w.tasks)
    (hn : w'.nextTask = w.nextTask) (ho : w'.outcomes = w.outcomes) : Roster w' where
  id_lt hu := hn ▸ h.id_lt ((hm _).mp hu)
  id_inj hu hv hid := h.id_inj ((hm _).mp hu) ((hm _).mp hv) hid
  owned hu hos := by
    obtain ⟨v, hv, hvo⟩ := h.owned ((hm _).mp hu) hos
    exact ⟨v, (hm _).mpr hv, hvo⟩
  calls hu he := h.calls ((hm _).mp hu) he
  settled hj := by
    obtain ⟨hlt, hne⟩ := h.settled (ho ▸ hj)
    exact ⟨hn ▸ hlt, fun u hu => hne u ((hm _).mp hu)⟩

/-- New tasks for a task whose own work stays. -/
theorem Moved.of_waiting (h : Roster w) (ht : t ∈ w.tasks) (works : List (Work F α)) :
    Moved w t t.work works (w.launch t.id t.owners works) where
  tasks := by
    have hsame : (w.tasks.map fun u => if u.id = t.id then { u with work := t.work } else u) =
        w.tasks := by
      refine (List.map_congr_left fun u hu => ?_).trans (List.map_id w.tasks)
      split
      · rename_i hid
        rw [h.id_inj hu ht hid]
        rfl
      · rfl
    rw [hsame]
    rfl
  next := rfl
  outcomes := rfl
  finished := rfl

/-- A call that has been entered and waits for nothing yet. -/
def enter (w : World F α) (es : List (Errand F)) : World F α :=
  { w with
    tasks := w.tasks ++ [⟨w.nextTask, [], false, .errands es⟩]
    nextTask := w.nextTask + 1 }

theorem mem_enter (es : List (Errand F)) :
    (⟨w.nextTask, [], false, .errands es⟩ : Task F α) ∈ (w.enter es).tasks :=
  List.mem_append_right _ List.mem_cons_self

theorem Roster.entered (h : Roster w) (es : List (Errand F)) : Roster (w.enter es) :=
  h.called es rfl rfl rfl

/-- Entering a call and waiting for its work. -/
theorem Roster.opened (h : Roster w) (es : List (Errand F)) (works : List (Work F α)) :
    Moved (w.enter es) ⟨w.nextTask, [], false, .errands es⟩ (.errands es) works
      (w.openCall works es).1 :=
  .of_waiting (h.entered es) (mem_enter es) works

theorem mem_bringForward {t : Task F α} :
    u ∈ bringForward ts t ↔ u ∈ ts := by
  unfold bringForward
  split
  · rfl
  · rename_i owner _
    have hpart : u ∈ ts ↔ u ∈ (ts.partition (·.isWithin t.id)).1 ∨
        u ∈ (ts.partition (·.isWithin t.id)).2 := by
      simp only [List.partition_eq_filter_filter, List.mem_filter, Function.comp]
      grind
    rw [hpart, ← List.takeWhile_append_dropWhile (p := fun v : Task F α => !v.isWithin owner)
      (l := (ts.partition (·.isWithin t.id)).2)]
    simp only [List.mem_append, List.span_eq_takeWhile_dropWhile]
    grind

/-- A step of a task that is under way is a turn of it. -/
theorem turn_of_mem {s : Setup F α} (h : Roster w) (ht : t ∈ w.tasks)
    (hact : w.step s t.id = some w') : Turn s w t w' := by
  obtain ⟨u, hu, hid, _, hturn⟩ := turn_of_step hact
  exact h.id_inj hu ht hid ▸ hturn

/-- A task that goes on does not end. -/
theorem Moved.not_settled {o : Outcome} (hm : Moved w t work works w') (h : Roster w)
    (ht : t ∈ w.tasks) : ¬Settled w t o w' :=
  fun hs => hs.ne_of_mem ((hm.mem h ht).mpr (.inr (.inl rfl))) rfl

/-- Opening a gate brings tasks forward, and takes none away. -/
theorem mem_release (g : Gate) : u ∈ (w.release g).1.tasks ↔ u ∈ w.tasks := by
  unfold release
  dsimp only
  generalize (((w.told g).filterMap w.task?).partition (·.owners.isEmpty)).2.reverse = crowd
  generalize w.tasks = ts
  induction crowd generalizing ts with
  | nil => rfl
  | cons t crowd ih =>
    rw [List.foldl_cons, ih]
    exact mem_bringForward

end World

end Montage
