import Montage.Proofs.Render.History

/-!
What holds of a renderer between its acts. Every place and every output stands for one task alone, an
output is younger than its place and in no list of children, and the places that a run waits for are
reserved in its output or in one of a run that works for it. Main statement: every act keeps this.
-/

namespace Montage

open Json (Value)

variable {F α : Type} [Medium α]

/-- Whether a piece of work is the rendering of a config. -/
def Work.IsRun (k : Work F α) : Prop :=
  ∃ r, k = .run r

theorem Task.isWithin_iff {t : Task F α} {id : TaskId} :
    t.isWithin id ↔ t.id = id ∨ id ∈ t.owners := by
  simp [Task.isWithin]

/-- The owners of those that work for a task directly are the tasks that it works for. -/
theorem Task.mem_owners_below {t : Task F α} {id : TaskId} :
    id ∈ t.id :: t.owners ↔ t.isWithin id := by
  rw [isWithin_iff, List.mem_cons, eq_comm]

/-- Whether a task works for another is told by its number and its owners. -/
theorem Task.isWithin_congr {t u : Task F α} {id : TaskId} (hid : u.id = t.id)
    (howners : u.owners = t.owners) : u.isWithin id ↔ t.isWithin id := by
  rw [isWithin_iff, isWithin_iff, hid, howners]

namespace World

/-- A place held by a task with these owners, as far as they are runs: it is younger than the output of
one of them, and wherever it is attached it is under that output. -/
def Homed (w : World F α) (owners : List TaskId) (p : NodeId) : Prop :=
  ∀ r ∈ w.tasks, r.id ∈ owners → r.work.IsRun → ∃ u ∈ w.tasks, u.isWithin r.id ∧ u.id ∈ owners ∧
    ∃ o, u.work.output? = some o ∧ o < p ∧
      ∀ q, w.scene.tree.parent? p = some q → w.scene.tree.Under o q

structure Sound (w : World F α) : Prop where
  roster : Roster w
  linked : w.scene.tree.Linked
  unpainted : ∀ {t rs r}, t ∈ w.tasks → t.work = .batch rs → r ∈ rs → r.output? = none
  held_lt : ∀ {t x}, t ∈ w.tasks → x ∈ t.work.holds → x < w.scene.tree.next
  held_once : ∀ {t}, t ∈ w.tasks → t.work.holds.Nodup
  held_one : ∀ {t u x}, t ∈ w.tasks → u ∈ w.tasks → x ∈ t.work.holds → x ∈ u.work.holds → t = u
  younger : ∀ {t r o}, t ∈ w.tasks → t.work = .run r → r.output? = some o → r.place < o
  apart : ∀ {t o x}, t ∈ w.tasks → t.work.output? = some o → o ∉ w.scene.tree.children x
  home : ∀ {t p}, t ∈ w.tasks → p ∈ t.work.places → Homed w t.owners p
  stored : ∀ {n c e}, w.scene.clicks.get? n = some c → e ∈ c.errands → e.Known w.scene.tree.next
  planned : ∀ {t es e}, t ∈ w.tasks → t.work = .errands es → e ∈ es →
    e.Known w.scene.tree.next

variable {s : Setup F α} {w w' : World F α} {t u : Task F α} {r : Run F α} {work : Work F α}
  {works : List (Work F α)} {sc : Scene F α} {n o p q x : NodeId}

theorem not_isRun {k : Work F α} (h : ∀ r, k ≠ .run r) : ¬k.IsRun :=
  fun ⟨r, hr⟩ => h r hr

theorem mem_holds_of_output (h : t.work.output? = some o) : o ∈ t.work.holds := by
  simp [Work.holds, h]

theorem mem_holds_of_place (h : p ∈ t.work.places) : p ∈ t.work.holds :=
  List.mem_append_left _ h

namespace Sound

theorem output_lt (h : Sound w) (ht : t ∈ w.tasks) (ho : t.work.output? = some o) :
    o < w.scene.tree.next :=
  h.held_lt ht (mem_holds_of_output ho)

/-- An output that is not in its place has no parent. -/
theorem output_root (h : Sound w) (ht : t ∈ w.tasks) (ho : t.work.output? = some o) :
    w.scene.tree.parent? o = none := by
  cases hp : w.scene.tree.parent? o with
  | none => rfl
  | some p => exact absurd (h.linked.listed hp) (h.apart ht ho)

theorem output_inj (h : Sound w) (ht : t ∈ w.tasks) (hu : u ∈ w.tasks)
    (ho : t.work.output? = some o) (ho' : u.work.output? = some o) : t = u :=
  h.held_one ht hu (mem_holds_of_output ho) (mem_holds_of_output ho')

theorem place_lt (h : Sound w) (ht : t ∈ w.tasks) (hp : p ∈ t.work.places) :
    p < w.scene.tree.next :=
  h.held_lt ht (mem_holds_of_place hp)

theorem free_of_fresh (h : Sound w) (hx : w.scene.tree.next ≤ x) (hu : u ∈ w.tasks) :
    x ∉ u.work.holds :=
  fun hm => Nat.not_lt.mpr hx (h.held_lt hu hm)

/-- Changes of the scene that move no node. -/
theorem rescene (h : Sound w) (sc : Scene F α) (hs : Tree.Steady w.scene.tree sc.tree)
    (hc : ∀ {n c}, sc.clicks.get? n = some c →
      w.scene.clicks.get? n = some c ∨ ∀ e ∈ c.errands, e.Known sc.tree.next) :
    Sound { w with scene := sc } where
  roster := h.roster.perm (fun _ => Iff.rfl) rfl rfl
  linked := hs.after
  unpainted := h.unpainted
  held_lt ht hx := Nat.lt_of_lt_of_le (h.held_lt ht hx) hs.next_le
  held_once := h.held_once
  held_one := h.held_one
  younger := h.younger
  apart ht ho hm := h.apart ht ho (hs.listed hm (h.output_lt ht ho))
  home {t p} ht hp r hr hid hrun := by
    obtain ⟨u, hu, hin, huo, o, ho, hlt, hup⟩ := h.home ht hp r hr hid hrun
    refine ⟨u, hu, hin, huo, o, ho, hlt, fun q hq => ?_⟩
    have hlive := Tree.live_of_parent hq
    rw [hs.parent (h.place_lt ht hp) hlive] at hq
    have hq' : sc.tree.contains q := by
      refine hs.after.parent_live (x := p) ?_
      rw [hs.parent (h.place_lt ht hp) hlive]
      exact hq
    exact hs.path (hup q hq) hq'
  stored hn he := by
    rcases hc hn with hn | hn
    · exact (h.stored hn he).mono hs.next_le
    · exact hn _ he
  planned ht hes he := (h.planned ht hes he).mono hs.next_le

theorem grown {e : Option NodeId} (h : Sound w) (sc : Scene F α) (hg : Scene.Grown e w.scene sc) :
    Sound { w with scene := sc } :=
  h.rescene sc hg.tree.steady hg.clicks

/-- A place that is taken for an output that no task has any more. -/
theorem spliced {fragment : Bool} (h : Sound w)
    (hs : Tree.Spliced p q o fragment w.scene.tree sc.tree)
    (hfree : ∀ u ∈ w.tasks, o ∉ u.work.holds)
    (hc : ∀ {n c}, sc.clicks.get? n = some c → w.scene.clicks.get? n = some c) :
    Sound { w with scene := sc } where
  roster := h.roster.perm (fun _ => Iff.rfl) rfl rfl
  linked := hs.after
  unpainted := h.unpainted
  held_lt ht hx := hs.next ▸ h.held_lt ht hx
  held_once := h.held_once
  held_one := h.held_one
  younger := h.younger
  apart {t a x} ht ha hm := by
    rw [hs.children (Tree.live_of_listed hm)] at hm
    split at hm
    · rcases Tree.mem_of_mem_putAt hm with hm | hm
      · unfold Tree.offered at hm
        split at hm
        · exact h.apart ht ha hm
        · exact hfree t ht (List.mem_singleton.mp hm ▸ mem_holds_of_output ha)
      · exact h.apart ht ha hm
    · exact h.apart ht ha hm
  home {t p'} ht hp r hr hid hrun := by
    obtain ⟨u, hu, hin, huo, a, ha, hlt, hup⟩ := h.home ht hp r hr hid hrun
    have hao : a ≠ o := by
      rintro rfl
      exact hfree u hu (mem_holds_of_output ha)
    refine ⟨u, hu, hin, huo, a, ha, hlt, fun q' hq => ?_⟩
    have hq' := hs.after.parent_live hq
    have hlive := Tree.live_of_parent hq
    rw [hs.parent hlive] at hq
    split at hq
    · -- A place among the children of the fragment would be under the output of another run.
      rename_i hi
      exfalso
      unfold Tree.offered at hi
      split at hi
      · have hpo := hs.ready.linked.link hi (hs.live.mp hlive).1
        exact hao ((hup o hpo).eq_of_no_parent hs.ready.root)
      · exact hfree t ht (List.mem_singleton.mp hi ▸ mem_holds_of_place hp)
    · exact hs.path (hup q' hq) hq' hao
  stored hn he := hs.next ▸ h.stored (hc hn) he
  planned ht hes he := hs.next ▸ h.planned ht hes he

end Sound

/-- What new work takes over from the old, and what it may have beyond that. -/
structure Passed (w : World F α) (t : Task F α) (work : Work F α) (works : List (Work F α)) :
    Prop where
  run : work.IsRun → t.work.IsRun
  calls : ∀ es, work = .errands es → t.owners = []
  unpainted : ∀ rs, work = .batch rs → ∀ r ∈ rs, r.output? = none
  planned : ∀ es, work = .errands es → ∀ e ∈ es, e.Known w.scene.tree.next
  younger : ∀ r o, work = .run r → r.output? = some o → r.place < o
  places : ∀ p ∈ work.places, p ∈ t.work.places
  output : ∀ o, t.work.output? = some o → work.output? = some o
  apart : ∀ o x, work.output? = some o → o ∉ w.scene.tree.children x
  /-- New tasks render configs that were taken up. -/
  fresh : ∀ k ∈ works, (∃ r, k = .run r ∧ r.output? = none) ∨
    ∃ rs, k = .batch rs ∧ ∀ r ∈ rs, r.output? = none
  home : ∀ k ∈ works, ∀ p ∈ k.places, Homed w (t.id :: t.owners) p
  nodup : (work.holds ++ works.flatMap Work.places).Nodup
  held : ∀ x ∈ work.holds ++ works.flatMap Work.places,
    x ∈ t.work.holds ∨ x < w.scene.tree.next ∧ ∀ u ∈ w.tasks, x ∉ u.work.holds

theorem Homed.moved {owners : List TaskId} (h : Homed w owners p) (hr : Roster w)
    (ht : t ∈ w.tasks) (hm : Moved w t work works w') (hs : w'.scene = w.scene)
    (hrun : work.IsRun → t.work.IsRun)
    (hout : ∀ o, t.work.output? = some o → work.output? = some o)
    (howners : ∀ id ∈ owners, id < w.nextTask) : Homed w' owners p := by
  intro r hr' hid hk
  have hmem {u : Task F α} := hm.mem (u := u) hr ht
  have hold : ∃ v ∈ w.tasks, v.id = r.id ∧ v.work.IsRun := by
    rcases hmem.mp hr' with ⟨hr', _⟩ | rfl | hr'
    · exact ⟨r, hr', rfl, hk⟩
    · exact ⟨t, ht, rfl, hrun hk⟩
    · obtain ⟨i, _, hri, _⟩ := mem_number.mp hr'
      exact absurd (howners r.id hid) (Nat.not_lt.mpr (hri ▸ Nat.le_add_right _ _))
  obtain ⟨v, hv, hvid, hvk⟩ := hold
  obtain ⟨u, hu, hin, huo, o, ho, hlt, hup⟩ := h v hv (hvid ▸ hid) hvk
  rw [hvid] at hin
  by_cases hut : u.id = t.id
  · have := hr.id_inj hu ht hut
    subst this
    exact ⟨_, hmem.mpr (.inr (.inl rfl)), Task.isWithin_iff.mpr (Task.isWithin_iff.mp hin), huo, o,
      hout o ho, hlt, hs ▸ hup⟩
  · exact ⟨u, hmem.mpr (.inl ⟨hu, hut⟩), hin, huo, o, ho, hlt, hs ▸ hup⟩

theorem Passed.output_fresh (hp : Passed w t work works) {k : Work F α} (hk : k ∈ works) :
    k.output? = none ∧ k.holds = k.places := by
  rcases hp.fresh k hk with ⟨r, rfl, hr⟩ | ⟨rs, rfl, _⟩
  · have : Work.output? (.run r) = none := hr
    exact ⟨this, by simp [Work.holds, this]⟩
  · exact ⟨rfl, by simp [Work.holds, Work.output?]⟩

theorem Passed.not_errands (hp : Passed w t work works) {es : List (Errand F)} :
    .errands es ∉ works := by
  intro hm
  rcases hp.fresh _ hm with ⟨_, hk, _⟩ | ⟨_, hk, _⟩ <;> cases hk

/-- New tasks work for the task, have painted nothing yet, and hold the places given to them. -/
theorem Passed.of_new (hp : Passed w t work works) {crowded : Bool}
    (hu : u ∈ number (t.id :: t.owners) crowded w.nextTask works) :
    u.owners = t.id :: t.owners ∧ u.work ∈ works ∧ u.work.output? = none ∧
      u.work.holds = u.work.places := by
  obtain ⟨i, hi, _, howners, _⟩ := mem_number.mp hu
  have hk := List.mem_of_getElem? hi
  exact ⟨howners, hk, hp.output_fresh hk⟩

theorem Passed.holds_new (hp : Passed w t work works) {crowded : Bool}
    (hu : u ∈ number (t.id :: t.owners) crowded w.nextTask works) (hx : x ∈ u.work.holds) :
    x ∈ works.flatMap Work.places := by
  obtain ⟨_, hk, _, hholds⟩ := hp.of_new hu
  exact List.mem_flatMap.mpr ⟨u.work, hk, hholds ▸ hx⟩

/-- In lists that have nothing in common, an element tells its list. -/
theorem index_unique {β : Type} {f : β → List NodeId} {ks : List β} {i j : Nat} {a b : β}
    (h : (ks.flatMap f).Nodup) (hi : ks[i]? = some a) (hj : ks[j]? = some b) (ha : x ∈ f a)
    (hb : x ∈ f b) : i = j := by
  have hpair := List.pairwise_iff_getElem.mp (List.pairwise_flatMap.mp h).2
  obtain ⟨hil, rfl⟩ := List.getElem?_eq_some_iff.mp hi
  obtain ⟨hjl, rfl⟩ := List.getElem?_eq_some_iff.mp hj
  rcases Nat.lt_trichotomy i j with hlt | heq | hlt
  · exact absurd rfl (hpair i j hil hjl hlt x ha x hb)
  · exact heq
  · exact absurd rfl (hpair j i hjl hil hlt x hb x ha)

namespace Sound

/-- What the task and its new tasks hold was its own or was free. -/
theorem held_apart (h : Sound w) (ht : t ∈ w.tasks) (hp : Passed w t work works) (hu : u ∈ w.tasks)
    (hne : u.id ≠ t.id) (hx : x ∈ work.holds ++ works.flatMap Work.places) : x ∉ u.work.holds := by
  intro hxu
  rcases hp.held x hx with hx | ⟨_, hx⟩
  · exact hne (congrArg Task.id (h.held_one hu ht hxu hx))
  · exact hx u hu hxu

/-- Still no node stands for two tasks. -/
theorem held_one_moved {v : Task F α} (h : Sound w) (ht : t ∈ w.tasks) (hm : Moved w t work works w')
    (hp : Passed w t work works) (hroster : Roster w') (hu : u ∈ w'.tasks) (hv : v ∈ w'.tasks)
    (hxu : x ∈ u.work.holds) (hxv : x ∈ v.work.holds) : u = v := by
  have hmem {u : Task F α} := hm.mem (u := u) h.roster ht
  obtain ⟨_, hworks, hdisj⟩ := List.nodup_append.mp hp.nodup
  rcases hmem.mp hu with ⟨hu, hut⟩ | rfl | hu <;> rcases hmem.mp hv with ⟨hv, hvt⟩ | rfl | hv
  · exact h.held_one hu hv hxu hxv
  · exact absurd hxu (h.held_apart ht hp hu hut (List.mem_append_left _ hxv))
  · exact absurd hxu (h.held_apart ht hp hu hut (List.mem_append_right _ (hp.holds_new hv hxv)))
  · exact absurd hxv (h.held_apart ht hp hv hvt (List.mem_append_left _ hxu))
  · rfl
  · exact absurd rfl (hdisj x hxu x (hp.holds_new hv hxv))
  · exact absurd hxv (h.held_apart ht hp hv hvt (List.mem_append_right _ (hp.holds_new hu hxu)))
  · exact absurd rfl (hdisj x hxv x (hp.holds_new hu hxu))
  · refine hroster.id_inj (hmem.mpr (.inr (.inr hu))) (hmem.mpr (.inr (.inr hv))) ?_
    rw [(hp.of_new hu).2.2.2] at hxu
    rw [(hp.of_new hv).2.2.2] at hxv
    obtain ⟨i, hi, hidu, _⟩ := mem_number.mp hu
    obtain ⟨j, hj, hidv, _⟩ := mem_number.mp hv
    rw [hidu, hidv, index_unique hworks hi hj hxu hxv]

/-- A task goes on, and perhaps waits for new tasks. -/
theorem moved (h : Sound w) (ht : t ∈ w.tasks) (hm : Moved w t work works w')
    (hs : w'.scene = w.scene) (hp : Passed w t work works) : Sound w' := by
  have hmem {u : Task F α} := hm.mem (u := u) h.roster ht
  have hroster : Roster w' := h.roster.moved ht hm hp.calls fun _ => hp.not_errands
  obtain ⟨hwork, hworks, _⟩ := List.nodup_append.mp hp.nodup
  constructor
  case roster => exact hroster
  case linked => exact hs ▸ h.linked
  case unpainted =>
    intro u rs r hu hb hr
    rcases hmem.mp hu with ⟨hu, _⟩ | rfl | hu
    · exact h.unpainted hu hb hr
    · exact hp.unpainted rs hb r hr
    · obtain ⟨_, hk, _, _⟩ := hp.of_new hu
      rcases hp.fresh _ hk with ⟨r', hr', _⟩ | ⟨rs', hr', hnone⟩
      · rw [hb] at hr'
        cases hr'
      · rw [hb] at hr'
        cases hr'
        exact hnone r hr
  case held_lt =>
    intro u x hu hx
    rw [hs]
    have hlt : ∀ {x}, x ∈ work.holds ++ works.flatMap Work.places → x < w.scene.tree.next := by
      intro x hx
      exact (hp.held x hx).elim (h.held_lt ht) And.left
    rcases hmem.mp hu with ⟨hu, _⟩ | rfl | hu
    · exact h.held_lt hu hx
    · exact hlt (List.mem_append_left _ hx)
    · exact hlt (List.mem_append_right _ (hp.holds_new hu hx))
  case held_once =>
    intro u hu
    rcases hmem.mp hu with ⟨hu, _⟩ | rfl | hu
    · exact h.held_once hu
    · exact hwork
    · obtain ⟨_, hk, _, hholds⟩ := hp.of_new hu
      rw [hholds]
      exact (List.pairwise_flatMap.mp hworks).1 _ hk
  case held_one => exact h.held_one_moved ht hm hp hroster
  case younger =>
    intro u r o hu hr ho
    rcases hmem.mp hu with ⟨hu, _⟩ | rfl | hu
    · exact h.younger hu hr ho
    · exact hp.younger r o hr ho
    · obtain ⟨_, _, hnone, _⟩ := hp.of_new hu
      rw [hr] at hnone
      rw [show r.output? = none from hnone] at ho
      cases ho
  case apart =>
    intro u o x hu ho
    rw [hs]
    rcases hmem.mp hu with ⟨hu, _⟩ | rfl | hu
    · exact h.apart hu ho
    · exact hp.apart o x ho
    · obtain ⟨_, _, hnone, _⟩ := hp.of_new hu
      rw [hnone] at ho
      cases ho
  case home =>
    intro u p hu hpl
    have howner : ∀ {v}, v ∈ w.tasks → ∀ id ∈ v.owners, id < w.nextTask := by
      intro v hv id hid
      obtain ⟨v', hv', rfl, _⟩ := h.roster.suffix hv hid
      exact h.roster.id_lt hv'
    rcases hmem.mp hu with ⟨hu, _⟩ | rfl | hu
    · exact (h.home hu hpl).moved h.roster ht hm hs hp.run hp.output (howner hu)
    · exact (h.home ht (hp.places p hpl)).moved h.roster ht hm hs hp.run hp.output (howner ht)
    · obtain ⟨ho, hk, _, _⟩ := hp.of_new hu
      rw [ho]
      refine (hp.home _ hk p hpl).moved h.roster ht hm hs hp.run hp.output fun id hid => ?_
      rcases List.mem_cons.mp hid with rfl | hid
      · exact h.roster.id_lt ht
      · exact howner ht id hid
  case stored =>
    intro n c e hc he
    rw [hs] at hc ⊢
    exact h.stored hc he
  case planned =>
    intro u es e hu hes he
    rw [hs]
    rcases hmem.mp hu with ⟨hu, _⟩ | rfl | hu
    · exact h.planned hu hes he
    · exact hp.planned es hes e he
    · obtain ⟨_, hk, _, _⟩ := hp.of_new hu
      exact absurd (hes ▸ hk) hp.not_errands

/-- The tasks under way are the same but for some that left, for which nobody waits. -/
theorem left (h : Sound w) (hr : Roster w') (hs : w'.scene = w.scene)
    (hm : ∀ u, u ∈ w'.tasks → u ∈ w.tasks)
    (hkept : ∀ {t u}, t ∈ w'.tasks → u ∈ w.tasks → u.id ∈ t.owners → u ∈ w'.tasks) :
    Sound w' where
  roster := hr
  linked := hs ▸ h.linked
  unpainted hu := h.unpainted (hm _ hu)
  held_lt hu hx := hs ▸ h.held_lt (hm _ hu) hx
  held_once hu := h.held_once (hm _ hu)
  held_one hu hv := h.held_one (hm _ hu) (hm _ hv)
  younger hu := h.younger (hm _ hu)
  apart hu ho := hs ▸ h.apart (hm _ hu) ho
  home {t p} ht hp r hr hid hrun := by
    obtain ⟨u, hu, hin, huo, o, ho, hlt, hup⟩ := h.home (hm _ ht) hp r (hm _ hr) hid hrun
    exact ⟨u, hkept ht hu huo, hin, huo, o, ho, hlt, hs ▸ hup⟩
  stored hc he := by
    rw [hs] at hc ⊢
    exact h.stored hc he
  planned hu hes he := hs ▸ h.planned (hm _ hu) hes he

/-- The order of the tasks does not matter. -/
theorem perm (h : Sound w) (hm : ∀ u, u ∈ w'.tasks ↔ u ∈ w.tasks) (hs : w'.scene = w.scene)
    (hn : w'.nextTask = w.nextTask) (ho : w'.outcomes = w.outcomes) : Sound w' :=
  h.left (h.roster.perm hm hn ho) hs (fun u => (hm u).mp) fun _ hu _ => (hm _).mpr hu

theorem sameTasks (h : Sound w) (hw : SameTasks w w') (hs : w'.scene = w.scene) : Sound w' :=
  h.perm (fun _ => hw.tasks ▸ Iff.rfl) hs hw.next hw.outcomes

theorem dropped (h : Sound w) (hc : w.hasChildren t.id = false) (hs : w'.scene = w.scene)
    (htasks : w'.tasks = w.tasks.filter (·.id != t.id)) (hn : w'.nextTask = w.nextTask)
    (ho : ∀ j o, w'.outcomes.get? j = some o →
      w.outcomes.get? j = some o ∨ j = t.id ∧ t.id < w.nextTask) : Sound w' := by
  have hmem {u : Task F α} : u ∈ w'.tasks ↔ u ∈ w.tasks ∧ u.id ≠ t.id := by
    simp [htasks, List.mem_filter]
  refine h.left (h.roster.dropped hc htasks hn ho) hs (fun u hu => (hmem.mp hu).1) ?_
  intro v u hv hu hid
  exact hmem.mpr ⟨hu, fun he => h.roster.not_owner hc (hmem.mp hv).1 (he ▸ hid)⟩

theorem called (h : Sound w) (es : List (Errand F))
    (hes : ∀ e ∈ es, e.Known w.scene.tree.next) (hs : w'.scene = w.scene)
    (htasks : w'.tasks = w.tasks ++ [⟨w.nextTask, [], false, .errands es⟩])
    (hn : w'.nextTask = w.nextTask + 1) (ho : w'.outcomes = w.outcomes) : Sound w' := by
  have hmem {u : Task F α} : u ∈ w'.tasks ↔ u ∈ w.tasks ∨
      u = ⟨w.nextTask, [], false, .errands es⟩ := by
    simp [htasks]
  have hnone : Work.holds (F := F) (α := α) (.errands es) = [] := rfl
  constructor
  case roster => exact h.roster.called es htasks hn ho
  case linked => exact hs ▸ h.linked
  case unpainted =>
    intro u rs r hu hb
    rcases hmem.mp hu with hu | rfl
    · exact h.unpainted hu hb
    · cases hb
  case held_lt =>
    intro u x hu hx
    rcases hmem.mp hu with hu | rfl
    · exact hs ▸ h.held_lt hu hx
    · cases hx
  case held_once =>
    intro u hu
    rcases hmem.mp hu with hu | rfl
    · exact h.held_once hu
    · exact List.nodup_nil
  case held_one =>
    intro u v x hu hv hxu hxv
    rcases hmem.mp hu with hu | rfl
    · rcases hmem.mp hv with hv | rfl
      · exact h.held_one hu hv hxu hxv
      · cases hxv
    · cases hxu
  case younger =>
    intro u r o hu hr
    rcases hmem.mp hu with hu | rfl
    · exact h.younger hu hr
    · cases hr
  case apart =>
    intro u o x hu hout
    rcases hmem.mp hu with hu | rfl
    · exact hs ▸ h.apart hu hout
    · cases hout
  case home =>
    intro u p hu hp r hr hid hrun
    rcases hmem.mp hu with hu | rfl
    · rcases hmem.mp hr with hr | rfl
      · obtain ⟨v, hv, hin, hvo, o, hout, hlt, hup⟩ := h.home hu hp r hr hid hrun
        exact ⟨v, hmem.mpr (.inl hv), hin, hvo, o, hout, hlt, hs ▸ hup⟩
      · obtain ⟨r', hr'⟩ := hrun
        cases hr'
    · cases hp
  case stored =>
    intro n c e hc he
    rw [hs] at hc ⊢
    exact h.stored hc he
  case planned =>
    intro u es' e hu he hm
    rcases hmem.mp hu with hu | rfl
    · exact hs ▸ h.planned hu he hm
    · cases he
      exact hs ▸ hes e hm

end Sound

/-! New places have a home. -/

theorem homed_own (ht : t ∈ w.tasks) (ho : t.work.output? = some o) (hlt : o < p)
    (hq : ∀ q, w.scene.tree.parent? p = some q → q = o) : Homed w (t.id :: t.owners) p := by
  intro r hr hid _
  refine ⟨t, ht, Task.mem_owners_below.mp hid, List.mem_cons_self, o, ho, hlt, fun q hp => ?_⟩
  rw [hq q hp]
  exact .self

theorem homed_call (h : Roster w) (ht : t ∈ w.tasks) (hrun : ¬t.work.IsRun) (ho : t.owners = []) :
    Homed w (t.id :: t.owners) p := by
  intro r hr hid hr'
  rw [ho, List.mem_singleton] at hid
  exact absurd (h.id_inj hr ht hid ▸ hr') hrun

theorem homed_batch (h : Sound w) (ht : t ∈ w.tasks) (hrun : ¬t.work.IsRun)
    (hp : p ∈ t.work.places) : Homed w (t.id :: t.owners) p := by
  intro r hr hid hr'
  rcases List.mem_cons.mp hid with hid | hid
  · exact absurd (h.roster.id_inj hr ht hid ▸ hr') hrun
  · obtain ⟨u, hu, hin, huo, o, ho, hlt, hup⟩ := h.home ht hp r hr hid hr'
    exact ⟨u, hu, hin, List.mem_cons_of_mem _ huo, o, ho, hlt, hup⟩

theorem isRun_of_run (h : t.work = .run r) : t.work.IsRun := ⟨r, h⟩

theorem places_runs (rs : List (Run F α)) :
    (rs.map Work.run).flatMap Work.places = rs.map Run.place := by
  induction rs with
  | nil => rfl
  | cons r rs ih => simpa [Work.places] using ih

theorem places_batches (bs : List (List (Run F α))) :
    (bs.map Work.batch).flatMap Work.places = bs.flatten.map Run.place := by
  induction bs with
  | nil => rfl
  | cons b bs ih => simpa [Work.places] using ih

/-- A run goes on without another output. -/
theorem Passed.of_run (h : Sound w) (ht : t ∈ w.tasks) (hwork : t.work = .run r)
    {phase : Phase F α} (hphase : Run.output? { r with phase := phase } = r.output?)
    (hfresh : ∀ k ∈ works, (∃ r, k = .run r ∧ r.output? = none) ∨
      ∃ rs, k = .batch rs ∧ ∀ r ∈ rs, r.output? = none)
    (hhome : ∀ k ∈ works, ∀ p ∈ k.places, Homed w (t.id :: t.owners) p)
    (hnodup : (works.flatMap Work.places).Nodup)
    (hfree : ∀ x ∈ works.flatMap Work.places,
      x < w.scene.tree.next ∧ ∀ u ∈ w.tasks, x ∉ u.work.holds) :
    Passed w t (.run { r with phase := phase }) works := by
  have hholds : Work.holds (.run { r with phase := phase }) = t.work.holds := by
    rw [hwork]
    simp [Work.holds, Work.places, Work.output?, hphase]
  have hout : Work.output? (.run { r with phase := phase }) = t.work.output? := by
    rw [hwork]
    exact hphase
  constructor
  case run => exact fun _ => isRun_of_run hwork
  case calls => exact fun _ he => nomatch he
  case unpainted => exact fun _ he => nomatch he
  case planned => exact fun _ he => nomatch he
  case younger =>
    intro r' o hr' ho
    cases hr'
    exact h.younger (r := r) ht hwork (hphase ▸ ho)
  case places =>
    intro p hp
    rw [hwork]
    exact hp
  case output => exact fun o ho => hout.trans ho
  case apart => exact fun o x ho => h.apart ht (hout.symm.trans ho)
  case fresh => exact hfresh
  case home => exact hhome
  case nodup =>
    rw [hholds]
    refine List.nodup_append.mpr ⟨h.held_once ht, hnodup, ?_⟩
    rintro x hx y hy rfl
    exact (hfree x hy).2 t ht hx
  case held =>
    intro x hx
    rw [hholds] at hx
    exact (List.mem_append.mp hx).imp_right (hfree x)

/-- A run creates its output, the next node of the tree. -/
theorem Passed.begins (h : Sound w) (ht : t ∈ w.tasks) (hwork : t.work = .run r)
    (hfresh : r.output? = none) {phase : Phase F α}
    (hout : Run.output? { r with phase := phase } = some w.scene.tree.next)
    (hsc : ∃ item, sc.tree = (w.scene.tree.create item).1) :
    Passed { w with scene := sc } t (.run { r with phase := phase }) [] := by
  obtain ⟨item, hsc⟩ := hsc
  have hplace : r.place ∈ t.work.places := by simp [hwork, Work.places]
  have hlt : r.place < w.scene.tree.next := h.place_lt ht hplace
  have hholds : Work.holds (.run { r with phase := phase }) = [r.place, w.scene.tree.next] := by
    simp [Work.holds, Work.places, Work.output?, hout]
  have hroot : ∀ x, w.scene.tree.next ∉ sc.tree.children x := by
    intro x hm
    rw [hsc, Tree.children_create] at hm
    split at hm
    · cases hm
    · exact Nat.lt_irrefl _ (h.linked.listed_lt hm)
  constructor
  case run => exact fun _ => isRun_of_run hwork
  case calls => exact fun _ he => nomatch he
  case unpainted => exact fun _ he => nomatch he
  case planned => exact fun _ he => nomatch he
  case younger =>
    intro r' o hr' ho
    cases hr'
    exact Option.some.inj (hout.symm.trans ho) ▸ hlt
  case places =>
    intro p hp
    rw [hwork]
    exact hp
  case output =>
    intro o ho
    rw [hwork] at ho
    exact absurd (hfresh.symm.trans ho) nofun
  case apart => exact fun o x ho => Option.some.inj (hout.symm.trans ho) ▸ hroot x
  case fresh => simp
  case home => simp
  case nodup => simpa [hholds] using Nat.ne_of_lt hlt
  case held =>
    intro x hx
    simp only [hholds, List.flatMap_nil, List.append_nil, List.mem_cons, List.not_mem_nil,
      or_false] at hx
    rcases hx with rfl | rfl
    · exact .inl (mem_holds_of_place hplace)
    · refine .inr ⟨?_, fun u hu => h.free_of_fresh (Nat.le_refl _) hu⟩
      exact hsc ▸ Nat.lt_succ_self _

/-- A task that is no run has other work that is none. -/
theorem Passed.of_rest (hrun : ¬work.IsRun)
    (hout : t.work.output? = none)
    (hcalls : ∀ es, work = .errands es → t.owners = [] ∧ ∀ e ∈ es, e.Known w.scene.tree.next)
    (hplaces : work.places = [])
    (hfresh : ∀ k ∈ works, (∃ r, k = .run r ∧ r.output? = none) ∨
      ∃ rs, k = .batch rs ∧ ∀ r ∈ rs, r.output? = none)
    (hhome : ∀ k ∈ works, ∀ p ∈ k.places, Homed w (t.id :: t.owners) p)
    (hnodup : (works.flatMap Work.places).Nodup)
    (hheld : ∀ x ∈ works.flatMap Work.places,
      x ∈ t.work.holds ∨ x < w.scene.tree.next ∧ ∀ u ∈ w.tasks, x ∉ u.work.holds) :
    Passed w t work works := by
  have hnone : work.output? = none := by
    cases work with
    | run r => exact absurd ⟨r, rfl⟩ hrun
    | batch rs => rfl
    | errands es => rfl
  have hholds : work.holds = [] := by
    simp [Work.holds, hplaces, hnone]
  constructor
  case run => exact fun hr => absurd hr hrun
  case calls => exact fun es he => (hcalls es he).1
  case unpainted =>
    rintro rs rfl r hr
    have := List.map_eq_nil_iff.mp hplaces
    rw [this] at hr
    cases hr
  case planned => exact fun es he => (hcalls es he).2
  case younger => exact fun r o hr => absurd ⟨r, hr⟩ hrun
  case places => simp [hplaces]
  case output => simp [hout]
  case apart => simp [hnone]
  case fresh => exact hfresh
  case home => exact hhome
  case nodup => simpa [hholds] using hnodup
  case held => simpa [hholds] using hheld

/-- A call goes on with the errands that are left, and waits for what was taken up anew. -/
theorem Passed.of_call (h : Sound w) (ht : t ∈ w.tasks) {es es' : List (Errand F)}
    (hwork : t.work = .errands es) (hes : ∀ e ∈ es', e.Known w.scene.tree.next)
    (hfresh : ∀ k ∈ works, (∃ r, k = .run r ∧ r.output? = none) ∨
      ∃ rs, k = .batch rs ∧ ∀ r ∈ rs, r.output? = none)
    (hnodup : (works.flatMap Work.places).Nodup)
    (hfree : ∀ x ∈ works.flatMap Work.places,
      x < w.scene.tree.next ∧ ∀ u ∈ w.tasks, x ∉ u.work.holds) :
    Passed w t (.errands es') works := by
  have hcall : t.owners = [] := h.roster.calls ht hwork
  refine .of_rest (not_isRun (by simp)) (by rw [hwork]; rfl) ?_ rfl hfresh ?_ hnodup
    fun x hx => .inr (hfree x hx)
  · intro es'' he
    cases he
    exact ⟨hcall, hes⟩
  · exact fun k _ p _ => homed_call h.roster ht (not_isRun (by simp [hwork])) hcall

namespace Sound

section Settling

variable [LawfulMedium α]

/-- A failure takes a place, or leaves nothing. -/
theorem filled (h : Sound w) (hp : p < w.scene.tree.next) (e : Error) (offending : Option Value) :
    Sound { w with scene := w.scene.fillWithError p e offending } := by
  obtain ⟨_, _, hclicks⟩ := Scene.fillWithError_frame (s := w.scene) (p := p) e offending
  cases Scene.fillWithError_filled e offending h.linked hp with
  | @kept q t₁ attached root spliced =>
    have h₁ : Sound { w with scene := { w.scene with tree := t₁ } } :=
      h.grown _ (.of_tree root.grown)
    refine Sound.spliced (w := { w with scene := { w.scene with tree := t₁ } }) h₁ spliced ?_ hclicks
    intro u hu hm
    exact Nat.lt_irrefl _ (h.held_lt hu hm)
  | lost root _ pruned =>
    exact h.rescene _ (root.grown.steady.trans pruned.steady) fun hc => .inl (hclicks hc)

omit [LawfulMedium α] in
/-- An output takes a place, or is removed. -/
theorem finished (h : Sound w) (hlt : p < o) (hroot : w.scene.tree.parent? o = none)
    (hgiven : o < w.scene.tree.next) (hfree : ∀ u ∈ w.tasks, o ∉ u.work.holds)
    (prov : Provenance F) : Sound { w with scene := w.scene.finish p o prov } := by
  obtain ⟨htree, _, hclicks, _⟩ := Scene.finish_frame w.scene p o prov
  have hkept : ∀ {n c}, (w.scene.finish p o prov).clicks.get? n = some c →
      w.scene.clicks.get? n = some c := by
    intro n c hc
    rw [hclicks] at hc
    exact Scene.clicks_splice hc
  cases hq : w.scene.tree.parent? p with
  | none =>
    refine h.rescene _ ?_ fun hc => .inl (hkept hc)
    rw [htree, Scene.splice_of_detached hq]
    exact (Tree.Pruned.remove h.linked o).steady
  | some q =>
    have hready : w.scene.tree.Ready p q o := ⟨h.linked, hq, hroot, hlt, hgiven⟩
    have hs := (Scene.splice_of_ready hready).2
    rw [← htree] at hs
    exact h.spliced hs hfree hkept

end Settling

/-- Places are reserved. -/
theorem reserved {d : NodeId} {rs : List (Run F α)} (h : Sound w)
    (hr : Reserves d w.scene sc rs) : Sound { w with scene := sc } :=
  h.rescene sc hr.steady hr.clicks

theorem free_of_reserved {d : NodeId} {rs : List (Run F α)} (h : Sound w)
    (hr : Reserves d w.scene sc rs) (hx : x ∈ rs.map Run.place) :
    x < sc.tree.next ∧ ∀ u ∈ w.tasks, x ∉ u.work.holds := by
  obtain ⟨r, hm, rfl⟩ := List.mem_map.mp hx
  exact ⟨(hr.fresh r hm).2, fun u hu => h.free_of_fresh (hr.fresh r hm).1 hu⟩

/-- A run waits for runs in its output. -/
theorem nested {rs : List (Run F α)} (h : Sound w) (ht : t ∈ w.tasks) (hwork : t.work = .run r)
    (ho : r.output? = some o) {phase : Phase F α}
    (hphase : Run.output? { r with phase := phase } = some o)
    (hr : Reserves o w.scene w'.scene rs)
    (hm : Moved w t (.run { r with phase := phase }) works w')
    (hplaces : works.flatMap Work.places = rs.map Run.place ∨ works = [])
    (hfresh : ∀ k ∈ works, (∃ r, k = .run r ∧ r.output? = none) ∨
      ∃ rs, k = .batch rs ∧ ∀ r ∈ rs, r.output? = none) : Sound w' := by
  have h' := h.reserved hr
  have hsub : ∀ {x}, x ∈ works.flatMap Work.places → x ∈ rs.map Run.place := by
    intro x hx
    rcases hplaces with hpl | rfl
    · exact hpl ▸ hx
    · cases hx
  have hnodup : (works.flatMap Work.places).Nodup := by
    rcases hplaces with hpl | rfl
    · exact hpl ▸ hr.nodup
    · exact List.nodup_nil
  refine h'.moved (w := { w with scene := w'.scene }) ht
    ⟨hm.tasks, hm.next, hm.outcomes, hm.finished⟩ rfl ?_
  refine .of_run h' ht hwork (hphase.trans ho.symm) hfresh ?_ hnodup
    fun x hx => h.free_of_reserved hr (hsub hx)
  intro k hk p hp
  obtain ⟨r', hr', rfl⟩ := List.mem_map.mp (hsub (List.mem_flatMap.mpr ⟨k, hk, hp⟩))
  refine homed_own (w := { w with scene := w'.scene }) ht (hwork ▸ ho) ?_ (hr.parent r' hr')
  exact Nat.lt_of_lt_of_le (h.output_lt ht (hwork ▸ ho)) (hr.fresh r' hr').1

end Sound

theorem fresh_runs {rs : List (Run F α)} (h : ∀ r ∈ rs, r.output? = none) :
    ∀ k ∈ rs.map Work.run, (∃ r, k = .run r ∧ r.output? = none) ∨
      ∃ rs, k = .batch rs ∧ ∀ r ∈ rs, r.output? = none := by
  intro k hk
  obtain ⟨r, hr, rfl⟩ := List.mem_map.mp hk
  exact .inl ⟨r, rfl, h r hr⟩

theorem fresh_batches {bs : List (List (Run F α))} (h : ∀ r ∈ bs.flatten, r.output? = none) :
    ∀ k ∈ bs.map Work.batch, (∃ r, k = .run r ∧ r.output? = none) ∨
      ∃ rs, k = .batch rs ∧ ∀ r ∈ rs, r.output? = none := by
  intro k hk
  obtain ⟨b, hb, rfl⟩ := List.mem_map.mp hk
  exact .inr ⟨b, rfl, fun r hr => h r (List.mem_flatten.mpr ⟨b, hb, hr⟩)⟩

theorem Drawn.grown {s s' : Scene F α} {st : Step F α} (h : Drawn o s st s') (hl : s.tree.Linked)
    (ho : o < s.tree.next) : Scene.Grown (some o) s s' := by
  cases h with
  | plant rose => exact .of_tree (.plant rose hl ho)
  | mark m => exact .of_tree (.modify hl o _)
  | onClick events => exact .click hl (by simp)

namespace Sound

/-! What is taken up in a step. -/

theorem takes_own (h : Sound w) (ht : t ∈ w.tasks) (ho : t.work.output? = some o)
    (s : Setup F α) (around : Surroundings) (raw : RawConfig F) :
    Takes o w.scene (w.takeUpRaw s o around raw).1.scene (w.takeUpRaw s o around raw).2 :=
  takes_takeUpAll around (raw.normalize s.engine) h.linked (h.output_lt ht ho)

theorem takesList_own (h : Sound w) (ht : t ∈ w.tasks) (ho : t.work.output? = some o)
    (s : Setup F α) {page : Page F} (own : page.more = none) :
    TakesList o none w.scene (w.takeUpList s o page false).1.scene
      (w.takeUpList s o page false).2 := by
  have hlt := h.output_lt ht ho
  exact own ▸ takes_takeUpList s page false h.linked hlt (by simpa [own] using hlt)

theorem takesList_turn (h : Sound w) (ht : t ∈ w.tasks) {wrapper d : NodeId} {page : Page F}
    {all : Bool} {es : List (Errand F)} (hwork : t.work = .errands (.turn wrapper d page all :: es))
    (s : Setup F α) :
    TakesList d page.more (w.scene.discard wrapper)
      ((w.discard wrapper).takeUpList s d page all).1.scene
      ((w.discard wrapper).takeUpList s d page all).2 := by
  obtain ⟨hd, hm⟩ : Errand.Known w.scene.tree.next (.turn wrapper d page all) :=
    h.planned ht hwork List.mem_cons_self
  have hpruned := Tree.Pruned.remove h.linked wrapper
  exact takes_takeUpList (w := w.discard wrapper) s page all hpruned.after
    (hpruned.next.symm ▸ hd) (hpruned.next.symm ▸ hm)

theorem lost (h : Sound w) (ht : t ∈ w.tasks) (hc : w.hasChildren t.id = false) {e : Outcome}
    (hs : Settled w t e w') : Sound { w' with scene := w.scene } := by
  refine h.dropped (t := t) hc rfl hs.tasks hs.next fun j o hj => ?_
  have hj : w'.outcomes.get? j = some o := hj
  rw [hs.outcomes, Table.get?_insert] at hj
  split at hj
  · exact .inr ⟨‹_›, h.roster.id_lt ht⟩
  · exact .inl hj

/-- Once its task is gone, nobody holds what it held. -/
theorem free_of_lost (h : Sound w) (ht : t ∈ w.tasks) {e : Outcome} (hs : Settled w t e w')
    (hx : x ∈ t.work.holds) : ∀ u ∈ w'.tasks, x ∉ u.work.holds := by
  intro u hu hm
  have hold := (List.mem_filter.mp (hs.tasks ▸ hu)).1
  exact hs.ne_of_mem hu (congrArg Task.id (h.held_one ht hold hx hm)).symm

variable [LawfulMedium α]

/-- Every turn of a task keeps a renderer sound. -/
theorem turn (h : Sound w) (ht : t ∈ w.tasks) (hc : w.hasChildren t.id = false)
    (hturn : Turn s w t w') : Sound w' := by
  cases hturn with
  | waits r phase work output scene moved =>
    refine h.moved ht moved scene (.of_run h ht work output ?_ ?_ ?_ ?_) <;> simp
  | begins r phase shape work fresh output scene moved =>
    have hg : Scene.Grown none w.scene w'.scene := scene ▸ .of_tree (.create h.linked _)
    exact (h.grown _ hg).moved (w := { w with scene := w'.scene }) ht
      ⟨moved.tasks, moved.next, moved.outcomes, moved.finished⟩ rfl
      (.begins h ht work fresh output ⟨_, congrArg Scene.tree scene⟩)
  | draws r o phase work painting output step script drawn moved =>
    have ho : t.work.output? = some o := work ▸ painting
    have h' := h.grown _ (drawn.grown h.linked (h.output_lt ht ho))
    refine h'.moved (w := { w with scene := w'.scene }) ht
      ⟨moved.tasks, moved.next, moved.outcomes, moved.finished⟩ rfl
      (.of_run h' ht work (output.trans painting.symm) ?_ ?_ ?_ ?_) <;> simp
  | nests r o phase raw around work painting output script scene moved =>
    have ho : t.work.output? = some o := work ▸ painting
    have hr := (h.takes_own ht ho s around raw).reserves
    exact h.nested ht work painting output (scene ▸ hr) moved (.inl (places_runs _))
      (fresh_runs hr.unpainted)
  | starts r o phase raw around work painting output script scene moved =>
    have ho : t.work.output? = some o := work ▸ painting
    have hr := (h.takes_own ht ho s around raw).reserves
    exact h.nested ht work painting output (scene ▸ hr) moved (.inr rfl) (by simp)
  | lists r o phase page work painting output script own scene moved =>
    have ho : t.work.output? = some o := work ▸ painting
    have hr := (h.takesList_own ht ho s own).reserves
    exact h.nested ht work painting output (scene ▸ hr) moved (.inl (places_batches _))
      (fresh_batches hr.unpainted)
  | skips r work fresh scene settled =>
    have h' := (h.lost ht hc settled).rescene (w.scene.skip r.place)
      (Scene.skip_steady h.linked).steady fun hc => .inl hc
    exact h'.sameTasks ⟨rfl, rfl, rfl, rfl⟩ scene
  | fails r e offending o work fresh wrong scene settled =>
    have hp : r.place < w.scene.tree.next := h.place_lt (t := t) ht (by simp [work, Work.places])
    have h' := (h.lost ht hc settled).filled hp e offending
    exact h'.sameTasks ⟨rfl, rfl, rfl, rfl⟩ scene
  | abandons r o e work painting scene settled =>
    have hp : r.place < w.scene.tree.next := h.place_lt (t := t) ht (by simp [work, Work.places])
    have hpruned := Tree.Pruned.remove h.linked o
    have h₁ := (h.lost ht hc settled).rescene (w.scene.discard o) hpruned.steady fun {n c} hc =>
      .inl (Scene.clicks_of_discard hc)
    have h₂ := h₁.filled (p := r.place) (hpruned.next.symm ▸ hp) e none
    exact h₂.sameTasks ⟨rfl, rfl, rfl, rfl⟩ scene
  | completes r o p work painting scene settled =>
    have ho : t.work.output? = some o := work ▸ painting
    have hg := Scene.Grown.decorate (o := o) h.linked s.settings r.resolved.name? p r.context
    have h₁ := (h.lost ht hc settled).grown _ hg
    have hlt := h.output_lt ht ho
    have hfree := h.free_of_lost ht settled (mem_holds_of_output ho)
    have h₂ := h₁.finished (h.younger ht work painting)
      ((hg.tree.parent hlt).trans (h.output_root ht ho)) (Nat.lt_of_lt_of_le hlt hg.tree.next_le)
      hfree (r.provenance p)
    exact h₂.sameTasks ⟨rfl, rfl, rfl, rfl⟩ scene
  | expands rs work scene moved =>
    have hrun : ¬t.work.IsRun := not_isRun (by simp [work])
    refine h.moved ht moved scene (.of_rest (not_isRun (by simp)) ?_ ?_ rfl ?_ ?_ ?_ ?_)
    · rw [work]
      rfl
    · exact fun es he => nomatch he
    · exact fresh_runs fun r hr => h.unpainted ht work hr
    · intro k hk p hp
      refine homed_batch h ht hrun ?_
      rw [work, Work.places, ← places_runs]
      exact List.mem_flatMap.mpr ⟨k, hk, hp⟩
    · rw [places_runs]
      have := h.held_once ht
      simpa [work, Work.holds, Work.places, Work.output?] using this
    · intro x hx
      rw [places_runs] at hx
      exact .inl (mem_holds_of_place (work ▸ hx))
  | passes e es work scene moved =>
    have hes : ∀ e ∈ es, e.Known w.scene.tree.next := fun e he =>
      h.planned ht work (List.mem_cons_of_mem _ he)
    exact h.moved ht moved scene (.of_call h ht work hes (by simp) (by simp) (by simp))
  | turns wrapper container page all es work scene moved =>
    have h₁ : Sound (w.discard wrapper) :=
      h.rescene (w.scene.discard wrapper) (Tree.Pruned.remove h.linked wrapper).steady fun hc =>
        .inl (Scene.clicks_of_discard hc)
    have hr := (h.takesList_turn ht work s).reserves
    rw [← scene] at hr
    have h₂ := h₁.reserved hr
    have hes : ∀ e ∈ es, e.Known w'.scene.tree.next := fun e he =>
      h₂.planned (t := t) ht work (List.mem_cons_of_mem _ he)
    refine h₂.moved (w := { w with scene := w'.scene }) ht
      ⟨moved.tasks, moved.next, moved.outcomes, moved.finished⟩ rfl
      (.of_call h₂ ht work hes (fresh_batches hr.unpainted) ?_ fun x hx => ?_)
    · rw [places_batches]
      exact hr.nodup
    · rw [places_batches] at hx
      exact h₁.free_of_reserved hr hx
  | ends work scene ended =>
    exact h.dropped hc scene ended.tasks ended.next fun j o hj => .inl (ended.outcomes ▸ hj)

end Sound

namespace Sound

/-- A call is entered with the work that it waits for. -/
theorem opened (h : Sound w) (es : List (Errand F))
    (hes : ∀ e ∈ es, e.Known w.scene.tree.next)
    (hfresh : ∀ k ∈ works, (∃ r, k = .run r ∧ r.output? = none) ∨
      ∃ rs, k = .batch rs ∧ ∀ r ∈ rs, r.output? = none)
    (hnodup : (works.flatMap Work.places).Nodup)
    (hfree : ∀ x ∈ works.flatMap Work.places,
      x < w.scene.tree.next ∧ ∀ u ∈ w.tasks, x ∉ u.work.holds) :
    Sound (w.openCall works es).1 := by
  have h' : Sound (w.enter es) := h.called es hes rfl rfl rfl rfl
  refine h'.moved (mem_enter es) (h.roster.opened es works) rfl
    (.of_call h' (mem_enter es) rfl hes hfresh hnodup fun x hx => ?_)
  refine ⟨(hfree x hx).1, fun u hu => ?_⟩
  rcases List.mem_append.mp hu with hu | hu
  · exact (hfree x hx).2 u hu
  · rw [List.mem_singleton.mp hu]
    exact List.not_mem_nil

/-- A call is entered for configs that were taken up. -/
theorem opened_reserved {v : World F α} {d : NodeId} {rs : List (Run F α)} (h : Sound w)
    (hv : SameTasks w v) (hr : Reserves d w.scene v.scene rs)
    (hplaces : works.flatMap Work.places = rs.map Run.place)
    (hfresh : ∀ k ∈ works, (∃ r, k = .run r ∧ r.output? = none) ∨
      ∃ rs, k = .batch rs ∧ ∀ r ∈ rs, r.output? = none) : Sound (v.openCall works []).1 := by
  have h' : Sound v := (h.reserved hr).sameTasks ⟨hv.tasks, hv.next, hv.outcomes, hv.finished⟩ rfl
  refine h'.opened [] (by simp) hfresh (hplaces ▸ hr.nodup) fun x hx => ?_
  obtain ⟨hlt, hfree⟩ := h.free_of_reserved hr (hplaces ▸ hx)
  exact ⟨hlt, hv.tasks ▸ hfree⟩

variable [LawfulMedium α]

/-- Every act keeps a renderer sound. -/
theorem act {a : Act F α} (h : Sound w) (ha : a.Known w.scene.tree.next)
    (hact : w.act s a = some w') : Sound w' := by
  cases a with
  | render d raw data context =>
    cases hact
    have hr := (takes_takeUpAll (w := w) ⟨data, context, none⟩ (raw.normalize s.engine) h.linked
      ha).reserves
    exact h.opened_reserved (sameTasks_takeUpAll d _ _) hr (places_runs _) (fresh_runs hr.unpainted)
  | renderConfig d c data context =>
    cases hact
    have hr := (takes_takeUp (w := w) h.linked ha ⟨data, context, none⟩ c).reserves
    exact h.opened_reserved (v := (w.takeUp d ⟨data, context, none⟩ c).1) ⟨rfl, rfl, rfl, rfl⟩ hr
      (places_runs _) (fresh_runs hr.unpainted)
  | renderList d page =>
    cases hact
    have hr := (takes_takeUpList (w := w) s page false h.linked ha.1 ha.2).reserves
    exact h.opened_reserved (sameTasks_takeUpList d page false) hr (places_batches _)
      (fresh_batches hr.unpainted)
  | click n =>
    simp only [World.act, World.click] at hact
    split at hact
    · cases hact
      exact h.opened [] (by simp) (by simp) (by simp) (by simp)
    · rename_i c hc
      cases hact
      have h' : Sound { w with reported := c.events.reverse ++ w.reported } :=
        h.sameTasks ⟨rfl, rfl, rfl, rfl⟩ rfl
      exact h'.opened c.errands (fun e he => h.stored hc he) (by simp) (by simp) (by simp)
  | discard n =>
    cases hact
    exact h.rescene (w.scene.discard n) (Tree.Pruned.remove h.linked n).steady fun hc =>
      .inl (Scene.clicks_of_discard hc)
  | create item =>
    cases hact
    exact h.grown _ (.of_tree (.create h.linked item))
  | plant d rose =>
    cases hact
    exact h.grown _ (.of_tree (.plant rose h.linked ha))
  | mark n m =>
    cases hact
    exact h.grown _ (.of_tree (.modify h.linked n _))
  | popup n =>
    cases hact
    exact h.rescene { w.scene with popup := n } (Tree.Grown.refl h.linked none).steady .inl
  | define v =>
    simp only [World.act] at hact
    split at hact
    · cases hact
      exact h.sameTasks ⟨rfl, rfl, rfl, rfl⟩ rfl
    · cases hact
  | release g =>
    cases hact
    exact h.perm (fun u => mem_release g) rfl rfl rfl
  | note ts =>
    cases hact
    obtain ⟨hs, ht⟩ := noteWaiting_frame (w := w) ts
    exact h.sameTasks ht hs
  | step id =>
    obtain ⟨t, ht, hid, hc, hturn⟩ := turn_of_step hact
    exact h.turn ht (hid ▸ hc) hturn

omit [LawfulMedium α] in
theorem start (registry : Registry F) {tree : Tree α} (h : tree.Linked) :
    Sound (World.start registry tree) where
  roster := {
    id_lt := fun ht => nomatch ht
    id_inj := fun ht => nomatch ht
    owned := fun ht => nomatch ht
    calls := fun ht => nomatch ht
    settled := fun ho => nomatch ho }
  linked := h
  unpainted ht := nomatch ht
  held_lt ht := nomatch ht
  held_once ht := nomatch ht
  held_one ht := nomatch ht
  younger ht := nomatch ht
  apart ht := nomatch ht
  home ht := nomatch ht
  stored hc := nomatch hc
  planned ht := nomatch ht

end Sound

/-- Whatever happens to a renderer, it stays sound. -/
theorem Sound.history [LawfulMedium α] {u : World F α} {es : List (World F α × Act F α)}
    {P : World F α → Act F α → Prop} (h : History s P u es w) (hu : Sound u)
    (hP : ∀ v a, P v a → a.Known v.scene.tree.next) : Sound w :=
  h.invariant hu fun v a _ hv ok next => hv.act (hP v a ok) next

end World

end Montage
