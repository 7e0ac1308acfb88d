import Montage.Proofs.Render.Nesting
import Montage.Proofs.Render.Tasks

/-!
Renderings that are carried on. Gates open as a clock has it, and nothing else is done to the renderer.
Main statements: in such a course a task does its job or an epoch begins, and as long as there are tasks
one of them waits for no other.
-/

namespace Montage

variable {F α : Type} [Medium α]

/-- Carries a task on. -/
def Act.isStep : Act F α → Bool
  | .step _ => true
  | _ => false

namespace World

variable {s : Setup F α} {registry : Registry F} {c : Clock} {w w' : World F α} {t u : Task F α}
  {a : Act F α}

/-- A renderer that keeps to a clock and has nothing under way but renderings. -/
structure Course (registry : Registry F) (c : Clock) (w : World F α) : Prop where
  orderly : Orderly w
  registry : w.registry = registry
  fits : c.Fits w.opened
  plain : ∀ {t}, t ∈ w.tasks → ∀ e es, t.work ≠ .errands (e :: es)

/-- Nothing happens to nodes and tasks, apart from the order of the tasks. -/
structure Stays (w w' : World F α) : Prop where
  mem : ∀ u, u ∈ w'.tasks ↔ u ∈ w.tasks
  scene : w'.scene = w.scene
  next : w'.nextTask = w.nextTask
  outcomes : w'.outcomes = w.outcomes
  finished : w'.finished = w.finished

/-- What can happen to renderings: one of them takes a turn, or a gate opens and perhaps begins an
epoch. -/
inductive Proceeds (s : Setup F α) (c : Clock) (w w' : World F α) : Act F α → Prop
  | steps {t : Task F α} (mem : t ∈ w.tasks) (alone : w.hasChildren t.id = false)
      (works : Works s w t w') : Proceeds s c w w' (.step t.id)
  | stays {a : Act F α} (other : a.isStep = false) (stays : Stays w w')
      (registry : w'.registry = w.registry) (fits : c.Fits w'.opened)
      (epoch : c.epoch w'.opened = c.epoch w.opened) : Proceeds s c w w' a
  | opens {a : Act F α} (other : a.isStep = false) (stays : Stays w w')
      (registry : w'.registry = w.registry) (fits : c.Fits w'.opened) (stalled : w.Stalled s)
      (epoch : c.epoch w'.opened = c.epoch w.opened + 1)
      (told : ∀ opened, c.Allows (c.epoch w.opened) opened → opened = w.opened) :
      Proceeds s c w w' a

namespace Course

theorem proceeds (h : Course registry c w) (ha : a.Keeps s c w) (hact : w.act s a = some w') :
    Proceeds s c w w' a := by
  cases a with
  | step id =>
    obtain ⟨t, ht, rfl, hc, _⟩ := turn_of_step hact
    exact .steps ht hc (works_of_step h.orderly.sound ht (h.plain ht) hact)
  | note ts =>
    cases hact
    obtain ⟨waiting, hw⟩ := noteWaiting_eq (w := w) ts
    rw [hw]
    exact .stays rfl ⟨fun _ => .rfl, rfl, rfl, rfl, rfl⟩ rfl h.fits rfl
  | release g =>
    cases hact
    have hstays : Stays w (w.release g).1 := ⟨fun _ => mem_release g, rfl, rfl, rfl, rfl⟩
    obtain ⟨hfits, hsame | ⟨hstalled, hnext, htold⟩⟩ := Clock.epoch_of_release ha h.fits
    · exact .stays rfl hstays rfl hfits hsame
    · exact .opens rfl hstays rfl hfits hstalled hnext htold
  | _ => exact ha.elim

/-- Renderings work on no nodes but their own. -/
theorem targets (h : Course registry c w) (ha : a.Keeps s c w) : a.targets w = [] := by
  cases a with
  | step id =>
    have hplain : ∀ e es, (w.task? id).map Task.work ≠ some (.errands (e :: es)) := by
      intro e es hmap
      obtain ⟨t, ht, hwork⟩ := Option.map_eq_some_iff.mp hmap
      exact h.plain (task?_eq_some ht).1 e es hwork
    simp only [Act.targets, Act.containers, Act.discarded]
    generalize (w.task? id).map Task.work = k at hplain
    rcases k with _ | (r | rs | (_ | ⟨e, es⟩))
    · rfl
    · rfl
    · rfl
    · rfl
    · exact absurd rfl (hplain e es)
  | release g => rfl
  | note ts => rfl
  | _ => exact ha.elim

theorem proper (h : Course registry c w) (ha : a.Keeps s c w) : a.IsProper w := by
  refine ⟨ha.known _, fun n hn => ?_⟩
  rw [h.targets ha] at hn
  cases hn

/-- Whatever is carried on is a course again. -/
theorem act [LawfulMedium α] (h : Course registry c w) (ha : a.Keeps s c w)
    (hact : w.act s a = some w') : Course registry c w' := by
  have horderly := h.orderly.act (h.proper ha) hact
  cases h.proceeds ha hact with
  | stays other stays registry fits epoch =>
    exact ⟨horderly, registry.trans h.registry, fits, fun hu => h.plain ((stays.mem _).mp hu)⟩
  | opens other stays registry fits stalled epoch told =>
    exact ⟨horderly, registry.trans h.registry, fits, fun hu => h.plain ((stays.mem _).mp hu)⟩
  | steps mem alone works =>
    cases works with
    | goes work works draw turn moved draws carries house =>
      refine ⟨horderly, house.registry.trans h.registry, house.opened.symm ▸ h.fits, ?_⟩
      intro u hu
      rcases (moved.mem h.orderly.sound.roster mem).mp hu with ⟨hu, _⟩ | rfl | hu
      · exact h.plain hu
      · exact fun e es => carries.plain (e :: es)
      · obtain ⟨i, hi, _⟩ := mem_number.mp hu
        exact fun e es => (carries.fresh _ (List.mem_of_getElem? hi)).2 (e :: es)
    | ends outcome left turn tasks next outcomes finished leaves house =>
      refine ⟨horderly, house.registry.trans h.registry, house.opened.symm ▸ h.fits, ?_⟩
      intro u hu
      rw [tasks] at hu
      exact h.plain (List.mem_filter.mp hu).1

/-- At the end of an order no gate opens. -/
theorem opened_of_last (h : Course registry c w) (hlast : c.Last w.opened) (ha : a.Keeps s c w)
    (hact : w.act s a = some w') : w'.opened = w.opened := by
  cases a with
  | step id =>
    cases h.proceeds ha hact with
    | steps mem alone works =>
      cases works with
      | goes work works draw turn moved draws carries house => exact house.opened
      | ends outcome left turn tasks next outcomes finished leaves house => exact house.opened
    | stays other => cases other
    | opens other => cases other
  | note ts =>
    cases hact
    obtain ⟨waiting, hw⟩ := noteWaiting_eq (w := w) ts
    rw [hw]
  | release g =>
    cases hact
    obtain ⟨hfits, hepoch⟩ := Clock.epoch_of_release ha h.fits
    exact hlast (by rcases hepoch with hsame | ⟨_, hnext, _⟩ <;> omega) hfits
  | _ => exact ha.elim

end Course

/-! Tasks from the innermost out. -/

/-- What a task waits for has it as its first owner. -/
theorem Roster.child_owners (h : Roster w) (ht : t ∈ w.tasks) (hu : u ∈ w.tasks)
    (ho : u.owner? = some t.id) : u.owners = t.id :: t.owners := by
  cases hos : u.owners with
  | nil =>
    rw [Task.owner?, hos] at ho
    cases ho
  | cons o os =>
    rw [Task.owner?, hos] at ho
    obtain ⟨v, hv, hvid, hvo⟩ := h.owned hu hos
    have hid : o = t.id := Option.some.inj ho
    rw [h.id_inj hv ht (hvid.trans hid)] at hvo
    rw [hid, hvo]

/-- What holds of a task if it holds of all that it waits for holds of every task. -/
theorem Roster.inward {P : Task F α → Prop} (h : Roster w)
    (step : ∀ t ∈ w.tasks, (∀ u ∈ w.tasks, u.owner? = some t.id → P u) → P t) :
    ∀ t ∈ w.tasks, P t := by
  have hbound : ∃ depth, ∀ t ∈ w.tasks, t.owners.length ≤ depth := by
    generalize w.tasks = ts
    induction ts with
    | nil => exact ⟨0, by simp⟩
    | cons t ts ih =>
      obtain ⟨depth, hdepth⟩ := ih
      refine ⟨max t.owners.length depth, List.forall_mem_cons.mpr ⟨Nat.le_max_left .., ?_⟩⟩
      exact fun u hu => Nat.le_trans (hdepth u hu) (Nat.le_max_right ..)
  obtain ⟨depth, hdepth⟩ := hbound
  have hrest : ∀ n, ∀ t ∈ w.tasks, depth ≤ t.owners.length + n → P t := by
    intro n
    induction n with
    | zero =>
      intro t ht hle
      refine step t ht fun u hu ho => ?_
      have hlen := hdepth u hu
      rw [h.child_owners ht hu ho, List.length_cons] at hlen
      omega
    | succ n ih =>
      intro t ht hle
      refine step t ht fun u hu ho => ih u hu ?_
      rw [h.child_owners ht hu ho, List.length_cons]
      omega
  exact fun t ht => hrest depth t ht (Nat.le_add_left ..)

/-- As long as there are tasks, one of them waits for no other. -/
theorem Roster.exists_alone (h : Roster w) (hne : w.tasks ≠ []) :
    ∃ t ∈ w.tasks, w.hasChildren t.id = false := by
  refine Classical.byContradiction fun hnone => ?_
  have hall : ∀ t ∈ w.tasks, False := by
    refine h.inward fun t ht ih => hnone ⟨t, ht, ?_⟩
    refine Bool.eq_false_iff.mpr fun hc => ?_
    obtain ⟨u, hu, ho⟩ := List.any_eq_true.mp hc
    exact ih u hu (beq_iff_eq.mp ho)
  obtain ⟨t, ht⟩ := List.exists_mem_of_ne_nil _ hne
  exact hall t ht

/-- A rendering that cannot go on has no turn to take. -/
theorem turn_of_stuck (h : Course registry c w) (ht : t ∈ w.tasks) (hc : w.hasChildren t.id = false)
    (hstuck : w.step s t.id = none) (draft : List (Rose α)) :
    (t.work.job draft).turn s registry w.opened = none := by
  unfold step at hstuck
  rw [h.orderly.sound.roster.task? ht] at hstuck
  simp only [hc, Bool.false_eq_true, if_false] at hstuck
  cases hwork : t.work with
  | errands es =>
    cases es with
    | nil => simp [hwork, stepErrands] at hstuck
    | cons e es => exact absurd hwork (h.plain ht e es)
  | batch rs => simp [hwork] at hstuck
  | run r =>
    simp only [hwork] at hstuck
    simp only [Work.job, Run.job]
    cases hphase : r.phase with
    | preparing p =>
      simp only [hphase, stepPreparing] at hstuck ⊢
      rcases Job.turn_prepare (α := α) s registry r.brief p with
        ⟨why, hfailure, _⟩ | ⟨painter, hpainter, hturn⟩
      · have hresolved : r.resolved = .failure why := hfailure
        simp [hresolved, Resolved.painter?] at hstuck
      · have hpainter : r.resolved.painter? = some painter := hpainter
        rw [hpainter] at hstuck
        rw [hturn]
        exact congrArg (Option.map _) (Option.map_eq_none_iff.mp hstuck)
    | painting o p steps after =>
      simp only [hphase, stepPainting] at hstuck ⊢
      cases steps with
      | nil =>
        simp only at hstuck
        split at hstuck <;> cases hstuck
      | cons step rest =>
        cases step with
        | wait g =>
          have hclosed : w.opened.contains g = false := by
            simpa [paintStep] using hstuck
          simp only [Job.turn, Step.turn, hclosed]
          rfl
        | _ => cases hstuck

end World

end Montage
