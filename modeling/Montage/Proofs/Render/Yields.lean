import Montage.Proofs.Render.Simulations

/-!
What some jobs show, whatever the clock. Main statements: a config that has nothing but a view and props
without queries shows what its view paints with these props, and what a config is known to show stands in
its container at the end of every schedule.
-/

namespace Montage

open Json (Value)

variable {F α : Type} [Medium α]

/-- A job ends with an outcome and shows these trees, in the epoch in which it begins, whenever that is. -/
def Job.Yields (s : Setup F α) (registry : Registry F) (job : Job F α) (outcome : Option Outcome)
    (shown : List (Rose α)) : Prop :=
  ∀ c k, ∃ n, Ends s registry c job k ⟨outcome, shown, k⟩ n

section Jobs

variable {s : Setup F α} {registry : Registry F} {job job' : Job F α} {outcome : Option Outcome}
  {shown : List (Rose α)} {β : Type} {xs : List β} {jobOf : β → Job F α} {shownBy : β → List (Rose α)}

/-- Jobs that are known to end are done together, and show one after the other what each of them shows. -/
theorem exists_done_of_yields
    (h : ∀ x ∈ xs, ∃ outcome, (jobOf x).Yields s registry outcome (shownBy x)) (c : Clock) (k : Nat) :
    ∃ done : List (Done F α), done.map Done.job = xs.map jobOf ∧
      done.flatMap (·.yield.shown) = xs.flatMap shownBy ∧
      ∀ b ∈ done, Ends s registry c b.job k b.yield b.turns ∧ b.yield.epoch = k := by
  induction xs with
  | nil => exact ⟨[], rfl, rfl, nofun⟩
  | cons x xs ih =>
    obtain ⟨⟨outcome, hx⟩, hxs⟩ := List.forall_mem_cons.mp h
    obtain ⟨n, hends⟩ := hx c k
    obtain ⟨done, hjobs, hshown, hdone⟩ := ih hxs
    refine ⟨⟨jobOf x, ⟨outcome, shownBy x, k⟩, n⟩ :: done, ?_, ?_, ?_⟩
    · rw [List.map_cons, List.map_cons, hjobs]
    · rw [List.flatMap_cons, List.flatMap_cons, hshown]
    · exact List.forall_mem_cons.mpr ⟨⟨hends, rfl⟩, hdone⟩

namespace Job

theorem yields_of_ends (hturn : ∀ opened, job.turn s registry opened = some (.ends outcome shown)) :
    job.Yields s registry outcome shown :=
  fun c k => ⟨1, .ends (.of_always c k hturn)⟩

/-- A job that goes on above others ends as it then goes on, with what they show. -/
theorem yields_of_goes {next : List (Rose α) → Job F α}
    (hturn : ∀ opened, job.turn s registry opened = some (.goes next (xs.map jobOf)))
    (hbelow : ∀ x ∈ xs, ∃ outcome, (jobOf x).Yields s registry outcome (shownBy x))
    (hnext : (next (xs.flatMap shownBy)).Yields s registry outcome shown) :
    job.Yields s registry outcome shown := by
  intro c k
  obtain ⟨done, hjobs, hshown, hdone⟩ := exists_done_of_yields hbelow c k
  obtain ⟨n, hends⟩ := hnext c k
  rw [← hshown] at hends
  rw [← hjobs] at hturn
  exact ⟨_, .goes done (.of_always c k hturn) (fun b hb => (hdone b hb).1)
    (isGreatest_of_epochs fun b hb => (hdone b hb).2) hends⟩

/-- A job that goes on alone ends as it then goes on. -/
theorem yields_of_next (hturn : ∀ opened, job.turn s registry opened = some (.goes (fun _ => job') []))
    (hnext : job'.Yields s registry outcome shown) : job.Yields s registry outcome shown := by
  intro c k
  obtain ⟨n, hends⟩ := hnext c k
  exact ⟨_, .goes [] (.of_always c k hturn) nofun (isGreatest_of_epochs nofun) hends⟩

/-- A config that is painted shows its draft, with the classes of its output. -/
theorem yields_painted {b : Brief F} {ready : Prepared F} {draft : List (Rose α)}
    (hpost : b.config.postRender = none) : (paint b ready draft [] false).Yields s registry
      (some .rendered) (draft.flatMap (b.settled s ready)) :=
  yields_of_ends (turn_painted hpost ready draft)

/-- Jobs that are done together show one after the other what each of them shows. -/
theorem yields_batch (h : ∀ x ∈ xs, ∃ outcome, (jobOf x).Yields s registry outcome (shownBy x)) :
    (batch (xs.map jobOf)).Yields s registry none (xs.flatMap shownBy) := by
  cases xs with
  | nil => exact yields_of_ends fun _ => rfl
  | cons x xs => exact yields_of_goes (fun _ => rfl) h (yields_of_ends fun _ => rfl)

end Job

end Jobs

/-! Configs that only name a view and give it props. -/

/-- A config with a view and props, and nothing else. -/
def Config.bare (view : String) (props : Props F) : Config F :=
  { Config.ofView view with props := props }

/-- Props without queries are what they are at once. -/
theorem gather_given {props : Props F} (h : ∀ f ∈ props, f.2.query? = none) (engine : Engine)
    (data context : Value) (opened : List Gate) :
    gather? opened (askProps engine data context props) = some (.ok props) := by
  have hall : firstError? opened (askProps engine data context props) = none ∧
      errorInTurn? opened (askProps engine data context props) = none ∧
      allReady? opened (askProps engine data context props) = some props := by
    induction props with
    | nil => exact ⟨rfl, rfl, rfl⟩
    | cons f props ih =>
      obtain ⟨hf, hprops⟩ := List.forall_mem_cons.mp h
      obtain ⟨hfirst, hturn, hready⟩ := ih hprops
      have hcons : askProps engine data context (f :: props) =
          (f.1, .given f.2) :: askProps engine data context props := by
        simp only [askProps, List.map_cons, askProp, hf]
      simp only [hcons, firstError?, errorInTurn?, allReady?, AskedProp.ready?, hfirst, hturn, hready, and_self]
  simp only [gather?, hall, ite_self, Option.map_some]

section Bare

variable {s : Setup F α} {registry : Registry F} {around : World.Surroundings} {view : String}
  {props : Props F} {v : View F} {outcome : Option Outcome} {shown : List (Rose α)}

theorem Brief.resolved_bare (hview : registry.get? view = some v) :
    (Brief.ofConfig α registry around (Config.bare view props)).resolved = .view v := by
  simp only [ofConfig, Config.ensureView, Config.bare, Config.ofView, World.resolve, World.empty,
    Option.isSome_some, if_true, hview]

/-- It is painted with its props and the data around it. -/
theorem Job.yields_bare (hview : registry.get? view = some v) (htransform : v.options.transform = none)
    (hprops : ∀ f ∈ props, f.2.query? = none)
    (hpaint : let b := Brief.ofConfig α registry around (Config.bare view props)
      (Job.paint b ⟨around.data, props, []⟩ [.node (Medium.output v.options.shape) []]
        (s.paint v.painter ⟨props, around.data, around.context, around.item, s.settings, s.lookup⟩)
        false).Yields s registry outcome shown) :
    (Job.prepare (.ofConfig α registry around (Config.bare view props)) .fresh).Yields s registry
      outcome shown := by
  let b := Brief.ofConfig α registry around (Config.bare view props)
  have hresolved : b.resolved = .view v := Brief.resolved_bare hview
  have hoptions : b.resolved.options = v.options := congrArg Resolved.options hresolved
  have hsub : b.subject = ⟨Config.bare view props, none, around.data, around.context⟩ := by
    rw [Brief.subject, hoptions, htransform]
    rfl
  let asked := askProps s.engine around.data around.context props
  have hfresh : ∀ opened, (Job.prepare b .fresh).turn s registry opened =
      some (.goes (fun _ => .prepare b (.gathering around.data asked)) []) := fun opened => by
    rw [Job.turn_of_view hresolved, hsub]
    rfl
  have hgathering : ∀ opened, (Job.prepare b (.gathering around.data asked)).turn s registry opened =
      some (.goes (fun _ => .paint b ⟨around.data, props, []⟩ [.node (Medium.output v.options.shape) []]
        (s.paint v.painter ⟨props, around.data, around.context, around.item, s.settings, s.lookup⟩)
        false) []) := fun opened => by
    rw [Job.turn_of_view hresolved, hsub, Subject.advance, gather_given hprops, ← hoptions]
    rfl
  exact yields_of_next hfresh (yields_of_next hgathering hpaint)

end Bare

namespace World

variable [LawfulMedium α] {s : Setup F α} {w₀ : World F α} {d : NodeId} {raw : RawConfig F} {c : Config F}
  {data context : Value} {outcome : Option Outcome} {shown : List (Rose α)}

/-- A config that is known to show some trees puts them into its container, on every schedule. -/
theorem render_of_yields (hw₀ : Orderly w₀) (hidle : w₀.tasks = []) (hd : d < w₀.scene.tree.next)
    (hraw : raw.normalize s.engine = [c])
    (hyields : (Job.prepare (.ofConfig α w₀.registry ⟨data, context, none⟩ c) .fresh).Yields s w₀.registry
      outcome shown) :
    ∃ n, ∀ es w, History s (fun v a => a.Continues s v) (w₀.render s d raw data context).1 es w →
      steps es ≤ n ∧ (w.Stalled s → w.tasks = []) ∧ (w.tasks = [] →
        w.outcomesOf (w₀.render s d raw data context).2 = [outcome] ∧
        w.scene.tree.subtree? d = (w₀.scene.tree.subtree? d).map (Rose.put shown)) := by
  let k := Clock.epoch (.inTurn w₀.opened.reverse) w₀.opened
  obtain ⟨n, hends⟩ := hyields (.inTurn w₀.opened.reverse) k
  let below : List (Done F α) :=
    [⟨.prepare (.ofConfig α w₀.registry ⟨data, context, none⟩ c) .fresh, ⟨outcome, shown, k⟩, n⟩]
  have hjobs : below.map Done.job = Job.ofRaw s w₀.registry ⟨data, context, none⟩ raw := by
    rw [Job.ofRaw, hraw]
    rfl
  refine ⟨1 + (below.map Done.turns).sum, fun es w h => ?_⟩
  have hcomes := comesTo_of_ends hw₀ hidle hd (Clock.fits_inTurn _) hjobs
    (List.forall_mem_singleton.mpr hends) (h.imp fun _ _ ha => ha.keeps _)
  have hshown : below.flatMap (·.yield.shown) = shown := List.flatMap_singleton _ _
  refine ⟨hcomes.steps_le, hcomes.drained (Clock.last_inTurn _), fun hdone => ⟨hcomes.outcomes hdone, ?_⟩⟩
  rw [hcomes.output hdone, hshown]

end World

end Montage
