import Montage.Proofs.Render.Inquiries
import Montage.Proofs.Render.Instant
import Montage.Proofs.Render.Simulations

/-!
Configs that have configs rendered below them. Where all configs are data and are rendered with the views
that a medium brings along, no rendering has to wait for a gate. Main statement: the rendering of a config
comes to an end if and only if no infinite line of configs begins with it, each rendered below the one before.
-/

namespace Montage

open Json (Value)

variable {F α : Type} [Medium α]

/-- What the configs that a raw config stands for are rendered with. -/
def RawConfig.briefs (s : Setup F α) (registry : Registry F) (around : World.Surroundings)
    (raw : RawConfig F) : List (Brief F) :=
  (raw.normalize s.engine).map (.ofConfig α registry around)

/-- The configs that a step of painting has rendered below. -/
def Step.calls (s : Setup F α) (registry : Registry F) : Step F α → List (Brief F)
  | .render raw data context item => raw.briefs s registry ⟨data, context, item⟩
  | .list raw items context limit offset =>
    let page : Page F := ⟨raw, items, context, offset, limit, none⟩
    (World.listItems items page.start page.stop).flatMap fun i =>
      raw.briefs s registry ⟨i.1, i.2.context context, some i.2⟩
  | _ => []

/-- A config is painted if every stage is passed, and one of the steps has another rendered below it. -/
def Brief.Calls (s : Setup F α) (registry : Registry F) (b b' : Brief F) : Prop :=
  (∀ st, b.subject.Passes s st) ∧ ∃ painter, b.resolved.painter? = some painter ∧
    ∃ step ∈ s.paint painter (b.callOf s (b.subject.prepared s)), b' ∈ step.calls s registry

theorem Job.ofRaw_eq (s : Setup F α) (registry : Registry F) (around : World.Surroundings)
    (raw : RawConfig F) :
    ofRaw s registry around raw = (raw.briefs s registry around).map fun b => .prepare b .fresh := by
  rw [ofRaw, RawConfig.briefs, List.map_map]
  rfl

/-! Preparations. -/

namespace Subject

variable {sub : Subject F} {s : Setup F α} {p : Preparation F} {opened : List Gate}

/-- A preparation has begun, and all stages before the one that it waits for are passed. -/
def Stands (sub : Subject F) (s : Setup F α) (p : Preparation F) : Prop :=
  p = .fresh ∨ ∃ st, sub.waitingAt s st = some p ∧ ∀ x ∈ st.before, sub.Passes s x

theorem Stands.meets (h : sub.Stands s p) : sub.Meets s p :=
  h.imp_right fun ⟨st, hst, _⟩ => ⟨st, hst⟩

/-- What may become of a preparation: it comes past all stages, or goes on to a later one, or ends at one
that is not passed. -/
inductive Advances (sub : Subject F) (s : Setup F α) (p : Preparation F) : Progress F → Prop
  | prepared (passed : ∀ st, sub.Passes s st) : Advances sub s p (.prepared (sub.prepared s))
  | awaits {events : List Event} {p' : Preparation F} (stands : sub.Stands s p')
      (rank : p'.rank < p.rank) : Advances sub s p (.awaits events p')
  | skipped {st : Stage} (not : ¬sub.Passes s st) : Advances sub s p .skipped
  | failed {st : Stage} (e : Error) (not : ¬sub.Passes s st) : Advances sub s p (.failed e)

/-- A preparation that has passed these stages is done, or stands before one of those that are left. -/
theorem stands_of_enter {done left : List Stage} (horder : Stage.order = done ++ left)
    (hpassed : ∀ x ∈ done, sub.Passes s x) :
    (sub.enter s left = .prepared (sub.prepared s) ∧ ∀ st, sub.Passes s st) ∨
      ∃ events p', sub.enter s left = .awaits events p' ∧ sub.Stands s p' := by
  rcases enter_cases sub s horder with
    ⟨henter, hnone⟩ | ⟨skipped, st, p', hbefore, hnone, hwaits, _, henter⟩
  · refine .inl ⟨henter, fun st => ?_⟩
    rcases List.mem_append.mp (horder ▸ Stage.mem_order st) with hst | hst
    · exact hpassed st hst
    · exact passes_of_waitingAt (hnone st hst)
  · refine .inr ⟨_, p', henter, .inr ⟨st, hwaits, fun x hx => ?_⟩⟩
    rcases List.mem_append.mp (hbefore ▸ hx) with hx | hx
    · exact hpassed x hx
    · exact passes_of_waitingAt (hnone x hx)

theorem Stands.advance {progress : Progress F} (h : sub.Stands s p)
    (hp : sub.advance s opened p = some progress) : sub.Advances s p progress := by
  have hon : ∀ (done : List Stage) {left : List Stage}, Stage.order = done ++ left →
      (∀ x ∈ done, sub.Passes s x) → progress = sub.enter s left → sub.Advances s p progress := by
    intro done left horder hpassed henter
    rcases stands_of_enter horder hpassed with ⟨hall, hpasses⟩ | ⟨events, p', hall, hstands⟩
    · exact henter.trans hall ▸ .prepared hpasses
    · have hawaits := henter.trans hall
      subst hawaits
      exact .awaits hstands (awaits_of_advance h.meets hp).2
  rcases h with rfl | ⟨st, hst, hbefore⟩
  · exact hon [] rfl nofun ((Option.some.inj hp).symm.trans askCondition_eq)
  · cases verdict_of_advance hst hp with
    | skips falsy => exact .skipped fun hpasses => hpasses.not_skips falsy
    | fails wrong => exact .failed _ fun hpasses => hpasses.not_fails wrong
    | passes passed =>
      refine hon (st.before ++ [st]) (by simpa using Stage.order_eq st) (fun x hx => ?_) rfl
      rcases List.mem_append.mp hx with hx | hx
      · exact hbefore x hx
      · exact List.mem_singleton.mp hx ▸ passed

end Subject

/-! Jobs that have to do with data only. -/

/-- A step that puts trees at the end of its node, or has data rendered there. -/
def Step.IsPlain : Step F α → Prop
  | .plant _ => True
  | .render raw .. => raw.IsData
  | .list raw .. => raw.IsData
  | _ => False

/-- A config that is data, whose view, if there is one, is a builtin that leaves its props alone. -/
structure Brief.IsPlain (b : Brief F) : Prop where
  config : b.config.IsData
  painter : ∀ painter, b.resolved.painter? = some painter → ∃ builtin, painter = .builtin builtin
  transform : b.resolved.options.transform = none

/-- All views are builtins that leave their props alone. -/
def Registry.IsPlain (registry : Registry F) : Prop :=
  ∀ name v, registry.get? name = some v →
    (∃ builtin, v.painter = .builtin builtin) ∧ v.options.transform = none

/-- Views that a medium brings along are such. -/
theorem Registry.isPlain_of_builtins {registry : Registry F}
    (h : ∀ v ∈ registry.views, v ∈ builtins α) : registry.IsPlain := by
  intro name v hv
  obtain ⟨x, _, rfl⟩ := List.mem_map.mp (h v (List.mem_of_find?_eq_some hv))
  exact ⟨⟨_, rfl⟩, rfl⟩

/-- Props that are data hold no handler. -/
theorem Props.AreData.handler {ps : Props F} (h : Props.AreData ps) (key : String) :
    Props.handler? ps key = none := by
  unfold Props.handler?
  split
  · rename_i hget
    obtain ⟨f, hf, hv⟩ := Fields.mem_of_get? hget
    rcases h f hf with ⟨v, hjson⟩ | ⟨v, hconfig⟩
    · rw [hv] at hjson
      cases hjson
    · rw [hv] at hconfig
      cases hconfig
  · rfl

/-- What a builtin does with props that are data. -/
theorem Builtin.isPlain_steps (handle : F → Value → Value → List Event) (builtin : Builtin)
    {call : Call F} (hprops : Props.AreData call.props) :
    ∀ step ∈ builtin.steps handle call, (step : Step F α).IsPlain := by
  have hlabel : ∀ step ∈ labelSteps call, (step : Step F α).IsPlain :=
    List.forall_mem_singleton.mpr trivial
  cases builtin with
  | text => exact hlabel
  | value => exact List.forall_mem_singleton.mpr trivial
  | content =>
    simp only [steps]
    split
    · obtain ⟨v, rfl⟩ := hprops.config ‹_›
      exact List.forall_mem_singleton.mpr (.inl ⟨v, rfl⟩)
    · nofun
  | list =>
    simp only [steps]
    split
    · exact List.forall_mem_singleton.mpr (.inr ⟨_, rfl, isData_itemConfig hprops⟩)
    · nofun
  | button =>
    simp only [steps, hprops.handler]
    exact hlabel

/-- The props of a config that is data are data once they are computed. -/
theorem Subject.areData_prepared {sub : Subject F} (hconfig : sub.config.IsData)
    (htransform : sub.transform = none) (s : Setup F α) : Props.AreData (sub.prepared s).props := by
  have hgiven : (sub.prepared s).props = sub.given s := by simp only [prepared, reshaped, htransform]
  rw [hgiven]
  refine List.forall_mem_map.mpr fun f hf => ?_
  simp only [answered]
  split
  · exact hconfig.props f hf
  · exact PropValue.isData_json _

/-- A plain config is painted in plain steps. -/
theorem Brief.IsPlain.script {b : Brief F} (h : b.IsPlain) (s : Setup F α) {painter : Painter F}
    (hpainter : b.resolved.painter? = some painter) :
    ∀ step ∈ s.paint painter (b.callOf s (b.subject.prepared s)), step.IsPlain := by
  obtain ⟨builtin, rfl⟩ := h.painter painter hpainter
  have hconfig : b.subject.config.IsData := h.config
  exact builtin.isPlain_steps s.host.handle (Subject.areData_prepared hconfig h.transform s)

theorem Brief.isPlain_ofConfig {registry : Registry F} (hregistry : registry.IsPlain)
    (around : World.Surroundings) {c : Config F} (hc : c.IsData) :
    (Brief.ofConfig α registry around c).IsPlain := by
  have hview := hc.ensureView.view
  refine ⟨hc.ensureView, ?_, ?_⟩ <;> simp only [ofConfig, World.resolve]
  all_goals
    split
    · split
      · rename_i v hv
        have hv := hregistry _ v hv
        simp_all [Resolved.painter?, Resolved.options]
      · simp [Resolved.painter?, Resolved.options]
    · rename_i hinline
      exact absurd hinline (hview _)
    · simp [Resolved.painter?, Resolved.options]
    · simp [Resolved.painter?, Resolved.options]

theorem RawConfig.IsData.briefs {registry : Registry F} (hregistry : registry.IsPlain)
    {s : Setup F α} {around : World.Surroundings} {raw : RawConfig F} (hraw : raw.IsData) :
    ∀ b ∈ raw.briefs s registry around, b.IsPlain := by
  intro b hb
  obtain ⟨c, hc, rfl⟩ := List.mem_map.mp hb
  exact Brief.isPlain_ofConfig hregistry around (hraw.normalize s.engine c hc)

theorem Step.IsPlain.calls {registry : Registry F} (hregistry : registry.IsPlain)
    {s : Setup F α} {step : Step F α} (h : step.IsPlain) : ∀ b ∈ step.calls s registry, b.IsPlain := by
  cases step with
  | render raw data context item => exact RawConfig.IsData.briefs hregistry h
  | list raw items context limit offset =>
    intro b hb
    obtain ⟨i, _, hb⟩ := List.mem_flatMap.mp hb
    exact RawConfig.IsData.briefs hregistry h b hb
  | _ => exact fun b hb => absurd hb List.not_mem_nil

/-- What a plain config calls is plain. -/
theorem Brief.IsPlain.calls {registry : Registry F} (hregistry : registry.IsPlain) {s : Setup F α}
    {b b' : Brief F} (h : b.IsPlain) (hcalls : b.Calls s registry b') : b'.IsPlain := by
  obtain ⟨_, painter, hpainter, step, hstep, hb'⟩ := hcalls
  exact (h.script s hpainter step hstep).calls hregistry b' hb'

/-! Turns of such jobs. -/

/-- A job that is to render these configs: one, or a batch of them. -/
inductive Job.Begins : Job F α → List (Brief F) → Prop
  | one (b : Brief F) : Begins (.prepare b .fresh) [b]
  | batch (bs : List (Brief F)) : Begins (.batch (bs.map fun b => .prepare b .fresh)) bs

/-- Jobs that come up when configs that are data are rendered with builtins. -/
inductive Job.IsPlain (s : Setup F α) : Job F α → Prop
  | prepare {b : Brief F} {p : Preparation F} (brief : b.IsPlain) (stands : b.subject.Stands s p)
      (instant : p.IsInstant) : IsPlain s (.prepare b p)
  | paint {b : Brief F} {ready : Prepared F} {draft : List (Rose α)} {steps : List (Step F α)}
      (post : b.config.postRender = none) (script : ∀ step ∈ steps, step.IsPlain) :
      IsPlain s (.paint b ready draft steps false)
  | expand {bs : List (Brief F)} (briefs : ∀ b ∈ bs, b.IsPlain) :
      IsPlain s (.expand (bs.map fun b => .prepare b .fresh))
  | close {shown : List (Rose α)} : IsPlain s (.close shown)

section Turning

variable {s : Setup F α} {registry : Registry F} {b b' : Brief F} {p : Preparation F}
  {job : Job F α}

theorem Brief.IsPlain.fresh (h : b.IsPlain) : (Job.prepare b .fresh).IsPlain s :=
  .prepare h (.inl rfl) trivial

theorem Job.Begins.isPlain {bs : List (Brief F)} (h : job.Begins bs) (hbs : ∀ b ∈ bs, b.IsPlain) :
    job.IsPlain s := by
  cases h with
  | one b => exact (hbs b (List.mem_singleton_self b)).fresh
  | batch =>
    cases bs with
    | nil => exact .close
    | cons b bs => exact .expand hbs

variable (s registry) in
/-- A plain step goes on with its node once all that it calls is done below it. -/
theorem Step.IsPlain.turn {step : Step F α} (h : step.IsPlain) (next : List (Rose α) → Job F α)
    (draft : List (Rose α)) : ∃ next' below,
      (∀ opened, step.turn s registry opened next draft = some (.goes next' below)) ∧
      (∀ shown, ∃ draft', next' shown = next draft') ∧
      (∀ job ∈ below, ∃ bs, job.Begins bs ∧ bs ⊆ step.calls s registry) ∧
      ∀ b ∈ step.calls s registry, ∃ job ∈ below, ∃ bs, job.Begins bs ∧ b ∈ bs := by
  cases step with
  | plant r => exact ⟨_, [], fun _ => rfl, fun _ => ⟨_, rfl⟩, nofun, fun b hb => absurd hb List.not_mem_nil⟩
  | render raw data context item =>
    refine ⟨_, _, fun _ => rfl, fun _ => ⟨_, rfl⟩, ?_, ?_⟩
    · rw [Job.ofRaw_eq, List.forall_mem_map]
      exact fun b hb => ⟨[b], .one b, List.forall_mem_singleton.mpr hb⟩
    · rw [Job.ofRaw_eq]
      exact fun b hb => ⟨_, List.mem_map_of_mem hb, [b], .one b, List.mem_singleton_self b⟩
  | list raw items context limit offset =>
    refine ⟨_, _, fun _ => rfl, fun _ => ⟨_, rfl⟩, ?_, ?_⟩
    · simp only [Page.jobs, Job.ofRaw_eq, List.forall_mem_map]
      exact fun i hi => ⟨_, .batch _, fun b hb => List.mem_flatMap_of_mem hi hb⟩
    · intro b hb
      simp only [Page.jobs, Job.ofRaw_eq]
      obtain ⟨i, hi, hb⟩ := List.mem_flatMap.mp hb
      exact ⟨_, List.mem_map_of_mem hi, _, .batch _, hb⟩
  | _ => exact h.elim

/-- The turn of a config that is prepared: it ends and calls no other, or is prepared further, or comes to
be painted, with the steps that have other configs rendered below. -/
inductive Brief.Prepares (s : Setup F α) (registry : Registry F) (b : Brief F) (p : Preparation F) : Prop
  | ends (outcome : Option Outcome) (shown : List (Rose α))
      (turn : ∀ opened, (Job.prepare b p).turn s registry opened = some (.ends outcome shown))
      (calls : ∀ b', ¬b.Calls s registry b') : Prepares s registry b p
  | asks (p' : Preparation F)
      (turn : ∀ opened, (Job.prepare b p).turn s registry opened =
        some (.goes (fun _ => .prepare b p') []))
      (stands : b.subject.Stands s p') (instant : p'.IsInstant) (rank : p'.rank < p.rank) :
      Prepares s registry b p
  | paints (ready : Prepared F) (draft : List (Rose α)) (steps : List (Step F α))
      (turn : ∀ opened, (Job.prepare b p).turn s registry opened =
        some (.goes (fun _ => .paint b ready draft steps false) []))
      (script : ∀ step ∈ steps, step.IsPlain)
      (calls : ∀ b', b.Calls s registry b' ↔ ∃ step ∈ steps, b' ∈ step.calls s registry) :
      Prepares s registry b p

variable (registry) in
theorem Brief.IsPlain.turn (h : b.IsPlain) (hinstant : s.engine.IsInstant)
    (hstands : b.subject.Stands s p) (hp : p.IsInstant) : b.Prepares s registry p := by
  rcases Job.turn_prepare s registry b p with ⟨why, hwhy, hturn⟩ | ⟨painter, hpainter, hturn⟩
  · refine .ends _ _ hturn ?_
    rintro b' ⟨_, painter, hpainter, _⟩
    rw [hwhy] at hpainter
    cases hpainter
  · have hconfig : b.subject.config.IsData := h.config
    obtain ⟨g, hg, hadvance, _⟩ :=
      Subject.advance_of_instant hconfig h.transform hinstant (rfl : s.engine = s.engine) hp
    have hturn : ∀ opened, (Job.prepare b p).turn s registry opened =
        some (Job.moveOf s b painter g) := fun opened => by
      rw [hturn, hadvance]
      rfl
    cases hstands.advance (hadvance []) with
    | prepared passed =>
      refine .paints _ _ _ hturn (h.script s hpainter) fun b' => ⟨?_, ?_⟩
      · rintro ⟨_, painter', hpainter', hcalls⟩
        cases hpainter.symm.trans hpainter'
        exact hcalls
      · exact fun hcalls => ⟨passed, painter, hpainter, hcalls⟩
    | awaits stands rank => exact .asks _ hturn stands hg rank
    | skipped not => exact .ends _ _ hturn fun b' hcalls => not (hcalls.1 _)
    | failed e not => exact .ends _ _ hturn fun b' hcalls => not (hcalls.1 _)

end Turning

/-! Jobs that come to an end. -/

section Ending

variable {s : Setup F α} {registry : Registry F} {b b' : Brief F} {job : Job F α}
  {next : List (Rose α) → Job F α} {below : List (Job F α)}

/-- A job comes to an end in the epoch in which it begins, whenever that is. -/
def Job.Finishes (s : Setup F α) (registry : Registry F) (job : Job F α) : Prop :=
  ∀ c k, ∃ y n, Ends s registry c job k y n ∧ y.epoch = k

/-- Jobs that come to an end are done together. -/
theorem exists_done_of_finishes (h : ∀ job ∈ below, job.Finishes s registry) (c : Clock) (k : Nat) :
    ∃ done : List (Done F α), done.map Done.job = below ∧
      ∀ b ∈ done, Ends s registry c b.job k b.yield b.turns ∧ b.yield.epoch = k := by
  induction below with
  | nil => exact ⟨[], rfl, nofun⟩
  | cons job below ih =>
    obtain ⟨hjob, hbelow⟩ := List.forall_mem_cons.mp h
    obtain ⟨y, n, hends⟩ := hjob c k
    obtain ⟨done, rfl, hdone⟩ := ih hbelow
    exact ⟨⟨job, y, n⟩ :: done, rfl, List.forall_mem_cons.mpr ⟨hends, hdone⟩⟩

namespace Job

theorem finishes_of_ends {outcome : Option Outcome} {shown : List (Rose α)}
    (hturn : ∀ opened, job.turn s registry opened = some (.ends outcome shown)) :
    job.Finishes s registry :=
  fun c k => ⟨_, 1, .ends (.of_always c k hturn), rfl⟩

/-- A job comes to an end if it goes on to one that does, and all below it do. -/
theorem finishes_of_goes (hturn : ∀ opened, job.turn s registry opened = some (.goes next below))
    (hbelow : ∀ job ∈ below, job.Finishes s registry)
    (hnext : ∀ shown, (next shown).Finishes s registry) : job.Finishes s registry := by
  intro c k
  obtain ⟨done, rfl, hdone⟩ := exists_done_of_finishes hbelow c k
  obtain ⟨y, n, hends, hepoch⟩ := hnext (done.flatMap (·.yield.shown)) c k
  exact ⟨y, _, .goes done (.of_always c k hturn) (fun b hb => (hdone b hb).1)
    (isGreatest_of_epochs fun b hb => (hdone b hb).2) hends, hepoch⟩

theorem Begins.finishes {bs : List (Brief F)} (h : job.Begins bs)
    (hbs : ∀ b ∈ bs, (prepare b .fresh : Job F α).Finishes s registry) : job.Finishes s registry := by
  cases h with
  | one b => exact hbs b (List.mem_singleton_self b)
  | batch =>
    cases bs with
    | nil => exact finishes_of_ends fun _ => rfl
    | cons b bs =>
      exact finishes_of_goes (fun _ => rfl) (List.forall_mem_map.mpr hbs)
        fun shown => finishes_of_ends fun _ => rfl

/-- A config is painted to the end if all configs called on the way come to an end. -/
theorem finishes_paint (hpost : b.config.postRender = none) {ready : Prepared F}
    {steps : List (Step F α)} (hsteps : ∀ step ∈ steps, step.IsPlain)
    (hcalls : ∀ step ∈ steps, ∀ b' ∈ step.calls s registry,
      (prepare b' .fresh : Job F α).Finishes s registry) (draft : List (Rose α)) :
    (paint b ready draft steps false).Finishes s registry := by
  induction steps generalizing draft with
  | nil => exact finishes_of_ends (turn_painted hpost ready draft)
  | cons step steps ih =>
    obtain ⟨hstep, hrest⟩ := List.forall_mem_cons.mp hsteps
    obtain ⟨hcall, hothers⟩ := List.forall_mem_cons.mp hcalls
    obtain ⟨next, below, hturn, hnext, hbelow, _⟩ :=
      hstep.turn s registry (fun draft => .paint b ready draft steps false) draft
    refine finishes_of_goes hturn (fun job hjob => ?_) fun shown => ?_
    · obtain ⟨bs, hbegins, hbs⟩ := hbelow job hjob
      exact hbegins.finishes fun b' hb' => hcall b' (hbs hb')
    · obtain ⟨draft', hdraft⟩ := hnext shown
      rw [hdraft]
      exact ih hrest hothers draft'

/-- A config comes to an end if all that it calls do. -/
theorem finishes_prepare (hinstant : s.engine.IsInstant) (h : b.IsPlain)
    (hcalls : ∀ b', b.Calls s registry b' → (prepare b' .fresh : Job F α).Finishes s registry)
    {p : Preparation F} (hstands : b.subject.Stands s p) (hp : p.IsInstant) :
    (prepare b p : Job F α).Finishes s registry := by
  induction hrank : p.rank using Nat.strong_induction_on generalizing p with
  | _ rank ih =>
    cases h.turn registry hinstant hstands hp with
    | ends outcome shown turn => exact finishes_of_ends turn
    | asks p' turn stands instant rank =>
      exact finishes_of_goes turn nofun fun _ => ih _ (hrank ▸ rank) stands instant rfl
    | paints ready draft steps turn script calls =>
      exact finishes_of_goes turn nofun fun _ => finishes_paint h.config.postRender script
        (fun step hstep b' hb' => hcalls b' ((calls b').mpr ⟨step, hstep, hb'⟩)) draft

/-- What a job under way has yet to call. -/
def Calls (s : Setup F α) (registry : Registry F) (job : Job F α) (b' : Brief F) : Prop :=
  match job with
  | .prepare b _ => b.Calls s registry b'
  | .paint _ _ _ steps _ => ∃ step ∈ steps, b' ∈ step.calls s registry
  | .expand jobs => .prepare b' .fresh ∈ jobs
  | .close _ => False

/-- From each config that a job calls, each line of calls ends. -/
def Grounded (s : Setup F α) (registry : Registry F) (job : Job F α) : Prop :=
  ∀ b', job.Calls s registry b' → Acc (flip (Brief.Calls s registry)) b'

/-- So it is for the configs that it begins with, if it is for the job. -/
theorem Begins.acc {bs : List (Brief F)} (h : job.Begins bs) (hjob : job.Grounded s registry) :
    ∀ b ∈ bs, Acc (flip (Brief.Calls s registry)) b := by
  cases h with
  | one b => exact List.forall_mem_singleton.mpr (.intro b hjob)
  | batch =>
    cases bs with
    | nil => exact fun b hb => absurd hb List.not_mem_nil
    | cons b bs => exact fun b' hb' => hjob b' (List.mem_map_of_mem (f := fun b => prepare b .fresh) hb')

end Job

variable (hinstant : s.engine.IsInstant) (hregistry : registry.IsPlain)
include hinstant hregistry

/-- A config from which each line of calls ends comes to an end. -/
theorem Job.finishes_of_acc (h : b.IsPlain) (hacc : Acc (flip (Brief.Calls s registry)) b) :
    (Job.prepare b .fresh : Job F α).Finishes s registry := by
  induction hacc with
  | intro b _ ih =>
    exact finishes_prepare hinstant h (fun b' hcall => ih b' hcall (h.calls hregistry hcall))
      (.inl rfl) trivial

omit hregistry in
/-- A plain job that ends has nothing left to call. -/
theorem Job.IsPlain.ends (h : job.IsPlain s) {opened : List Gate} {outcome : Option Outcome}
    {shown : List (Rose α)} (hturn : job.turn s registry opened = some (.ends outcome shown))
    (b' : Brief F) : ¬job.Calls s registry b' := by
  cases h with
  | prepare brief stands instant =>
    cases brief.turn registry hinstant stands instant with
    | ends _ _ _ calls => exact calls b'
    | asks _ turn => cases (turn opened).symm.trans hturn
    | paints _ _ _ turn => cases (turn opened).symm.trans hturn
  | @paint b ready draft steps post script =>
    cases steps with
    | nil =>
      rintro ⟨step, hstep, _⟩
      cases hstep
    | cons step steps =>
      obtain ⟨_, _, hgoes, _⟩ := (script step List.mem_cons_self).turn s registry
        (fun draft => .paint b ready draft steps false) draft
      cases (hgoes opened).symm.trans hturn
  | expand briefs => cases hturn
  | close => exact id

/-- A plain job that goes on calls what it becomes calls, and what the jobs below it begin with. -/
theorem Job.IsPlain.goes (h : job.IsPlain s) {opened : List Gate}
    (hturn : job.turn s registry opened = some (.goes next below)) :
    (∀ shown, (next shown).IsPlain s) ∧ (∀ job' ∈ below, job'.IsPlain s) ∧
      ∀ b', job.Calls s registry b' → (∀ shown, (next shown).Calls s registry b') ∨
        ∃ job' ∈ below, ∃ bs, job'.Begins bs ∧ b' ∈ bs := by
  cases h with
  | prepare brief stands instant =>
    cases brief.turn registry hinstant stands instant with
    | ends _ _ turn => cases (turn opened).symm.trans hturn
    | asks p' turn stands' instant' =>
      cases (turn opened).symm.trans hturn
      exact ⟨fun _ => .prepare brief stands' instant', nofun, fun b' hcall => .inl fun _ => hcall⟩
    | paints ready draft steps turn script calls =>
      cases (turn opened).symm.trans hturn
      exact ⟨fun _ => .paint brief.config.postRender script, nofun,
        fun b' hcall => .inl fun _ => (calls b').mp hcall⟩
  | @paint b ready draft steps post script =>
    cases steps with
    | nil =>
      simp only [turn, post] at hturn
      cases hturn
    | cons step steps =>
      obtain ⟨hstep, hrest⟩ := List.forall_mem_cons.mp script
      obtain ⟨next', below', hgoes, hnext, hbegins, hcalls⟩ :=
        hstep.turn s registry (fun draft => .paint b ready draft steps false) draft
      cases (hgoes opened).symm.trans hturn
      refine ⟨fun shown => ?_, fun job' hjob' => ?_, fun b' hcall => ?_⟩
      · obtain ⟨draft', hdraft⟩ := hnext shown
        rw [hdraft]
        exact .paint post hrest
      · obtain ⟨bs, hbs, hsub⟩ := hbegins job' hjob'
        exact hbs.isPlain fun b' hb' => hstep.calls hregistry b' (hsub hb')
      · obtain ⟨step', hstep', hb'⟩ := hcall
        rcases List.mem_cons.mp hstep' with rfl | hstep'
        · exact .inr (hcalls b' hb')
        · refine .inl fun shown => ?_
          obtain ⟨draft', hdraft⟩ := hnext shown
          rw [hdraft]
          exact ⟨step', hstep', hb'⟩
  | expand briefs =>
    cases hturn
    refine ⟨fun _ => .close, List.forall_mem_map.mpr fun b hb => (briefs b hb).fresh, ?_⟩
    exact fun b' hcall => .inr ⟨_, hcall, [b'], .one b', List.mem_singleton_self b'⟩
  | close => cases hturn

omit hregistry in
/-- A plain job never has to wait. -/
theorem Job.IsPlain.exists_turn (h : job.IsPlain s) (opened : List Gate) :
    job.turn s registry opened ≠ none := by
  cases h with
  | prepare brief stands instant =>
    intro hnone
    cases brief.turn registry hinstant stands instant with
    | ends _ _ turn => cases (turn opened).symm.trans hnone
    | asks _ turn => cases (turn opened).symm.trans hnone
    | paints _ _ _ turn => cases (turn opened).symm.trans hnone
  | @paint b ready draft steps post script =>
    cases steps with
    | nil => simp [turn, post]
    | cons step steps =>
      obtain ⟨_, _, hturn, _⟩ := (script step List.mem_cons_self).turn s registry
        (fun draft => .paint b ready draft steps false) draft
      exact fun hnone => Option.some_ne_none _ ((hturn opened).symm.trans hnone)
  | expand briefs => exact Option.some_ne_none _
  | close => exact Option.some_ne_none _

/-- From a job that comes to an end each line of calls ends. -/
theorem Job.IsPlain.grounded (h : job.IsPlain s) {c : Clock} {k n : Nat} {y : Yield α}
    (hends : Ends s registry c job k y n) : job.Grounded s registry := by
  induction hends with
  | ends turn =>
    obtain ⟨opened, _, hturn⟩ := turn.had
    exact fun b' hcall => absurd hcall (h.ends hinstant hturn b')
  | goes below turn done latest rest ihbelow ih =>
    obtain ⟨opened, _, hturn⟩ := turn.had
    obtain ⟨hnext, hbelow, hcalls⟩ := h.goes hinstant hregistry hturn
    intro b' hcall
    rcases hcalls b' hcall with hlater | ⟨job', hjob', bs, hbegins, hb'⟩
    · exact ih (hnext _) b' (hlater _)
    · obtain ⟨d, hd, rfl⟩ := List.mem_map.mp hjob'
      exact hbegins.acc (ihbelow d hd (hbelow _ hjob')) b' hb'

/-- The rendering of a config comes to an end, in the epoch in which it begins, if and only if each line of
calls from it ends. -/
theorem Brief.IsPlain.finishes_iff (h : b.IsPlain) :
    (Job.prepare b .fresh : Job F α).Finishes s registry ↔ Acc (flip (Brief.Calls s registry)) b := by
  constructor
  · intro hfinishes
    obtain ⟨y, n, hends, _⟩ := hfinishes .free 0
    exact .intro b (Job.IsPlain.grounded hinstant hregistry h.fresh hends)
  · exact Job.finishes_of_acc hinstant hregistry h

end Ending

end Montage
