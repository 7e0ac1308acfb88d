import Montage.Proofs.Render.Jobs

/-!
Configs that fail: those that cannot be used, and those for which something that they ask for fails, or
their function does, whatever was painted until then. Main statement: these are the configs that end with
an error, and that is all they show.
-/

namespace Montage

open Json (Value)

variable {F α : Type}

/-- The answer that a preparation waits for, if it is one. -/
def Preparation.answer? : Preparation F → Option Answer
  | .condition a | .selection a | .dataCondition _ a | .reshaping _ _ a | .naming _ _ a => some a
  | .fresh | .gathering .. => none

variable [Medium α]

namespace Subject

variable {sub : Subject F} {s : Setup F α} {opened : List Gate} {p : Preparation F} {v : Value}
  {props : Props F} {e : Error}

/-! Asking fails at no time; only an answer does. -/

theorem askClasses_ne_failed : sub.askClasses s v props ≠ .failed e := by
  unfold askClasses
  split <;> nofun

theorem askTransform_ne_failed : sub.askTransform s v props ≠ .failed e := by
  unfold askTransform
  split
  · exact askClasses_ne_failed
  · exact askClasses_ne_failed
  · nofun

theorem askDataCondition_ne_failed : sub.askDataCondition s v ≠ .failed e := by
  unfold askDataCondition
  split <;> nofun

theorem askSelection_ne_failed : sub.askSelection s ≠ .failed e := by
  unfold askSelection
  split
  · exact askDataCondition_ne_failed
  · nofun

theorem askCondition_ne_failed : sub.askCondition s ≠ .failed e := by
  unfold askCondition
  split
  · exact askSelection_ne_failed
  · nofun

omit [Medium α] in
theorem answer_of_withAnswer {a : Answer} {k : Value → Progress F} (hk : ∀ v, k v ≠ .failed e)
    (h : withAnswer opened a k = some (.failed e)) : a.isReady opened = true ∧ a.result = .error e := by
  unfold withAnswer at h
  split at h
  · split at h
    · cases h
      exact ⟨‹_›, ‹_›⟩
    · exact absurd (Option.some.inj h) (hk _)
  · cases h

/-- A preparation fails with an answer or a prop. -/
theorem failed_of_advance (h : sub.advance s opened p = some (.failed e)) :
    (∃ a, p.answer? = some a ∧ a.isReady opened = true ∧ a.result = .error e) ∨
      ∃ v asked, p = .gathering v asked ∧ gather? opened asked = some (.error e) := by
  have hask : ∀ {a : Answer} {k : Value → Progress F}, p.answer? = some a → (∀ v, k v ≠ .failed e) →
      withAnswer opened a k = some (.failed e) →
      ∃ a, p.answer? = some a ∧ a.isReady opened = true ∧ a.result = .error e :=
    fun ha hk h => ⟨_, ha, answer_of_withAnswer hk h⟩
  cases p with
  | fresh => exact absurd (Option.some.inj h) askCondition_ne_failed
  | condition a =>
    refine .inl (hask rfl (fun v => ?_) h)
    split
    · exact askSelection_ne_failed
    · nofun
  | selection a => exact .inl (hask rfl (fun v => askDataCondition_ne_failed) h)
  | dataCondition data a =>
    refine .inl (hask rfl (fun v => ?_) h)
    split <;> nofun
  | gathering data asked =>
    obtain ⟨r, hr, hmove⟩ := Option.map_eq_some_iff.mp h
    cases r with
    | error e' =>
      cases hmove
      exact .inr ⟨data, asked, rfl, hr⟩
    | ok props => exact absurd hmove askTransform_ne_failed
  | reshaping data props a => exact .inl (hask rfl (fun v => askClasses_ne_failed) h)
  | naming data props a =>
    refine .inl (hask rfl (fun v => ?_) h)
    nofun

end Subject

namespace Job

/-- What is left to be done for a config that was taken up. -/
def ofConfig (α : Type) [Medium α] (registry : Registry F) (around : World.Surroundings)
    (k : Config F) : Job F α :=
  .prepare (.ofConfig α registry around k) .fresh

/-- The rendering of a config breaks off in its next turn, with an error and what it is about. -/
inductive Breaks (opened : List Gate) : Job F α → Error → Option Value → Prop
  /-- The config is malformed, or its view is not defined. -/
  | unusable {b : Brief F} {p : Preparation F} {why : Failure} (resolved : b.resolved = .failure why) :
      Breaks opened (.prepare b p) why.error (some why.offending)
  /-- The query for a condition, for the data, for new props or for the classes fails. -/
  | query {b : Brief F} {p : Preparation F} {painter : Painter F} {a : Answer} {e : Error}
      (usable : b.resolved.painter? = some painter) (asked : p.answer? = some a)
      (ready : a.isReady opened = true) (fails : a.result = .error e) :
      Breaks opened (.prepare b p) e none
  /-- A prop fails. -/
  | prop {b : Brief F} {painter : Painter F} {v : Value} {asked : Fields (AskedProp F)} {e : Error}
      (usable : b.resolved.painter? = some painter) (fails : gather? opened asked = some (.error e)) :
      Breaks opened (.prepare b (.gathering v asked)) e none
  /-- The function that paints fails, or that of `postRender`. -/
  | fail {b : Brief F} {p : Prepared F} {draft : List (Rose α)} {rest : List (Step F α)}
      {after : Bool} {e : Error} : Breaks opened (.paint b p draft (.fail e :: rest) after) e none
  /-- One of these panics. -/
  | panic {b : Brief F} {p : Prepared F} {draft : List (Rose α)} {rest : List (Step F α)}
      {after : Bool} {message : Option String} :
      Breaks opened (.paint b p draft (.panic message :: rest) after)
        (.render (message.getD "view panicked")) none

/-- A config that nothing can be rendered with. -/
def Unusable : Job F α → Prop
  | .prepare b _ => ∃ why, b.resolved = .failure why
  | _ => False

variable {s : Setup F α} {registry : Registry F} {opened : List Gate} {job : Job F α} {e : Error}
  {offending : Option Value} {o : Outcome} {shown : List (Rose α)}

theorem usable_of_painter {b : Brief F} {painter : Painter F} (h : b.resolved.painter? = some painter)
    (p : Preparation F) : ¬(prepare b p : Job F α).Unusable := by
  rintro ⟨why, hwhy⟩
  rw [hwhy] at h
  cases h

variable (s registry) in
/-- A job that breaks off ends at once, and all that it shows is the error. -/
theorem Breaks.turn (h : job.Breaks opened e offending) : ∃ o,
    job.turn s registry opened = some (.ends (some o) [Medium.failure e offending]) ∧
      (o = .error ∧ job.Unusable ∨ o = .renderedError ∧ ¬job.Unusable) := by
  cases h with
  | @unusable b p why resolved =>
    refine ⟨.error, ?_, .inl ⟨rfl, why, resolved⟩⟩
    simp [Job.turn, resolved, Resolved.painter?]
  | @query b p painter a e usable asked ready fails =>
    refine ⟨.renderedError, ?_, .inr ⟨rfl, usable_of_painter usable p⟩⟩
    have hadvance : b.subject.advance s opened p = some (.failed e) := by
      cases p <;> cases asked <;> simp [Subject.advance, Subject.withAnswer, ready, fails]
    simp [Job.turn, usable, hadvance, moveOf]
  | @prop b painter v asked e usable fails =>
    refine ⟨.renderedError, ?_, .inr ⟨rfl, usable_of_painter usable _⟩⟩
    simp [Job.turn, usable, Subject.advance, fails, moveOf]
  | fail => exact ⟨.renderedError, rfl, .inr ⟨rfl, id⟩⟩
  | panic => exact ⟨.renderedError, rfl, .inr ⟨rfl, id⟩⟩

/-- What goes on can be used, and goes on as something that can be. -/
theorem usable_of_goes {next : List (Rose α) → Job F α} {below : List (Job F α)}
    (h : job.turn s registry opened = some (.goes next below)) :
    ¬job.Unusable ∧ ∀ shown, ¬(next shown).Unusable := by
  cases job with
  | expand jobs =>
    cases h
    exact ⟨id, fun _ => id⟩
  | close shown => cases h
  | prepare b p =>
    rcases turn_prepare s registry b p with ⟨why, _, heq⟩ | ⟨painter, hpainter, heq⟩
    · rw [heq] at h
      cases h
    · rw [heq] at h
      obtain ⟨progress, _, hmove⟩ := Option.map_eq_some_iff.mp h
      refine ⟨usable_of_painter hpainter p, fun shown => ?_⟩
      cases progress <;> cases hmove
      · exact usable_of_painter hpainter _
      · exact id
  | paint b p draft steps after =>
    refine ⟨id, fun shown => ?_⟩
    cases steps with
    | nil =>
      simp only [Job.turn] at h
      split at h <;> cases h
      exact id
    | cons step steps =>
      cases step <;> simp only [Job.turn, Step.turn] at h <;> (try split at h) <;> cases h <;>
        exact id

/-- A job that ends with an error breaks off. -/
theorem breaks_of_turn (h : job.turn s registry opened = some (.ends (some o) shown))
    (ho : o = .error ∨ o = .renderedError) : ∃ e offending, job.Breaks opened e offending := by
  cases job with
  | expand jobs => cases h
  | close shown => cases h
  | prepare b p =>
    rcases turn_prepare s registry b p with ⟨why, hwhy, heq⟩ | ⟨painter, hpainter, heq⟩
    · exact ⟨_, _, .unusable hwhy⟩
    · rw [heq] at h
      obtain ⟨progress, hadvance, hmove⟩ := Option.map_eq_some_iff.mp h
      cases progress with
      | awaits events p => cases hmove
      | prepared r => cases hmove
      | skipped =>
        cases hmove
        rcases ho with ho | ho <;> cases ho
      | failed e =>
        rcases Subject.failed_of_advance hadvance with ⟨a, ha, hready, hfails⟩ | ⟨v, asked, rfl, hfails⟩
        · exact ⟨e, none, .query hpainter ha hready hfails⟩
        · exact ⟨e, none, .prop hpainter hfails⟩
  | paint b p draft steps after =>
    cases steps with
    | nil =>
      simp only [Job.turn] at h
      split at h
      · cases h
      · cases h
        rcases ho with ho | ho <;> cases ho
    | cons step steps =>
      cases step with
      | fail e => exact ⟨_, _, .fail⟩
      | panic message => exact ⟨_, _, .panic⟩
      | _ =>
        simp only [Job.turn, Step.turn] at h
        (try split at h) <;> cases h

end Job

/-- A config fails that begins to be rendered in an epoch: turn by turn, and after all that is rendered
in its output before, it comes to one in which it breaks off. -/
inductive Fails (s : Setup F α) (registry : Registry F) (c : Clock) :
    Job F α → Nat → Error → Option Value → Prop
  | breaks {job : Job F α} {k k' : Nat} {m : Move F α} {opened : List Gate} {e : Error}
      {offending : Option Value} (turn : c.Gives (job.turn s registry) k k' m)
      (allowed : c.Allows k' opened) (breaks : job.Breaks opened e offending) :
      Fails s registry c job k e offending
  | goes {job : Job F α} {k k' last : Nat} {next : List (Rose α) → Job F α} {e : Error}
      {offending : Option Value} (below : List (Done F α))
      (turn : c.Gives (job.turn s registry) k k' (.goes next (below.map Done.job)))
      (done : ∀ b ∈ below, Ends s registry c b.job k' b.yield b.turns)
      (latest : IsGreatest {x | x = k' ∨ ∃ b ∈ below, b.yield.epoch = x} last)
      (rest : Fails s registry c (next (below.flatMap (·.yield.shown))) last e offending) :
      Fails s registry c job k e offending

namespace Fails

variable {s : Setup F α} {registry : Registry F} {c : Clock} {job : Job F α} {k : Nat} {e : Error}
  {offending : Option Value}

/-- A turn is taken at once, and nothing is waited for after it. -/
theorem onward {next : List (Rose α) → Job F α}
    (turn : ∀ opened, job.turn s registry opened = some (.goes next []))
    (h : Fails s registry c (next []) k e offending) : Fails s registry c job k e offending := by
  obtain ⟨opened, ha⟩ := c.exists_allowed k
  have hlatest : IsGreatest {x | x = k ∨ ∃ b ∈ ([] : List (Done F α)), b.yield.epoch = x} k :=
    ⟨.inl rfl, fun x hx => hx.elim Nat.le_of_eq fun ⟨_, hb, _⟩ => nomatch hb⟩
  refine .goes [] (.now ha (turn opened) fun _ hv => ?_) nofun hlatest h
  rw [turn] at hv
  exact (Option.some.inj hv).symm

/-- A config that fails ends and shows one error. -/
theorem ends (h : Fails s registry c job k e offending) : ∃ o k' n,
    Ends s registry c job k ⟨some o, [Medium.failure e offending], k'⟩ n ∧
      (o = .error ∧ job.Unusable ∨ o = .renderedError ∧ ¬job.Unusable) := by
  induction h with
  | @breaks job k k' m opened e offending turn allowed breaks =>
    obtain ⟨o, hturn, ho⟩ := breaks.turn s registry
    rw [← turn.only allowed hturn] at turn
    exact ⟨o, k', 1, .ends turn, ho⟩
  | goes below turn done latest rest ih =>
    obtain ⟨o, k', n, hends, ho⟩ := ih
    obtain ⟨opened, _, hturn⟩ := turn.had
    obtain ⟨husable, hnext⟩ := Job.usable_of_goes hturn
    refine ⟨o, k', _, .goes below turn done latest hends, .inr ⟨?_, husable⟩⟩
    exact (ho.resolve_left fun h => hnext _ h.2).1

/-- What ends with an error fails. -/
theorem of_ends {n : Nat} {y : Yield α} (h : Ends s registry c job k y n)
    (hy : y.outcome = some .error ∨ y.outcome = some .renderedError) :
    ∃ e offending, Fails s registry c job k e offending := by
  induction h with
  | @ends job k k' outcome shown turn =>
    obtain ⟨opened, ha, hturn⟩ := turn.had
    have hout : ∃ o, outcome = some o ∧ (o = .error ∨ o = .renderedError) := by
      rcases hy with hy | hy
      · exact ⟨_, hy, .inl rfl⟩
      · exact ⟨_, hy, .inr rfl⟩
    obtain ⟨o, rfl, ho⟩ := hout
    obtain ⟨e, offending, hbreaks⟩ := Job.breaks_of_turn hturn ho
    exact ⟨e, offending, .breaks turn ha hbreaks⟩
  | goes below turn done latest rest _ ih =>
    obtain ⟨e, offending, hfails⟩ := ih hy
    exact ⟨e, offending, .goes below turn done latest hfails⟩

end Fails

end Montage
