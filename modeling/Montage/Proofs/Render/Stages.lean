import Mathlib
import Montage.Html.Medium
import Montage.Proofs.Render.Inquiries
import Montage.Proofs.Render.Shifts
import Montage.Proofs.Render.Tasks

/-!
A run goes through its stages in order. What is seen of it in any history is what it asks, stage by stage
up to the first one that is not passed, and, if all are passed, the one call of its view and after that
the one of `postRender`. Main statement: at every moment a run has come to one of the points that
`Account` names, having done what is said there and nothing else.
-/

namespace Montage

open Json (Value)

variable {F α : Type} [Medium α]

/-- Something seen of a run: an answer that it asked for, or that its view, or after it `postRender`, was
called to paint on a node. -/
inductive Entry (F : Type) where
  | asked (stage : Stage) (key : Option String) (a : Answer)
  | called (after : Bool) (output : NodeId) (ready : Prepared F)

namespace Entry

/-- What is reported then. -/
def events : Entry F → List Event
  | asked _ _ a => a.events
  | called .. => []

/-- The prop that is asked for. -/
def key? : Entry F → Option String
  | asked _ key _ => key
  | called .. => none

def isCall (after : Bool) : Entry F → Bool
  | asked .. => false
  | called b _ _ => b == after

end Entry

namespace Phase

/-- What is seen when a run comes from one phase to the next. -/
def entries : Phase F α → Phase F α → List (Entry F)
  | .preparing p, .preparing q =>
    if p.stage? = q.stage? then [] else q.awaited.map fun a => .asked a.1 a.2.1 a.2.2
  | .preparing _, .painting o ready _ after => [.called after o ready]
  | .painting _ _ _ false, .painting o ready _ true => [.called true o ready]
  | _, _ => []

theorem entries_self (p : Phase F α) : p.entries p = [] := by
  cases p with
  | preparing p => simp [entries]
  | painting o ready steps after => cases after <;> rfl

end Phase

/-- The error that a step of painting ends with. -/
def Step.error? : Step F α → Option Error
  | .fail e => some e
  | .panic message => some (.render (message.getD "view panicked"))
  | _ => none

/-- Nothing fails among these steps. -/
def Succeeds (steps : List (Step F α)) : Prop :=
  ∀ st ∈ steps, st.error? = none

/-- These steps come to one that fails. -/
def Breaks (steps : List (Step F α)) (e : Error) : Prop :=
  ∃ done st rest, steps = done ++ st :: rest ∧ Succeeds done ∧ st.error? = some e

theorem Breaks.not_succeeds {steps : List (Step F α)} {e : Error} (h : Breaks steps e) :
    ¬Succeeds steps := by
  obtain ⟨done, st, rest, rfl, _, he⟩ := h
  intro hall
  rw [hall st (by simp)] at he
  cases he

namespace Run

variable (s : Setup F α) (r : Run F α) (painter : Painter F)

/-- What the view, or after it `postRender`, answers when it is called with all that was computed. -/
def script (after : Bool) : List (Step F α) :=
  let call := r.callOf s (r.subject.prepared s)
  match after, r.config.postRender with
  | false, _ => s.paint painter call
  | true, some f => s.host.paint f call
  | true, none => []

variable {s r painter} in
theorem script_false : r.script s painter false =
    s.paint painter (r.callOf s (r.subject.prepared s)) := by
  unfold script
  split <;> simp_all

variable {s r painter} in
theorem script_true : r.script s painter true =
    (r.config.postRender.map fun f => s.host.paint f (r.callOf s (r.subject.prepared s))).getD [] := by
  cases h : r.config.postRender <;> simp [script, h]

/-- The answers that a stage asks for. -/
def asks (st : Stage) : List (Entry F) :=
  (r.subject.inquiries s st).map fun i => .asked st i.key (i.answer s)

/-- The calls to paint on a node. -/
def calls (o : NodeId) (after : Bool) : List (Entry F) :=
  .called false o (r.subject.prepared s) ::
    if after then [.called true o (r.subject.prepared s)] else []

end Run

namespace World

/-- The phase of the run with this number. -/
def phaseOf? (w : World F α) (id : TaskId) : Option (Phase F α) :=
  match (w.task? id).map Task.work with
  | some (.run r) => some r.phase
  | _ => none

/-- What is seen of a run between two worlds. -/
def entries (v w : World F α) (id : TaskId) : List (Entry F) :=
  match v.phaseOf? id, w.phaseOf? id with
  | some p, some q => p.entries q
  | _, _ => []

/-- What is seen of a run in a history. -/
def logOf (s : Setup F α) (id : TaskId) (es : List (World F α × Act F α)) : List (Entry F) :=
  es.flatMap fun e =>
    match e.1.act s e.2 with
    | some v => e.1.entries v id
    | none => []

/-- A step of the task did this to the scene. -/
def Did (s : Setup F α) (es : List (World F α × Act F α)) (id : TaskId)
    (R : Scene F α → Scene F α → Prop) : Prop :=
  ∃ v v', (v, .step id) ∈ es ∧ v.act s (.step id) = some v' ∧ R v.scene v'.scene

/-- The run of a task is under way and in this phase. -/
def At (w : World F α) (t : Task F α) (r : Run F α) (phase : Phase F α) : Prop :=
  { t with work := .run { r with phase := phase } } ∈ w.tasks

/-- Where a run is that began fresh, and what was seen of it. -/
inductive Account (s : Setup F α) (t : Task F α) (r : Run F α) (painter : Painter F)
    (es : List (World F α × Act F α)) (w : World F α) : Prop
  | fresh (here : w.At t r (.preparing .fresh)) (log : logOf s t.id es = [])
  /-- It waits for a stage. All stages before are passed. -/
  | asking {st : Stage} {p : Preparation F} (waits : r.subject.waitingAt s st = some p)
      (passed : ∀ x ∈ st.before, r.subject.Passes s x) (here : w.At t r (.preparing p))
      (log : logOf s t.id es = (st.before ++ [st]).flatMap (r.asks s))
  /-- A condition was falsy, and the place is marked as skipped. -/
  | skipped {st : Stage} (passed : ∀ x ∈ st.before, r.subject.Passes s x)
      (falsy : r.subject.Skips s st) (outcome : w.outcomeOf? t.id = some .skipped)
      (log : logOf s t.id es = (st.before ++ [st]).flatMap (r.asks s))
      (did : Did s es t.id fun sc sc' => sc' = sc.skip r.place)
  /-- A stage failed, and its error is in the place. -/
  | failed {st : Stage} {e : Error} (passed : ∀ x ∈ st.before, r.subject.Passes s x)
      (wrong : r.subject.Fails s st e) (outcome : w.outcomeOf? t.id = some .renderedError)
      (log : logOf s t.id es = (st.before ++ [st]).flatMap (r.asks s))
      (did : Did s es t.id fun sc sc' => sc' = sc.fillWithError r.place e none)
  /-- All stages are passed, and it paints on a node of the kind that its view declares. -/
  | painting {o : NodeId} {done left : List (Step F α)} {after : Bool}
      (passed : ∀ x, r.subject.Passes s x) (script : r.script s painter after = done ++ left)
      (sound : Succeeds done)
      (post : after → r.config.postRender.isSome ∧ Succeeds (r.script s painter false))
      (here : w.At t r (.painting o (r.subject.prepared s) left after))
      (log : logOf s t.id es = Stage.order.flatMap (r.asks s) ++ r.calls s o after)
      (did : Did s es t.id fun sc sc' => o = sc.tree.next ∧
        sc'.tree = (sc.tree.create (Medium.output r.resolved.options.shape)).1)
  /-- Painting failed; the node is discarded and the error is in the place. -/
  | broken {o : NodeId} {e : Error} {after : Bool} (passed : ∀ x, r.subject.Passes s x)
      (breaks : Breaks (r.script s painter after) e)
      (post : after → r.config.postRender.isSome ∧ Succeeds (r.script s painter false))
      (outcome : w.outcomeOf? t.id = some .renderedError)
      (log : logOf s t.id es = Stage.order.flatMap (r.asks s) ++ r.calls s o after)
      (did : Did s es t.id fun sc sc' => sc' = (sc.discard o).fillWithError r.place e none)
  /-- All was painted, and the node is in the place. -/
  | rendered {o : NodeId} (passed : ∀ x, r.subject.Passes s x)
      (sound : ∀ after, Succeeds (r.script s painter after))
      (outcome : w.outcomeOf? t.id = some .rendered)
      (log : logOf s t.id es =
        Stage.order.flatMap (r.asks s) ++ r.calls s o r.config.postRender.isSome)
      (did : Did s es t.id fun sc sc' =>
        sc' = (sc.decorate s.settings r.resolved.name? o (r.subject.prepared s) r.context).finish
          r.place o (r.provenance (r.subject.prepared s)))

variable {s : Setup F α} {t : Task F α} {r : Run F α} {painter : Painter F} {w w' : World F α}
  {es : List (World F α × Act F α)} {a : Act F α} {ph : Phase F α}

/-! What one step of a run does. -/

/-- How a run that prepares takes the move of its preparation. -/
inductive Prepares (s : Setup F α) (t : Task F α) (r : Run F α) (painter : Painter F)
    (w w' : World F α) : Progress F → Prop
  | awaits {events : List Event} {p : Preparation F} (here : w'.At t r (.preparing p))
      (scene : w'.scene = w.scene) (reported : w'.reported = events.reverse ++ w.reported) :
      Prepares s t r painter w w' (.awaits events p)
  | skipped (outcome : w'.outcomeOf? t.id = some .skipped)
      (scene : w'.scene = w.scene.skip r.place) (reported : w'.reported = w.reported) :
      Prepares s t r painter w w' .skipped
  | failed {e : Error} (outcome : w'.outcomeOf? t.id = some .renderedError)
      (scene : w'.scene = w.scene.fillWithError r.place e none)
      (reported : w'.reported = w.reported) : Prepares s t r painter w w' (.failed e)
  | prepared {ready : Prepared F}
      (here : w'.At t r (.painting w.scene.tree.next ready (s.paint painter (r.callOf s ready)) false))
      (tree : w'.scene.tree = (w.scene.tree.create (Medium.output r.resolved.options.shape)).1)
      (reported : w'.reported = w.reported) : Prepares s t r painter w w' (.prepared ready)

/-- How a run that paints goes on, by the steps that are left. -/
inductive PaintsOn (s : Setup F α) (t : Task F α) (r : Run F α) (w w' : World F α) (o : NodeId)
    (ready : Prepared F) : List (Step F α) → Bool → Prop
  | draws {st : Step F α} {rest : List (Step F α)} {after : Bool} (sound : st.error? = none)
      (here : w'.At t r (.painting o ready rest after)) : PaintsOn s t r w w' o ready (st :: rest) after
  | breaks {st : Step F α} {rest : List (Step F α)} {after : Bool} {e : Error}
      (wrong : st.error? = some e) (outcome : w'.outcomeOf? t.id = some .renderedError)
      (scene : w'.scene = (w.scene.discard o).fillWithError r.place e none) :
      PaintsOn s t r w w' o ready (st :: rest) after
  | calls {f : F} (post : r.config.postRender = some f)
      (here : w'.At t r (.painting o ready (s.host.paint f (r.callOf s ready)) true)) :
      PaintsOn s t r w w' o ready [] false
  | completes {after : Bool} (last : after = true ∨ r.config.postRender = none)
      (outcome : w'.outcomeOf? t.id = some .rendered)
      (scene : w'.scene = (w.scene.decorate s.settings r.resolved.name? o ready r.context).finish
        r.place o (r.provenance ready)) : PaintsOn s t r w w' o ready [] after

theorem outcome_of_settled {u : Task F α} {o : Outcome} (h : Settled w u o w') :
    w'.outcomeOf? u.id = some o := by
  rw [outcomeOf?, h.outcomes, Table.get?_insert, if_pos rfl]

theorem at_of_moved {phase : Phase F α} {works : List (Work F α)} (hr : Roster w)
    (here : w.At t r ph)
    (h : Moved w { t with work := .run { r with phase := ph } } (.run { r with phase := phase })
      works w') : w'.At t r phase :=
  (h.mem hr here).mpr (.inr (.inl rfl))

theorem task?_of_at (hr : Roster w) (here : w.At t r ph) :
    w.task? t.id = some { t with work := .run { r with phase := ph } } :=
  hr.task? (t := { t with work := .run { r with phase := ph } }) here

theorem phaseOf?_of_at (hr : Roster w) (here : w.At t r ph) : w.phaseOf? t.id = some ph := by
  simp [phaseOf?, task?_of_at hr here]

theorem phaseOf?_of_settled {o : Outcome} (hr : Roster w) (ho : w.outcomeOf? t.id = some o) :
    w.phaseOf? t.id = none := by
  have hnone : w.task? t.id = none := by
    refine List.find?_eq_none.mpr fun u hu => ?_
    simpa using (hr.settled ho).2 u hu
  simp [phaseOf?, hnone]

/-- A run that has ended takes no step. -/
theorem step_of_settled {o : Outcome} (hr : Roster w) (ho : w.outcomeOf? t.id = some o)
    (v : World F α) : w.act s (.step t.id) ≠ some v := by
  intro hact
  obtain ⟨u, hu, hid, _⟩ := turn_of_step hact
  exact (hr.settled ho).2 u hu hid

/-- A step of painting that does not fail goes on to the next one. -/
theorem moved_of_paintStep {u : Task F α} {r' : Run F α} {o : NodeId} {st : Step F α}
    {phase : Phase F α} (hst : st.error? = none)
    (h : w.paintStep s u r' o st (fun w => w.setPhase u.id r' phase) = some w') :
    ∃ works, Moved w u (.run { r' with phase := phase }) works w' := by
  cases st with
  | plant rose => cases h; exact ⟨_, .of_map rfl rfl rfl rfl⟩
  | mark m => cases h; exact ⟨_, .of_map rfl rfl rfl rfl⟩
  | render raw data context item =>
    cases h
    exact ⟨_, (sameTasks_takeUpAll o _ _).launch _ _⟩
  | start raw data context item =>
    cases h
    exact ⟨_, (sameTasks_takeUpAll o _ _).setWork _⟩
  | list raw items context limit offset =>
    cases h
    exact ⟨_, (sameTasks_takeUpList o _ _).launch _ _⟩
  | wait g =>
    simp only [paintStep] at h
    split at h
    · cases h; exact ⟨_, .of_map rfl rfl rfl rfl⟩
    · cases h
  | report e => cases h; exact ⟨_, .of_map rfl rfl rfl rfl⟩
  | onClick events => cases h; exact ⟨_, .of_map rfl rfl rfl rfl⟩
  | fail e => cases hst
  | panic message => cases hst

theorem paintStep_of_error {u : Task F α} {r' : Run F α} {o : NodeId} {st : Step F α} {e : Error}
    {goOn : World F α → World F α} (hst : st.error? = some e) :
    w.paintStep s u r' o st goOn = some (w.abandon u r' o e) := by
  cases st with
  | fail e' => cases hst; rfl
  | panic message => cases hst; rfl
  | _ => cases hst

theorem prepares_of_step {p : Preparation F} (hr : Roster w) (here : w.At t r (.preparing p))
    (hpainter : r.resolved.painter? = some painter) (hact : w.step s t.id = some w') :
    ∃ progress, r.subject.advance s w.opened p = some progress ∧
      Prepares s t r painter w w' progress := by
  unfold step at hact
  rw [task?_of_at hr here] at hact
  simp only at hact
  split at hact
  · cases hact
  simp only [stepPreparing, hpainter] at hact
  obtain ⟨progress, hmove, rfl⟩ := Option.map_eq_some_iff.mp hact
  refine ⟨progress, hmove, ?_⟩
  cases progress with
  | awaits events p' => exact .awaits (at_of_moved hr here (.of_map rfl rfl rfl rfl)) rfl rfl
  | skipped => exact .skipped (outcome_of_settled ⟨rfl, rfl, rfl, rfl⟩) rfl rfl
  | failed e =>
    obtain ⟨waiting, hw⟩ :=
      notePassing_eq (w := w) { t with work := .run { r with phase := .preparing p } } p
    simp only [hw]
    exact .failed (outcome_of_settled ⟨rfl, rfl, rfl, rfl⟩) rfl rfl
  | prepared ready => exact .prepared (at_of_moved hr here (.of_map rfl rfl rfl rfl)) rfl rfl

theorem paints_of_step {o : NodeId} {ready : Prepared F} {steps : List (Step F α)} {after : Bool}
    (hr : Roster w) (here : w.At t r (.painting o ready steps after))
    (hact : w.step s t.id = some w') : PaintsOn s t r w w' o ready steps after := by
  unfold step at hact
  rw [task?_of_at hr here] at hact
  simp only at hact
  split at hact
  · cases hact
  simp only [stepPainting] at hact
  cases steps with
  | cons st rest =>
    simp only at hact
    cases hst : st.error? with
    | none =>
      obtain ⟨works, hmoved⟩ := moved_of_paintStep hst hact
      exact .draws hst (at_of_moved hr here hmoved)
    | some e =>
      rw [paintStep_of_error hst] at hact
      cases hact
      exact .breaks hst (outcome_of_settled ⟨rfl, rfl, rfl, rfl⟩) rfl
  | nil =>
    cases after with
    | true =>
      cases hact
      exact .completes (.inl rfl) (outcome_of_settled ⟨rfl, rfl, rfl, rfl⟩) rfl
    | false =>
      cases hpost : r.config.postRender with
      | none =>
        simp only [hpost] at hact
        cases hact
        exact .completes (.inr hpost) (outcome_of_settled ⟨rfl, rfl, rfl, rfl⟩) rfl
      | some f =>
        simp only [hpost] at hact
        cases hact
        exact .calls hpost (at_of_moved hr here (.of_map rfl rfl rfl rfl))

/-! What is seen in one more act. -/

theorem logOf_snoc (hact : w.act s a = some w') (id : TaskId) :
    logOf s id (es ++ [(w, a)]) = logOf s id es ++ w.entries w' id := by
  simp [logOf, hact]

theorem Did.mono {id : TaskId} {R : Scene F α → Scene F α → Prop} (h : Did s es id R)
    (es' : List (World F α × Act F α)) : Did s (es ++ es') id R := by
  obtain ⟨v, v', hmem, hv, hR⟩ := h
  exact ⟨v, v', List.mem_append_left _ hmem, hv, hR⟩

theorem Did.last {R : Scene F α → Scene F α → Prop} (hact : w.act s (.step t.id) = some w')
    (hR : R w.scene w'.scene) : Did s (es ++ [(w, .step t.id)]) t.id R :=
  ⟨w, w', List.mem_append_right _ (List.mem_singleton_self _), hact, hR⟩

theorem entries_of_at {ph' : Phase F α} (hr : Roster w) (hr' : Roster w') (here : w.At t r ph)
    (there : w'.At t r ph') : w.entries w' t.id = ph.entries ph' := by
  simp [entries, phaseOf?_of_at hr here, phaseOf?_of_at hr' there]

theorem entries_of_settled {o : Outcome} (hr' : Roster w') (ho : w'.outcomeOf? t.id = some o) :
    w.entries w' t.id = [] := by
  simp [entries, phaseOf?_of_settled hr' ho]

namespace Account

/-- Nothing is seen of a run in the acts of others. -/
theorem of_other (h : Account s t r painter es w) (hw : Sound w) (hw' : Roster w')
    (ha : a.Known w.scene.tree.next) (hact : w.act s a = some w') (hne : a ≠ .step t.id) :
    Account s t r painter (es ++ [(w, a)]) w' := by
  have hshift := shift_of_act hw ha hact
  have hkept : ∀ {ph}, w.At t r ph → w'.At t r ph := fun here =>
    hshift.kept hw.roster here hne
  have hstill : ∀ {ph}, w.At t r ph → logOf s t.id (es ++ [(w, a)]) = logOf s t.id es := by
    intro ph here
    rw [logOf_snoc hact, entries_of_at hw.roster hw' here (hkept here), Phase.entries_self,
      List.append_nil]
  have hended : ∀ {o}, w.outcomeOf? t.id = some o → w'.outcomeOf? t.id = some o ∧
      logOf s t.id (es ++ [(w, a)]) = logOf s t.id es := by
    intro o ho
    have ho' := hshift.outcome_kept hw.roster ho
    rw [logOf_snoc hact, entries_of_settled hw' ho', List.append_nil]
    exact ⟨ho', rfl⟩
  cases h with
  | fresh here log => exact .fresh (hkept here) ((hstill here).trans log)
  | asking waits passed here log =>
    exact .asking waits passed (hkept here) ((hstill here).trans log)
  | skipped passed falsy outcome log did =>
    obtain ⟨ho, hlog⟩ := hended outcome
    exact .skipped passed falsy ho (hlog.trans log) (did.mono _)
  | failed passed wrong outcome log did =>
    obtain ⟨ho, hlog⟩ := hended outcome
    exact .failed passed wrong ho (hlog.trans log) (did.mono _)
  | painting passed script sound post here log did =>
    exact .painting passed script sound post (hkept here) ((hstill here).trans log) (did.mono _)
  | broken passed breaks post outcome log did =>
    obtain ⟨ho, hlog⟩ := hended outcome
    exact .broken passed breaks post ho (hlog.trans log) (did.mono _)
  | rendered passed sound outcome log did =>
    obtain ⟨ho, hlog⟩ := hended outcome
    exact .rendered passed sound ho (hlog.trans log) (did.mono _)

/-- A run that has passed these stages goes on to the next one, or paints if there is none. -/
theorem of_enter {passed left : List Stage} {p : Preparation F}
    (horder : Stage.order = passed ++ left) (hpassed : ∀ x ∈ passed, r.subject.Passes s x)
    (hlog : logOf s t.id es = passed.flatMap (r.asks s)) (hstage : ∀ st ∈ left, p.stage? ≠ some st)
    (hw : Sound w) (hw' : Roster w') (here : w.At t r (.preparing p))
    (hact : w.act s (.step t.id) = some w')
    (hmove : Prepares s t r painter w w' (r.subject.enter s left)) :
    Account s t r painter (es ++ [(w, .step t.id)]) w' := by
  have hnothing : ∀ l : List Stage, (∀ x ∈ l, r.subject.waitingAt s x = none) →
      l.flatMap (r.asks s) = [] := by
    intro l hl
    refine List.flatMap_eq_nil_iff.mpr fun x hx => ?_
    simp [Run.asks, Subject.inquiries_of_waitingAt (hl x hx)]
  have hmore : ∀ l : List Stage, (∀ x ∈ l, r.subject.waitingAt s x = none) →
      ∀ x ∈ passed ++ l, r.subject.Passes s x := by
    intro l hl x hx
    rcases List.mem_append.mp hx with hx | hx
    · exact hpassed x hx
    · exact Subject.passes_of_waitingAt (hl x hx)
  rcases r.subject.enter_cases s horder with
    ⟨henter, hnone⟩ | ⟨skipped, st, p', hbefore, hnone, hwaits, hst, henter⟩
  · rw [henter] at hmove
    cases hmove with
    | prepared here' tree reported =>
      have hall : ∀ x, r.subject.Passes s x := fun x =>
        hmore left hnone x (horder ▸ Stage.mem_order x)
      have hscript : r.script s painter false = [] ++ r.script s painter false := rfl
      refine .painting hall hscript (by simp [Succeeds]) nofun here' ?_ (Did.last hact ⟨rfl, tree⟩)
      rw [logOf_snoc hact, entries_of_at hw.roster hw' here here', hlog, horder,
        List.flatMap_append, hnothing left hnone, List.append_nil]
      rfl
  · rw [henter] at hmove
    cases hmove with
    | awaits here' scene reported =>
      refine .asking hwaits (hbefore ▸ hmore skipped hnone) here' ?_
      have hentries : Phase.entries (F := F) (α := α) (.preparing p) (.preparing p') =
          r.asks s st := by
        rw [Phase.entries, if_neg]
        · simp [Subject.awaited_of_waitingAt hwaits, Run.asks]
        · rw [Subject.stage_of_waitingAt hwaits]
          exact hstage st hst
      rw [logOf_snoc hact, entries_of_at hw.roster hw' here here', hlog, hentries, hbefore]
      simp [hnothing skipped hnone]

/-- A run that waits for a stage goes by its answers. -/
theorem of_asking {st : Stage} {p : Preparation F} (hwaits : r.subject.waitingAt s st = some p)
    (hpassed : ∀ x ∈ st.before, r.subject.Passes s x) (here : w.At t r (.preparing p))
    (hlog : logOf s t.id es = (st.before ++ [st]).flatMap (r.asks s)) (hw : Sound w)
    (hw' : Roster w') (hpainter : r.resolved.painter? = some painter)
    (hact : w.act s (.step t.id) = some w') :
    Account s t r painter (es ++ [(w, .step t.id)]) w' := by
  obtain ⟨progress, hadvance, hmove⟩ := prepares_of_step hw.roster here hpainter hact
  cases Subject.verdict_of_advance hwaits hadvance with
  | skips falsy =>
    cases hmove with
    | skipped outcome scene reported =>
      refine .skipped hpassed falsy outcome ?_ (Did.last hact scene)
      rw [logOf_snoc hact, entries_of_settled hw' outcome, hlog, List.append_nil]
  | fails wrong =>
    cases hmove with
    | failed outcome scene reported =>
      refine .failed hpassed wrong outcome ?_ (Did.last hact scene)
      rw [logOf_snoc hact, entries_of_settled hw' outcome, hlog, List.append_nil]
  | passes passed =>
    have horder : Stage.order = (st.before ++ [st]) ++ st.after := by
      simpa using Stage.order_eq st
    refine of_enter horder (fun x hx => ?_) hlog (fun x hx => ?_) hw hw' here hact hmove
    · rcases List.mem_append.mp hx with hx | hx
      · exact hpassed x hx
      · exact List.mem_singleton.mp hx ▸ passed
    · rw [Subject.stage_of_waitingAt hwaits]
      rintro ⟨⟩
      exact absurd hx (by cases st <;> decide)

/-- A run that paints carries out its steps in order. -/
theorem of_painting {o : NodeId} {done left : List (Step F α)} {after : Bool}
    (hpassed : ∀ x, r.subject.Passes s x) (hscript : r.script s painter after = done ++ left)
    (hsound : Succeeds done)
    (hpost : after → r.config.postRender.isSome ∧ Succeeds (r.script s painter false))
    (here : w.At t r (.painting o (r.subject.prepared s) left after))
    (hlog : logOf s t.id es = Stage.order.flatMap (r.asks s) ++ r.calls s o after)
    (hdid : Did s es t.id fun sc sc' => o = sc.tree.next ∧
      sc'.tree = (sc.tree.create (Medium.output r.resolved.options.shape)).1) (hw : Sound w)
    (hw' : Roster w') (hact : w.act s (.step t.id) = some w') :
    Account s t r painter (es ++ [(w, .step t.id)]) w' := by
  cases paints_of_step hw.roster here hact with
  | @draws st rest _ sound here' =>
    have hscript' : r.script s painter after = (done ++ [st]) ++ rest := by simp [hscript]
    refine .painting hpassed hscript' ?_ hpost here' ?_ (hdid.mono _)
    · intro x hx
      rcases List.mem_append.mp hx with hx | hx
      · exact hsound x hx
      · exact List.mem_singleton.mp hx ▸ sound
    · have hentries : Phase.entries (.painting o (r.subject.prepared s) (st :: rest) after)
          (.painting o (r.subject.prepared s) rest after) = [] := by
        cases after <;> rfl
      rw [logOf_snoc hact, entries_of_at hw.roster hw' here here', hlog, hentries, List.append_nil]
  | @breaks st rest _ e wrong outcome scene =>
    refine .broken hpassed ⟨done, st, rest, hscript, hsound, wrong⟩ hpost outcome ?_
      (Did.last hact scene)
    rw [logOf_snoc hact, entries_of_settled hw' outcome, hlog, List.append_nil]
  | @calls f post here' =>
    rw [List.append_nil] at hscript
    have hscript' : r.script s painter true = [] ++ s.host.paint f (r.callOf s (r.subject.prepared s)) := by
      simp [Run.script, post]
    refine .painting hpassed hscript' (by simp [Succeeds])
      (fun _ => ⟨by simp [post], hscript ▸ hsound⟩) here' ?_ (hdid.mono _)
    rw [logOf_snoc hact, entries_of_at hw.roster hw' here here', hlog]
    simp [Run.calls, Phase.entries]
  | completes last outcome scene =>
    rw [List.append_nil] at hscript
    have hafter : after = r.config.postRender.isSome := by
      cases after with
      | true => exact (hpost rfl).1.symm
      | false =>
        rcases last with last | last
        · cases last
        · simp [last]
    refine .rendered hpassed (fun b => ?_) outcome ?_ (Did.last hact scene)
    · cases after with
      | true =>
        cases b with
        | true => exact hscript ▸ hsound
        | false => exact (hpost rfl).2
      | false =>
        cases b with
        | false => exact hscript ▸ hsound
        | true =>
          have hnone : r.config.postRender = none := by simpa using hafter.symm
          simp [Run.script, hnone, Succeeds]
    · rw [logOf_snoc hact, entries_of_settled hw' outcome, hlog, List.append_nil, hafter]

/-- What is said of a run is said of it after every act. -/
theorem act (h : Account s t r painter es w) (hpainter : r.resolved.painter? = some painter)
    (hw : Sound w) (hw' : Roster w') (ha : a.Known w.scene.tree.next) (hact : w.act s a = some w') :
    Account s t r painter (es ++ [(w, a)]) w' := by
  by_cases hne : a = .step t.id
  · subst hne
    cases h with
    | fresh here log =>
      obtain ⟨progress, hadvance, hmove⟩ := prepares_of_step hw.roster here hpainter hact
      obtain rfl : progress = r.subject.enter s Stage.order :=
        (Option.some.inj hadvance).symm.trans Subject.askCondition_eq
      have horder : Stage.order = [] ++ Stage.order := rfl
      exact of_enter horder (by simp) log (by simp [Preparation.stage?]) hw hw' here hact hmove
    | asking waits passed here log =>
      exact of_asking waits passed here log hw hw' hpainter hact
    | painting passed script sound post here log did =>
      exact of_painting passed script sound post here log did hw hw' hact
    | skipped passed falsy outcome => exact absurd hact (step_of_settled hw.roster outcome _)
    | failed passed wrong outcome => exact absurd hact (step_of_settled hw.roster outcome _)
    | broken passed breaks post outcome => exact absurd hact (step_of_settled hw.roster outcome _)
    | rendered passed sound outcome => exact absurd hact (step_of_settled hw.roster outcome _)
  · exact h.of_other hw hw' ha hact hne

/-- A run that prepares has begun its preparation as it should. -/
theorem meets (h : Account s t r painter es w) (hr : Roster w) {p : Preparation F}
    (hphase : w.phaseOf? t.id = some (.preparing p)) :
    r.subject.Meets s p ∧ w.At t r (.preparing p) := by
  have hat : ∀ {ph}, w.At t r ph → ph = .preparing p := fun here =>
    Option.some.inj ((phaseOf?_of_at hr here).symm.trans hphase)
  have hnot : ∀ {o}, w.outcomeOf? t.id ≠ some o := by
    intro o ho
    rw [phaseOf?_of_settled hr ho] at hphase
    cases hphase
  cases h with
  | fresh here log =>
    cases hat here
    exact ⟨.inl rfl, here⟩
  | asking waits passed here log =>
    cases hat here
    exact ⟨.inr ⟨_, waits⟩, here⟩
  | painting passed script sound post here log did => cases hat here
  | skipped passed falsy outcome => exact absurd outcome hnot
  | failed passed wrong outcome => exact absurd outcome hnot
  | broken passed breaks post outcome => exact absurd outcome hnot
  | rendered passed sound outcome => exact absurd outcome hnot

/-- A run that prepares reports what it asks and nothing else, and touches no node as long as it
prepares. -/
theorem quiet (h : Account s t r painter es w) (hpainter : r.resolved.painter? = some painter)
    (hr : Roster w) (hr' : Roster w') (hact : w.act s (.step t.id) = some w') {p : Preparation F}
    (hphase : w.phaseOf? t.id = some (.preparing p)) :
    w'.reported = ((w.entries w' t.id).flatMap Entry.events).reverse ++ w.reported ∧
      ∀ q, w'.phaseOf? t.id = some (.preparing q) → w'.scene = w.scene := by
  obtain ⟨hmeets, here⟩ := h.meets hr hphase
  obtain ⟨progress, hadvance, hmove⟩ := prepares_of_step hr here hpainter hact
  cases hmove with
  | @awaits events p' here' scene reported =>
    obtain ⟨rfl, hrank⟩ := Subject.awaits_of_advance hmeets hadvance
    refine ⟨?_, fun _ _ => scene⟩
    have hne : p.stage? ≠ p'.stage? := by
      intro heq
      simp [Preparation.rank, heq] at hrank
    rw [reported, entries_of_at hr hr' here here', Phase.entries, if_neg hne, List.flatMap_map]
    rfl
  | skipped outcome scene reported =>
    rw [entries_of_settled hr' outcome, phaseOf?_of_settled hr' outcome]
    exact ⟨reported, fun q hq => by cases hq⟩
  | failed outcome scene reported =>
    rw [entries_of_settled hr' outcome, phaseOf?_of_settled hr' outcome]
    exact ⟨reported, fun q hq => by cases hq⟩
  | prepared here' tree reported =>
    rw [entries_of_at hr hr' here here', phaseOf?_of_at hr' here']
    exact ⟨reported, fun q hq => by cases hq⟩

end Account

/-! How many steps a run takes. -/

section Steps

variable (s r painter)

/-- How many steps a run in this phase takes at most. -/
def stepsIn : Phase F α → Nat
  | .preparing p => p.rank + (r.script s painter false).length + (r.script s painter true).length + 2
  | .painting _ _ left false => left.length + (r.script s painter true).length + 2
  | .painting _ _ left true => left.length + 1

/-- How many steps the run of a task takes from here at most. -/
def stepsLeft (w : World F α) (id : TaskId) : Nat :=
  ((w.phaseOf? id).map (stepsIn s r painter)).getD 0

end Steps

theorem stepsLeft_of_at (hr : Roster w) (here : w.At t r ph) :
    stepsLeft s r painter w t.id = stepsIn s r painter ph := by
  simp [stepsLeft, phaseOf?_of_at hr here]

theorem stepsLeft_of_settled {o : Outcome} (hr : Roster w) (ho : w.outcomeOf? t.id = some o) :
    stepsLeft s r painter w t.id = 0 := by
  simp [stepsLeft, phaseOf?_of_settled hr ho]

namespace Account

/-- Every step of a run brings it nearer to its end. -/
theorem stepsLeft_lt (h : Account s t r painter es w) (hpainter : r.resolved.painter? = some painter)
    (hr : Roster w) (hr' : Roster w') (hact : w.act s (.step t.id) = some w') :
    stepsLeft s r painter w' t.id < stepsLeft s r painter w t.id := by
  have hprepares : ∀ {p}, w.At t r (.preparing p) →
      stepsLeft s r painter w' t.id < stepsLeft s r painter w t.id := by
    intro p here
    obtain ⟨hmeets, _⟩ := h.meets hr (phaseOf?_of_at hr here)
    obtain ⟨progress, hadvance, hmove⟩ := prepares_of_step hr here hpainter hact
    rw [stepsLeft_of_at hr here, stepsIn]
    cases hmove with
    | awaits here' scene reported =>
      obtain ⟨_, hrank⟩ := Subject.awaits_of_advance hmeets hadvance
      rw [stepsLeft_of_at hr' here', stepsIn]
      omega
    | skipped outcome scene reported =>
      rw [stepsLeft_of_settled hr' outcome]
      omega
    | failed outcome scene reported =>
      rw [stepsLeft_of_settled hr' outcome]
      omega
    | prepared here' tree reported =>
      obtain rfl := Subject.prepared_of_advance hmeets hadvance
      have hrank := p.rank_pos
      rw [stepsLeft_of_at hr' here', stepsIn, ← Run.script_false]
      omega
  cases h with
  | fresh here log => exact hprepares here
  | asking waits passed here log => exact hprepares here
  | @painting o done left after passed script sound post here log did =>
    rw [stepsLeft_of_at hr here]
    cases paints_of_step hr here hact with
    | draws sound here' =>
      rw [stepsLeft_of_at hr' here']
      cases after <;> simp [stepsIn]
    | breaks wrong outcome scene =>
      rw [stepsLeft_of_settled hr' outcome]
      cases after <;> simp [stepsIn]
    | calls last here' =>
      rw [stepsLeft_of_at hr' here']
      simp [stepsIn, Run.script_true, last]
    | completes last outcome scene =>
      rw [stepsLeft_of_settled hr' outcome]
      cases after <;> simp [stepsIn]
  | skipped passed falsy outcome => exact absurd hact (step_of_settled hr outcome _)
  | failed passed wrong outcome => exact absurd hact (step_of_settled hr outcome _)
  | broken passed breaks post outcome => exact absurd hact (step_of_settled hr outcome _)
  | rendered passed sound outcome => exact absurd hact (step_of_settled hr outcome _)

end Account

/-! What a run has done when it has ended. -/

theorem countP_asks (after : Bool) (sts : List Stage) :
    (sts.flatMap (r.asks s)).countP (Entry.isCall after) = 0 := by
  refine List.countP_eq_zero.mpr fun e he => ?_
  obtain ⟨st, _, he⟩ := List.mem_flatMap.mp he
  obtain ⟨i, _, rfl⟩ := List.mem_map.mp he
  nofun

theorem countP_calls (o : NodeId) (after b : Bool) :
    (r.calls s o after).countP (Entry.isCall b) = if b = true ∧ after = false then 0 else 1 := by
  cases after <;> cases b <;> rfl

/-- What is true of a run that has ended: how often its view and `postRender` were called, and why it has
the outcome that it has. -/
structure Concluded (s : Setup F α) (r : Run F α) (painter : Painter F) (log : List (Entry F))
    (o : Outcome) : Prop where
  called : log.countP (Entry.isCall false) = 1 ∧ (∀ x, r.subject.Passes s x) ∨
    log.countP (Entry.isCall false) = 0 ∧ ¬∀ x, r.subject.Passes s x
  followed : log.countP (Entry.isCall true) = 1 ∧ ((∀ x, r.subject.Passes s x) ∧
      r.config.postRender.isSome ∧ Succeeds (r.script s painter false)) ∨
    log.countP (Entry.isCall true) = 0 ∧ ¬((∀ x, r.subject.Passes s x) ∧
      r.config.postRender.isSome ∧ Succeeds (r.script s painter false))
  skipped : o = .skipped ↔ ∃ st, (∀ x ∈ st.before, r.subject.Passes s x) ∧ r.subject.Skips s st
  rendered : o = .rendered ↔
    (∀ x, r.subject.Passes s x) ∧ ∀ after, Succeeds (r.script s painter after)
  renderedError : o = .renderedError ↔
    (∃ st e, (∀ x ∈ st.before, r.subject.Passes s x) ∧ r.subject.Fails s st e) ∨
      (∀ x, r.subject.Passes s x) ∧ ∃ after, ¬Succeeds (r.script s painter after)

theorem Account.concluded (h : Account s t r painter es w) (hr : Roster w) {o : Outcome}
    (ho : w.outcomeOf? t.id = some o) : Concluded s r painter (logOf s t.id es) o := by
  have hnot : ∀ {ph}, ¬w.At t r ph := fun here => (hr.settled ho).2 _ here rfl
  have heq : ∀ {o'}, w.outcomeOf? t.id = some o' → o = o' := fun ho' =>
    Option.some.inj (ho.symm.trans ho')
  cases h with
  | fresh here log => exact absurd here hnot
  | asking waits passed here log => exact absurd here hnot
  | painting passed script sound post here log did => exact absurd here hnot
  | @skipped st passed falsy outcome log did =>
    obtain rfl := heq outcome
    have hstop : ¬r.subject.Passes s st := fun hp => hp.not_skips falsy
    have hall : ¬∀ x, r.subject.Passes s x := fun hall => hstop (hall st)
    exact {
      called := .inr ⟨log ▸ countP_asks .., hall⟩
      followed := .inr ⟨log ▸ countP_asks .., fun h => hall h.1⟩
      skipped := ⟨fun _ => ⟨st, passed, falsy⟩, fun _ => rfl⟩
      rendered := ⟨nofun, fun h => absurd h.1 hall⟩
      renderedError := by
        refine ⟨nofun, ?_⟩
        rintro (⟨st', e, hpassed, wrong⟩ | ⟨h, _⟩)
        · have hstop' : ¬r.subject.Passes s st' := fun hp => hp.not_fails wrong
          obtain rfl := Subject.first_unique passed hpassed hstop hstop'
          exact absurd wrong falsy.not_fails
        · exact absurd h hall }
  | @failed st e passed wrong outcome log did =>
    obtain rfl := heq outcome
    have hstop : ¬r.subject.Passes s st := fun hp => hp.not_fails wrong
    have hall : ¬∀ x, r.subject.Passes s x := fun hall => hstop (hall st)
    exact {
      called := .inr ⟨log ▸ countP_asks .., hall⟩
      followed := .inr ⟨log ▸ countP_asks .., fun h => hall h.1⟩
      skipped := by
        refine ⟨nofun, fun ⟨st', hpassed, falsy⟩ => ?_⟩
        have hstop' : ¬r.subject.Passes s st' := fun hp => hp.not_skips falsy
        obtain rfl := Subject.first_unique passed hpassed hstop hstop'
        exact absurd wrong falsy.not_fails
      rendered := ⟨nofun, fun h => absurd h.1 hall⟩
      renderedError := ⟨fun _ => .inl ⟨st, e, passed, wrong⟩, fun _ => rfl⟩ }
  | @broken n e after passed breaks post outcome log did =>
    obtain rfl := heq outcome
    have hcount : ∀ b, (logOf s t.id es).countP (Entry.isCall b) =
        if b = true ∧ after = false then 0 else 1 := fun b => by
      rw [log, List.countP_append, countP_asks, countP_calls, Nat.zero_add]
    exact {
      called := .inl ⟨by simp [hcount], passed⟩
      followed := by
        cases after with
        | true => exact .inl ⟨by simp [hcount], passed, post rfl⟩
        | false => exact .inr ⟨by simp [hcount], fun h => breaks.not_succeeds h.2.2⟩
      skipped := ⟨nofun, fun ⟨st, _, falsy⟩ => absurd falsy (passed st).not_skips⟩
      rendered := ⟨nofun, fun h => absurd (h.2 after) breaks.not_succeeds⟩
      renderedError := ⟨fun _ => .inr ⟨passed, after, breaks.not_succeeds⟩, fun _ => rfl⟩ }
  | @rendered n passed sound outcome log did =>
    obtain rfl := heq outcome
    have hcount : ∀ b, (logOf s t.id es).countP (Entry.isCall b) =
        if b = true ∧ r.config.postRender.isSome = false then 0 else 1 := fun b => by
      rw [log, List.countP_append, countP_asks, countP_calls, Nat.zero_add]
    exact {
      called := .inl ⟨by simp [hcount], passed⟩
      followed := by
        cases hpost : r.config.postRender.isSome with
        | true => exact .inl ⟨by simp [hcount, hpost], passed, rfl, sound false⟩
        | false => exact .inr ⟨by simp [hcount, hpost], fun h => by cases h.2.1⟩
      skipped := ⟨nofun, fun ⟨st, _, falsy⟩ => absurd falsy (passed st).not_skips⟩
      rendered := ⟨fun _ => ⟨passed, sound⟩, fun _ => rfl⟩
      renderedError := by
        refine ⟨nofun, ?_⟩
        rintro (⟨st, e, _, wrong⟩ | ⟨_, after, h⟩)
        · exact absurd wrong (passed st).not_fails
        · exact absurd (sound after) h }

/-! In which order the props are asked for. -/

theorem keys_asks_of_ne {st : Stage} (hst : st ≠ .props) :
    (r.asks s st).filterMap Entry.key? = [] := by
  refine List.filterMap_eq_nil_iff.mpr fun e he => ?_
  obtain ⟨i, hi, rfl⟩ := List.mem_map.mp he
  exact Subject.key_of_ne hst hi

theorem keys_asks_props :
    ((r.asks s .props).filterMap Entry.key?).Sublist (r.config.props.map Prod.fst) := by
  have hkeys : (r.asks s .props).filterMap Entry.key? =
      r.config.props.filterMap fun f => f.2.query?.map fun _ => f.1 := by
    simp only [Run.asks, Subject.inquiries, List.filterMap_map, List.filterMap_filterMap]
    refine List.filterMap_congr fun f _ => ?_
    cases f.2.query? <;> rfl
  rw [hkeys]
  induction r.config.props with
  | nil => exact .slnil
  | cons f props ih =>
    simp only [List.filterMap_cons, List.map_cons]
    cases f.2.query? with
    | none => exact .cons _ ih
    | some q => exact .cons_cons _ ih

theorem keys_asks {sts : List Stage} (h : sts.Nodup) :
    ((sts.flatMap (r.asks s)).filterMap Entry.key?).Sublist (r.config.props.map Prod.fst) := by
  induction sts with
  | nil => exact List.nil_sublist _
  | cons st sts ih =>
    rw [List.flatMap_cons, List.filterMap_append]
    obtain ⟨hst, hrest⟩ := List.nodup_cons.mp h
    by_cases hprops : st = .props
    · subst hprops
      have hnone : (sts.flatMap (r.asks s)).filterMap Entry.key? = [] := by
        refine List.filterMap_eq_nil_iff.mpr fun e he => ?_
        obtain ⟨x, hx, he⟩ := List.mem_flatMap.mp he
        have hne : x ≠ .props := fun heq => hst (heq ▸ hx)
        exact List.filterMap_eq_nil_iff.mp (keys_asks_of_ne hne) e he
      rw [hnone, List.append_nil]
      exact keys_asks_props
    · rw [keys_asks_of_ne hprops, List.nil_append]
      exact ih hrest

/-- Each prop is asked for at most once, in the order in which the props stand. -/
theorem Account.keys (h : Account s t r painter es w) :
    ((logOf s t.id es).filterMap Entry.key?).Sublist (r.config.props.map Prod.fst) := by
  have hbefore : ∀ st : Stage, (st.before ++ [st]).Nodup := by
    intro st
    cases st <;> decide
  have hcalls : ∀ o after, (r.calls s o after).filterMap Entry.key? = [] := by
    intro o after
    cases after <;> rfl
  cases h with
  | fresh here log => exact log ▸ List.nil_sublist _
  | asking waits passed here log => exact log ▸ keys_asks (hbefore _)
  | skipped passed falsy outcome log did => exact log ▸ keys_asks (hbefore _)
  | failed passed wrong outcome log did => exact log ▸ keys_asks (hbefore _)
  | painting passed script sound post here log did =>
    rw [log, List.filterMap_append, hcalls, List.append_nil]
    exact keys_asks (by decide)
  | broken passed breaks post outcome log did =>
    rw [log, List.filterMap_append, hcalls, List.append_nil]
    exact keys_asks (by decide)
  | rendered passed sound outcome log did =>
    rw [log, List.filterMap_append, hcalls, List.append_nil]
    exact keys_asks (by decide)

/-! A whole history. -/

/-- How many steps the task with this number took. -/
def stepsOf (id : TaskId) (es : List (World F α × Act F α)) : Nat :=
  es.countP fun e =>
    match e.2 with
    | .step i => i == id
    | _ => false

theorem stepsLeft_of_other (hw : Sound w) (hw' : Roster w') (h : Account s t r painter es w)
    (ha : a.Known w.scene.tree.next) (hact : w.act s a = some w') (hne : a ≠ .step t.id) :
    stepsLeft s r painter w' t.id = stepsLeft s r painter w t.id := by
  have hshift := shift_of_act hw ha hact
  have hkept : ∀ {ph}, w.At t r ph →
      stepsLeft s r painter w' t.id = stepsLeft s r painter w t.id := fun here => by
    rw [stepsLeft_of_at hw.roster here, stepsLeft_of_at hw' (hshift.kept hw.roster here hne)]
  have hended : ∀ {o}, w.outcomeOf? t.id = some o →
      stepsLeft s r painter w' t.id = stepsLeft s r painter w t.id := fun ho => by
    rw [stepsLeft_of_settled hw.roster ho,
      stepsLeft_of_settled hw' (hshift.outcome_kept hw.roster ho)]
  cases h with
  | fresh here log => exact hkept here
  | asking waits passed here log => exact hkept here
  | painting passed script sound post here log did => exact hkept here
  | skipped passed falsy outcome => exact hended outcome
  | failed passed wrong outcome => exact hended outcome
  | broken passed breaks post outcome => exact hended outcome
  | rendered passed sound outcome => exact hended outcome

section

variable [LawfulMedium α] {registry : Registry F} {tree : Tree α} {u : World F α}
  {es₀ : List (World F α × Act F α)}

/-- A run that begins fresh has its account in every history, and takes boundedly many steps. -/
theorem account_of_history (hu : Sound u) (here : u.At t r (.preparing .fresh))
    (hpainter : r.resolved.painter? = some painter)
    (h : History s (fun v a => a.Known v.scene.tree.next) u es w) :
    Sound w ∧ Account s t r painter es w ∧
      stepsOf t.id es + stepsLeft s r painter w t.id ≤ stepsLeft s r painter u t.id := by
  refine h.invariant_past (I := fun es w => Sound w ∧ Account s t r painter es w ∧
    stepsOf t.id es + stepsLeft s r painter w t.id ≤ stepsLeft s r painter u t.id)
    ⟨hu, .fresh here rfl, Nat.le_of_eq (Nat.zero_add _)⟩ ?_
  rintro es v a v' ⟨hv, hacc, hsteps⟩ ha hact
  have hv' := hv.act ha hact
  refine ⟨hv', hacc.act hpainter hv hv'.roster ha hact, ?_⟩
  by_cases hne : a = .step t.id
  · subst hne
    have hlt := hacc.stepsLeft_lt hpainter hv.roster hv'.roster hact
    have hcount : stepsOf t.id (es ++ [(v, .step t.id)]) = stepsOf t.id es + 1 := by
      simp [stepsOf, List.countP_append]
    omega
  · have hcount : stepsOf t.id (es ++ [(v, a)]) = stepsOf t.id es := by
      rw [stepsOf, List.countP_append, List.countP_singleton]
      cases a with
      | step i =>
        have hi : i ≠ t.id := fun hi => hne (congrArg Act.step hi)
        simp [stepsOf, hi]
      | _ => rfl
    rw [hcount, stepsLeft_of_other hv hv'.roster hacc ha hact hne]
    exact hsteps

/-- A run of a view, in any history from the moment at which it begins. At each moment its account can be
given: it asks `when`, `data`, `whenData`, the props in order, the transform and the class names, each
once and each about the right data, up to the first stage that is not passed; then it calls its view, and
then `postRender`, with all that was computed. Until it calls its view it reports what it asks and
touches no node but its place. How often it called each, and which outcome it has, is told by the answers
and the scripts. It takes boundedly many steps, and it can take one unless it waits for a nested run or a
closed gate. -/
theorem stages_in_order (htree : tree.Linked)
    (h₀ : History s (fun v a => a.Known v.scene.tree.next) (start registry tree) es₀ u)
    (ht : t ∈ u.tasks) (hwork : t.work = .run r) (hfresh : r.phase = .preparing .fresh)
    (hpainter : r.resolved.painter? = some painter)
    (h : History s (fun v a => a.Known v.scene.tree.next) u es w) :
    Account s t r painter es w ∧
      ((logOf s t.id es).filterMap Entry.key?).Sublist (r.config.props.map Prod.fst) ∧
      (∀ v v' p, (v, .step t.id) ∈ es → v.act s (.step t.id) = some v' →
        v.phaseOf? t.id = some (.preparing p) →
        v'.reported = ((v.entries v' t.id).flatMap Entry.events).reverse ++ v.reported ∧
          ∀ q, v'.phaseOf? t.id = some (.preparing q) → v'.scene = v.scene) ∧
      (∀ o, w.outcomeOf? t.id = some o → Concluded s r painter (logOf s t.id es) o) ∧
      stepsOf t.id es ≤ 9 + (r.script s painter false).length + (r.script s painter true).length ∧
      ∀ t' ∈ w.tasks, t'.id = t.id → w.hasChildren t.id = false → w.blockedOn t' = [] →
        (w.step s t.id).isSome := by
  have hu : Sound u := Sound.history h₀ (.start registry htree) fun _ _ hp => hp
  have here : u.At t r (.preparing .fresh) := by
    have hsame : ({ t with work := .run { r with phase := .preparing .fresh } } : Task F α) = t := by
      rw [← hfresh, show ({ r with phase := r.phase } : Run F α) = r from rfl, ← hwork]
    exact hsame.symm ▸ ht
  obtain ⟨hw, hacc, hsteps⟩ := account_of_history hu here hpainter h
  refine ⟨hacc, hacc.keys, fun v v' p hmem hact hphase => ?_, fun o ho => hacc.concluded hw.roster ho, ?_, ?_⟩
  · obtain ⟨es', hes'⟩ := h.before hmem
    obtain ⟨hv, hpast, _⟩ := account_of_history hu here hpainter hes'
    exact hpast.quiet hpainter hv.roster (hv.act (h.all _ hmem) hact).roster hact hphase
  · rw [stepsLeft_of_at hu.roster here, stepsIn] at hsteps
    have hrank : (Preparation.fresh : Preparation F).rank = 7 := rfl
    omega
  · intro t' ht' hid hc hopen
    rw [← hid] at hc ⊢
    refine Option.isSome_iff_ne_none.mpr fun hstuck => ?_
    exact blocked_of_stuck hw.roster ht' hc hstuck hopen

end

/-- An engine whose answers tell their queries, and functions that paint a text and another. -/
def tellingSetup : Setup (Fin 2) Html.Item where
  host := ⟨fun f _ => if f = 0 then [.plant (Html.leaf (.text "one"))]
    else [.plant (Html.leaf (.text "two"))], fun _ _ _ => .now (.ok .null), fun _ _ _ _ => none,
    fun _ _ _ => []⟩
  engine := ⟨fun q _ _ => ⟨[.str q], [], .ok (.str q)⟩, fun _ => .ok [], fun _ => true⟩
  settings := .default
  lookup _ := none

/-- A config that has something to ask in every stage. -/
def cardConfig : Config (Fin 2) :=
  { view := some (.named "card"), when := some (.text "1"), data := some (.text "2"),
    whenData := some (.text "3"), postRender := some 1, className := some (.json (.str "=7")),
    props := [("a", .json (.str "=4")), ("b", .json .null), ("c", .json (.str "=5"))] }

def cardView : View (Fin 2) :=
  ⟨"card", .host 0, { transform := some (.query (.text "6")) }⟩

def cardRun : Run (Fin 2) Html.Item :=
  ⟨2, cardConfig, .view cardView, .null, .null, none, .preparing .fresh⟩

def cardStart : World (Fin 2) Html.Item :=
  ((start ⟨[cardView]⟩ (.single (Html.Item.ofTag "body"))).render tellingSetup 1
    (.object cardConfig) .null .null).1

/-- The card is rendered: it asks one to seven in this order, is painted and painted upon, and has an
outcome. -/
theorem stages_of_card :
    ∃ es w, es.map Prod.snd = List.replicate 11 (.step 2) ∧
      (logOf tellingSetup 2 es).flatMap Entry.events =
        [.str "1", .str "2", .str "3", .str "4", .str "5", .str "6", .str "7"] ∧
      w.outcomeOf? 2 = some .rendered ∧
      Account tellingSetup ⟨2, [1], false, .run cardRun⟩ cardRun (.host 0) es w ∧
      Concluded tellingSetup cardRun (.host 0) (logOf tellingSetup 2 es) .rendered := by
  have hplay : (play tellingSetup (fun v a => a.Known v.scene.tree.next) cardStart
      (List.replicate 11 (.step 2))).any (fun w => w.outcomeOf? 2 == some .rendered) = true := by
    cbv
  obtain ⟨w, hw, houtcome⟩ := (Option.any_eq_true _ _).mp hplay
  rw [beq_iff_eq] at houtcome
  obtain ⟨es, hacts, hes⟩ := History.of_play hw
  have htold : (logOf tellingSetup 2 (events tellingSetup cardStart
      (List.replicate 11 (.step 2)))).flatMap Entry.events =
        [.str "1", .str "2", .str "3", .str "4", .str "5", .str "6", .str "7"] := by
    cbv
  rw [← hacts, hes.events_eq] at htold
  have hmem : (⟨2, [1], false, .run cardRun⟩ : Task (Fin 2) Html.Item) ∈ cardStart.tasks := by
    have htasks : cardStart.tasks =
        [⟨2, [1], false, .run cardRun⟩, ⟨1, [], false, .errands []⟩] := by cbv
    simp [htasks]
  obtain ⟨haccount, _, _, hconcluded, _⟩ := stages_in_order (.single (Html.Item.ofTag "body"))
    (.one (a := .render 1 (.object cardConfig) .null .null) (by decide) rfl) hmem rfl rfl rfl hes
  exact ⟨es, w, hacts, htold, houtcome, haccount, hconcluded _ houtcome⟩

end World

end Montage
