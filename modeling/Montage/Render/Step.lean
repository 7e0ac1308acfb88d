import Montage.Render.Waiting

/-!
One step of one task. A task can step when nothing it waits for is under way and the gate in front of
it, if any, is open; which of the tasks steps next is not said here.
-/

namespace Montage

open Json (Value)

variable {F α : Type} [Medium α]

namespace World

def report (w : World F α) (events : List Event) : World F α :=
  { w with reported := events.reverse ++ w.reported }

def setWork (w : World F α) (id : TaskId) (work : Work F α) : World F α :=
  { w with tasks := w.tasks.map fun t => if t.id = id then { t with work := work } else t }

def drop (w : World F α) (id : TaskId) : World F α :=
  { w with tasks := w.tasks.filter (·.id != id) }

/-- Ends a run. -/
def settle (w : World F α) (id : TaskId) (o : Outcome) : World F α :=
  { w.drop id with outcomes := w.outcomes.insert id o }

def setPhase (w : World F α) (id : TaskId) (r : Run F α) (p : Phase F α) : World F α :=
  w.setWork id (.run { r with phase := p })

/-- Creates the output of a run and asks its view for the steps of painting. -/
def beginPainting (w : World F α) (s : Setup F α) (t : Task F α) (r : Run F α) (p : Prepared F)
    (painter : Painter F) : World F α :=
  let (tree, output) := w.scene.tree.create (Medium.output r.resolved.options.shape)
  let steps := s.paint painter (r.callOf s p)
  { w with scene := { w.scene with tree := tree } }.setPhase t.id r
    (.painting output p steps false)

/-- Ends a run that could not be used or failed before painting. -/
def settleWithError (w : World F α) (t : Task F α) (r : Run F α) (e : Error)
    (offending : Option Value) (o : Outcome) : World F α :=
  { w with scene := w.scene.fillWithError r.place e offending }.settle t.id o

/-- Ends a run that failed while painting. -/
def abandon (w : World F α) (t : Task F α) (r : Run F α) (output : NodeId) (e : Error) :
    World F α :=
  (w.discard output).settleWithError t r e none .renderedError

def stepPreparing (w : World F α) (s : Setup F α) (t : Task F α) (r : Run F α)
    (p : Preparation F) : Option (World F α) :=
  match r.resolved.painter?, r.resolved with
  | none, .failure why => some (w.settleWithError t r why.error (some why.offending) .error)
  | none, _ => none
  | some painter, _ =>
    (r.subject.advance s w.opened p).map fun progress =>
      match progress with
      | .awaits events p => (w.report events).setPhase t.id r (.preparing p)
      | .skipped => { w with scene := w.scene.skip r.place }.settle t.id .skipped
      | .failed e => (w.notePassing t p).settleWithError t r e none .renderedError
      | .prepared p => w.beginPainting s t r p painter

/-- Ends a run that has painted all. -/
def complete (w : World F α) (s : Setup F α) (t : Task F α) (r : Run F α) (output : NodeId)
    (p : Prepared F) : World F α :=
  let scene := w.scene.decorate s.settings r.resolved.name? output p r.context
  { w with scene := scene.finish r.place output (r.provenance p) }.settle t.id .rendered

/-- Carries out one step of painting. -/
def paintStep (w : World F α) (s : Setup F α) (t : Task F α) (r : Run F α) (output : NodeId)
    (step : Step F α) (goOn : World F α → World F α) : Option (World F α) :=
  match step with
  | .plant rose =>
    some (goOn { w with scene := { w.scene with tree := w.scene.tree.plant output rose } })
  | .mark m =>
    let tree := w.scene.tree.modify output (Medium.mark m)
    some (goOn { w with scene := { w.scene with tree := tree } })
  | .render raw data context item =>
    let (w, runs) := w.takeUpRaw s output ⟨data, context, item⟩ raw
    some ((goOn w).launch t.id t.owners (runs.map .run))
  | .start raw data context item =>
    some (goOn (w.takeUpRaw s output ⟨data, context, item⟩ raw).1)
  | .list raw items context limit offset =>
    let (w, batches) := w.takeUpList s output ⟨raw, items, context, offset, limit, none⟩ false
    some ((goOn w).launch t.id t.owners (batches.map .batch))
  | .wait g => if w.opened.contains g then some (goOn w) else none
  | .report e => some (goOn (w.report [e]))
  | .onClick events =>
    let clicks := w.scene.clicks.insert output ⟨events, []⟩
    some (goOn { w with scene := { w.scene with clicks := clicks } })
  | .fail e => some (w.abandon t r output e)
  | .panic message =>
    some (w.abandon t r output (.render (message.getD "view panicked")))

def stepPainting (w : World F α) (s : Setup F α) (t : Task F α) (r : Run F α) (output : NodeId)
    (p : Prepared F) (steps : List (Step F α)) (after : Bool) : Option (World F α) :=
  match steps with
  | step :: rest =>
    w.paintStep s t r output step fun w => w.setPhase t.id r (.painting output p rest after)
  | [] =>
    match after, r.config.postRender with
    | false, some f =>
      let steps := s.host.paint f (r.callOf s p)
      some (w.setPhase t.id r (.painting output p steps true))
    | _, _ => some (w.complete s t r output p)

def stepErrands (w : World F α) (s : Setup F α) (t : Task F α) (errands : List (Errand F)) :
    Option (World F α) :=
  match errands with
  | [] => some { w.drop t.id with finished := t.id :: w.finished }
  | .wait g :: rest =>
    if w.opened.contains g then some (w.setWork t.id (.errands rest)) else none
  | .report e :: rest => some ((w.report [e]).setWork t.id (.errands rest))
  | .turn wrapper container page all :: rest =>
    let (w, batches) := (w.discard wrapper).takeUpList s container page all
    some ((w.setWork t.id (.errands rest)).launch t.id t.owners (batches.map .batch))

/-- Starts the runs of a batch, and ends it once they are done. -/
def stepBatch (w : World F α) (t : Task F α) (runs : List (Run F α)) : World F α :=
  match runs with
  | [] => w.drop t.id
  | _ => (w.setWork t.id (.batch [])).launch t.id t.owners (runs.map .run)

/-- One step of the task of that name; none if it has to wait or is not under way. -/
def step (w : World F α) (s : Setup F α) (id : TaskId) : Option (World F α) :=
  match w.task? id with
  | none => none
  | some t =>
    if w.hasChildren id then none
    else match t.work with
      | .errands es => w.stepErrands s t es
      | .batch runs => some (w.stepBatch t runs)
      | .run r =>
        match r.phase with
        | .preparing p => w.stepPreparing s t r p
        | .painting output p steps after => w.stepPainting s t r output p steps after

end World

end Montage
