import Montage.Render.Scene

/-!
A renderer at one moment: its nodes, its views, and the tasks under way. A task renders one config,
or waits for such tasks: the configs of one list item, or all that a call began. Tasks stand in a
list in which those that a task waits for come right before it.
-/

namespace Montage

open Json (Value)

/-- What a config renders with, as found when its place was reserved. -/
inductive Resolved (F : Type) where
  | view (v : View F)
  | inline (f : F)
  | failure (why : Failure)

variable {F α : Type}

namespace Resolved

def options : Resolved F → Options F
  | .view v => v.options
  | _ => {}

def painter? : Resolved F → Option (Painter F)
  | .view v => some v.painter
  | .inline f => some (.host f)
  | .failure _ => none

def name? : Resolved F → Option String
  | .view v => some v.name
  | _ => none

end Resolved

/-- Where the rendering of a config stands: being prepared, or painting into `output` with some steps
left; `after` tells that they are those of `postRender`. -/
inductive Phase (F α : Type) [Medium α] where
  | preparing (p : Preparation F)
  | painting (output : NodeId) (ready : Prepared F) (steps : List (Step F α)) (after : Bool)

/-- The rendering of one config into the place held for it. -/
structure Run (F α : Type) [Medium α] where
  place : NodeId
  config : Config F
  resolved : Resolved F
  data : Value
  context : Value
  item : Option ListItem
  phase : Phase F α

inductive Work (F α : Type) [Medium α] where
  | run (r : Run F α)
  /-- Runs to start and wait for. -/
  | batch (runs : List (Run F α))
  | errands (es : List (Errand F))

abbrev TaskId := Nat

structure Task (F α : Type) [Medium α] where
  id : TaskId
  /-- The task that waits for this one, the one that waits for that, and so on to the call. -/
  owners : List TaskId
  /-- Whether so many tasks have the same owner that they are a crowd. -/
  crowded : Bool
  work : Work F α

/-- Who is to be told that a gate opens: a line of tasks, from the inside out, of which each is told
by the one before it. One that gathers the props of a task is told only as long as it does. -/
structure Waiter where
  line : List TaskId
  gathers : Option TaskId
deriving DecidableEq

structure World (F α : Type) [Medium α] where
  scene : Scene F α
  registry : Registry F
  opened : List Gate
  tasks : List (Task F α)
  nextTask : TaskId
  outcomes : Table Outcome
  /-- Calls that are done, the last first. -/
  finished : List TaskId
  /-- Gates and who waits for them, in the order in which they began to wait. -/
  waiting : List (Gate × Waiter)
  /-- Events reported, the last first. -/
  reported : List Event

variable [Medium α]

namespace Task

def owner? (t : Task F α) : Option TaskId :=
  t.owners.head?

/-- The call that a task belongs to. -/
def call (t : Task F α) : TaskId :=
  t.owners.getLastD t.id

/-- Whether a task is a given one, or works for it. -/
def isWithin (t : Task F α) (id : TaskId) : Bool :=
  t.id == id || t.owners.contains id

end Task

namespace Run

def subject (r : Run F α) : Subject F :=
  ⟨r.config, r.resolved.options.transform, r.data, r.context⟩

def callOf (r : Run F α) (s : Setup F α) (p : Prepared F) : Call F :=
  ⟨p.props, p.data, r.context, r.item, s.settings, s.lookup⟩

def provenance (r : Run F α) (p : Prepared F) : Provenance F :=
  ⟨r.config.viewName?, r.config, p.props⟩

end Run

namespace World

def empty (registry : Registry F) : World F α :=
  { scene := .empty, registry := registry, opened := [], tasks := [], nextTask := 1,
    outcomes := .empty, finished := [], waiting := [], reported := [] }

/-- Finds what a config renders with; a name that is not defined is a failure. -/
def resolve (w : World F α) (c : Config F) : Resolved F :=
  match c.view with
  | some (.named name) =>
    match w.registry.get? name with
    | some v => .view v
    | none => .failure ⟨.unknownView name, c.toJson⟩
  | some (.inline f) => .inline f
  | some (.failure why) => .failure why
  | none => .failure ⟨.missingView, c.toJson⟩

/-- What a rendering passes on to the configs below it. -/
structure Surroundings where
  data : Value
  context : Value
  item : Option ListItem

/-- Takes up one config: its place is held from now on. -/
def takeUp (w : World F α) (container : NodeId) (around : Surroundings) (c : Config F) :
    World F α × Run F α :=
  let c := c.ensureView
  let resolved := w.resolve c
  let (scene, place) := w.scene.reserve container c.viewName?
  ({ w with scene := scene },
    ⟨place, c, resolved, around.data, around.context, around.item, .preparing .fresh⟩)

def takeUpAll (w : World F α) (container : NodeId) (around : Surroundings) :
    List (Config F) → World F α × List (Run F α)
  | [] => (w, [])
  | c :: cs =>
    let (w, r) := w.takeUp container around c
    let (w, rs) := w.takeUpAll container around cs
    (w, r :: rs)

/-- Takes up all configs that a raw config stands for, in order. -/
def takeUpRaw (w : World F α) (s : Setup F α) (container : NodeId) (around : Surroundings)
    (raw : RawConfig F) : World F α × List (Run F α) :=
  w.takeUpAll container around (raw.normalize s.engine)

/-- The items of the shown part of a list, each with its place in the list. -/
def listItems (items : List Value) (start stop : Nat) : List (Value × ListItem) :=
  (List.range (stop - start)).filterMap fun i =>
    (items[start + i]?).map fun v => (v, ⟨items, start, stop, start + i⟩)

/-- Takes up a raw config for each item; the runs of an item stay together. -/
def takeUpItems (w : World F α) (s : Setup F α) (container : NodeId) (raw : RawConfig F)
    (context : Value) : List (Value × ListItem) → World F α × List (List (Run F α))
  | [] => (w, [])
  | (v, item) :: r =>
    let (w, runs) := w.takeUpRaw s container ⟨v, item.context context, some item⟩ raw
    let (w, more) := w.takeUpItems s container raw context r
    (w, runs :: more)

/-- Takes up a part of a list; if items are left after it, that is shown too. -/
def takeUpList (w : World F α) (s : Setup F α) (container : NodeId) (page : Page F)
    (all : Bool) : World F α × List (List (Run F α)) :=
  let start := min page.offset page.items.length
  let limit := if all then none else page.limit
  let stop := match limit with
    | none => page.items.length
    | some n => min (start + n) page.items.length
  let (w, batches) := w.takeUpItems s container page.item page.context
    (listItems page.items start stop)
  if stop < page.items.length then
    let rest := { page with offset := stop, limit := limit }
    ({ w with scene := w.scene.showMore s.settings container rest }, batches)
  else (w, batches)

def task? (w : World F α) (id : TaskId) : Option (Task F α) :=
  w.tasks.find? (·.id == id)

/-- Puts tasks before the one that waits for them. -/
def insertBefore (owner : TaskId) (new : List (Task F α)) : List (Task F α) → List (Task F α)
  | [] => new
  | t :: ts => if t.id = owner then new ++ t :: ts else t :: insertBefore owner new ts

/-- Numbers pieces of work as tasks with the given owners. -/
def number (owners : List TaskId) (crowded : Bool) : TaskId → List (Work F α) → List (Task F α)
  | _, [] => []
  | n, work :: r => ⟨n, owners, crowded, work⟩ :: number owners crowded (n + 1) r

/-- Starts work that `owner`, itself with the given owners, waits for. -/
def launch (w : World F α) (owner : TaskId) (owners : List TaskId) (works : List (Work F α)) :
    World F α :=
  let new := number (owner :: owners) (crowdBound < works.length) w.nextTask works
  { w with
    tasks := insertBefore owner new w.tasks
    nextTask := w.nextTask + works.length }

/-- A call under way, and the tasks whose outcomes it answers with. -/
structure Ticket where
  call : TaskId
  runs : List TaskId

/-- Starts a call that first waits for work and then does errands. -/
def openCall (w : World F α) (works : List (Work F α)) (errands : List (Errand F)) :
    World F α × TaskId :=
  let call := w.nextTask
  let task : Task F α := ⟨call, [], false, .errands errands⟩
  let w := { w with tasks := w.tasks ++ [task], nextTask := call + 1 }
  (w.launch call [] works, call)

/-- Starts a call that waits for runs and answers with their outcomes. -/
def openRuns (w : World F α) (runs : List (Run F α)) : World F α × Ticket :=
  let (w, call) := w.openCall (runs.map .run) []
  (w, ⟨call, List.range' (call + 1) runs.length⟩)

/-- Starts a call that answers with no outcomes. -/
def openErrands (w : World F α) (works : List (Work F α)) (errands : List (Errand F)) :
    World F α × Ticket :=
  let (w, call) := w.openCall works errands
  (w, ⟨call, []⟩)

/-- Renders a config in normal form at the end of a container. -/
def renderConfig (w : World F α) (container : NodeId) (c : Config F) (data context : Value) :
    World F α × Ticket :=
  let (w, r) := w.takeUp container ⟨data, context, none⟩ c
  w.openRuns [r]

/-- Renders a raw config at the end of a container. -/
def render (w : World F α) (s : Setup F α) (container : NodeId) (raw : RawConfig F)
    (data context : Value) : World F α × Ticket :=
  let (w, runs) := w.takeUpRaw s container ⟨data, context, none⟩ raw
  w.openRuns runs

/-- Renders a part of a list at the end of a container. -/
def renderList (w : World F α) (s : Setup F α) (container : NodeId) (page : Page F) :
    World F α × Ticket :=
  let (w, batches) := w.takeUpList s container page false
  w.openErrands (batches.map .batch) []

/-- Clicks on a node; what the click does beyond reporting is a call of its own. -/
def click (w : World F α) (node : NodeId) : World F α × Ticket :=
  match w.scene.clicks.get? node with
  | none => w.openErrands [] []
  | some c =>
    let w := { w with reported := c.events.reverse ++ w.reported }
    w.openErrands [] c.errands

def discard (w : World F α) (node : NodeId) : World F α :=
  { w with scene := w.scene.discard node }

def outcomeOf? (w : World F α) (t : TaskId) : Option Outcome :=
  w.outcomes.get? t

/-- The outcomes of a call, in the order of its configs. -/
def outcomesOf (w : World F α) (t : Ticket) : List (Option Outcome) :=
  t.runs.map w.outcomeOf?

end World

end Montage
