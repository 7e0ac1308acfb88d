import Montage.Render.World

/-!
Which gates the tasks under way wait for, and whom a gate tells when it opens. A gate tells its
waiters in the order in which they began to wait. Tasks with one owner are looked at in order; a
crowd is not, but those of it that were told are looked at in the order of being told.
-/

namespace Montage

variable {F α : Type} [Medium α]

namespace World

/-- Whether a task waits for others that are under way. -/
def hasChildren (w : World F α) (id : TaskId) : Bool :=
  w.tasks.any (·.owner? == some id)

/-- The gates a task stands before. -/
def blockedOn (w : World F α) (t : Task F α) : List Gate :=
  let closed := fun (g : Gate) => if w.opened.contains g then [] else [g]
  if w.hasChildren t.id then []
  else match t.work with
    | .errands (.wait g :: _) => closed g
    | .errands _ => []
    | .batch _ => []
    | .run r =>
      match r.phase with
      | .preparing p => p.blockedOn w.opened
      | .painting _ _ (.wait g :: _) _ => closed g
      | .painting .. => []

/-- Whether a task is told by itself, and not together with its owner. -/
def isToldAlone (w : World F α) (id : TaskId) : Bool :=
  (w.task? id).any fun t => t.crowded || t.owners.isEmpty

/-- Whether a task gathers a crowd of props. -/
def gathersCrowd (t : Task F α) : Bool :=
  match t.work with
  | .run { phase := .preparing (.gathering _ asked), .. } => crowdBound < asked.length
  | _ => false

def waiterOf (w : World F α) (t : Task F α) : Waiter where
  line := (t.id :: t.owners).filter w.isToldAlone
  gathers := if gathersCrowd t then some t.id else none

def noteGates (w : World F α) (t : Task F α) (gates : List Gate) : World F α :=
  match gates with
  | [] => w
  | _ =>
    let x := w.waiterOf t
    { w with
      waiting := gates.foldl (fun ws g => if ws.contains (g, x) then ws else ws ++ [(g, x)])
        w.waiting }

/-- Notes the gates that tasks have come to wait for. -/
def noteWaiting (w : World F α) (tasks : List (Task F α)) : World F α :=
  tasks.foldl (fun w t => w.noteGates t (w.blockedOn t)) w

/-- Notes the gates that a preparation came to wait for before it failed; the other tasks of the call
have begun to wait before. -/
def notePassing (w : World F α) (t : Task F α) (p : Preparation F) : World F α :=
  match p with
  | .gathering _ asked =>
    if asked.length ≤ crowdBound then
      let before := (w.tasks.takeWhile (·.id != t.id)).filter (·.call == t.call)
      (w.noteWaiting before).noteGates t (gatesBeforeError w.opened asked)
    else w
  | _ => w

/-- Whether a waiter is still there to be told. -/
def heeds (w : World F α) (x : Waiter) : Bool :=
  match x.gathers with
  | some id => (w.task? id).any gathersCrowd
  | none => x.line.head?.any fun id => (w.task? id).isSome

/-- The tasks that are told when a gate opens, in order. -/
def told (w : World F α) (g : Gate) : List TaskId :=
  ((w.waiting.filter fun r => r.1 == g && w.heeds r.2).flatMap (·.2.line)).eraseDups

/-- Moves a task with all that work for it before the others of its owner. -/
def bringForward (tasks : List (Task F α)) (t : Task F α) : List (Task F α) :=
  match t.owner? with
  | none => tasks
  | some owner =>
    let (mine, others) := tasks.partition (·.isWithin t.id)
    let (before, after) := others.span fun u => !u.isWithin owner
    before ++ mine ++ after

/-- Opens a gate, and tells which calls are to go on, in order. Gates stay open. -/
def release (w : World F α) (g : Gate) : World F α × List TaskId :=
  let (calls, crowd) := ((w.told g).filterMap w.task?).partition (·.owners.isEmpty)
  ({ w with
      opened := g :: w.opened
      waiting := w.waiting.filter (·.1 != g)
      tasks := crowd.reverse.foldl bringForward w.tasks }, calls.map (·.id))

end World

end Montage
