import Montage.Render.Step

/-!
Running calls until they stall. The tasks of a call take turns from the front of the list, so that
siblings begin in order and a task goes on once those it waits for are done.
-/

namespace Montage

variable {F α : Type} [Medium α]

namespace World

/-- One step of the first task of a call that can step. -/
def stepCall (w : World F α) (s : Setup F α) (call : TaskId) : Option (World F α) :=
  w.tasks.findSome? fun t => if t.call = call then w.step s t.id else none

/-- Steps a call until it stalls or the fuel is used up. -/
def runCall (s : Setup F α) (call : TaskId) : Nat → World F α → World F α
  | 0, w => w
  | fuel + 1, w =>
    match w.stepCall s call with
    | none => w
    | some w => runCall s call fuel w

/-- Runs calls one after the other; each notes what it waits for then. -/
def runCalls (s : Setup F α) (fuel : Nat) (w : World F α) (calls : List TaskId) : World F α :=
  calls.foldl (fun w call =>
    let w := runCall s call fuel w
    w.noteWaiting (w.tasks.filter (·.call == call))) w

end World

end Montage
