/-!
Numbered requests, of which only the latest counts.
-/

namespace Montage

/-- The number of the latest request; zero before the first. -/
structure Requests where
  latest : Nat

namespace Requests

def start : Requests := ⟨0⟩

/-- Issues a request that supersedes every earlier one. -/
def issue (r : Requests) : Requests × Nat :=
  (⟨r.latest + 1⟩, r.latest + 1)

def isCurrent (r : Requests) (ticket : Nat) : Bool :=
  r.latest == ticket

/-- The result, if its request still counts. -/
def accept {α : Type} (r : Requests) (ticket : Nat) (result : α) : Option α :=
  if r.isCurrent ticket then some result else none

end Requests

end Montage
