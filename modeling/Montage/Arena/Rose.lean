import Montage.Arena.Tree

/-!
Text of plain trees.
-/

namespace Montage.Rose

variable {α : Type}

mutual

/-- What the items of a tree give, put together in order, a node before its children. -/
def gather (f : α → List Char) : Rose α → List Char
  | .node item children => f item ++ gatherAll f children

def gatherAll (f : α → List Char) : List (Rose α) → List Char
  | [] => []
  | r :: rs => gather f r ++ gatherAll f rs

end

end Montage.Rose
