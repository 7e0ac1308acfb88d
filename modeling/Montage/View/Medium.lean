import Montage.Arena.Rose
import Montage.Settings
import Montage.View.Options

/-!
A medium is a kind of node that views can be painted with. Both media share one pipeline; here is all
that it asks of them.
-/

namespace Montage

open Json (Value)

/-- A value that stands for a known thing. -/
structure Marker where
  kind : String
  title : String
  href : Option String
deriving DecidableEq

/-- Ways of painting that a medium brings along. -/
inductive Builtin where
  | text
  | content
  | list
  | value
  | button
deriving DecidableEq, Repr

/-- A button that shows the next page of a list, or all that is left. -/
structure Button (α : Type) where
  all : Bool
  node : α
  label : α

/-- What stands after the part of a list that is shown. -/
structure Affordance (α : Type) where
  wrapper : α
  label : Option α
  buttons : List (Button α)

class Medium (α : Type) where
  /-- Changes to a node that keep what kind of node it is. -/
  Mark : Type
  mark : Mark → α → α
  text : String → α
  /-- Holds the place of a view that is not yet painted. -/
  reserved : α
  /-- Turns a held place into a trace of a view that is not shown. -/
  skip : α → α
  /-- The node that a view paints into. -/
  output : Shape → α
  isFragment : α → Bool
  takesTooltip : α → Bool
  addClass : String → α → α
  failure : Error → Option Value → Rose α
  value : Settings → Option Marker → Value → Rose α
  /-- For a page size and the number of items that are left. -/
  more : Settings → Option Nat → Nat → Affordance α
  /-- What is odd about a shape. -/
  problems : Shape → List String
  builtins : List (String × Builtin × Shape)

/-- Items that the next page shows. -/
def nextPage (limit : Option Nat) (remaining : Nat) : Nat :=
  match limit with
  | none => remaining
  | some n => min n remaining

end Montage
