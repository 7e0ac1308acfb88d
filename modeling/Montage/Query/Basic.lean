import Montage.Error
import Montage.Json.Printer

/-!
Queries and the engines that answer them. An answer may have to wait until gates have opened; what it
reports is reported when the query is asked.
-/

namespace Montage

open Json (Value)

/-- A named event that work may wait for. -/
abbrev Gate := String

/-- Something reported to the host, in the order of reporting. -/
abbrev Event := Value

structure Answer where
  events : List Event
  gates : List Gate
  result : Except Error Value

namespace Answer

def now (result : Except Error Value) : Answer :=
  ⟨[], [], result⟩

/-- Whether all gates that the answer waits for are open. -/
def isReady (a : Answer) (opened : List Gate) : Bool :=
  a.gates.all opened.contains

/-- The first gate that the answer still waits for. -/
def blockedOn? (a : Answer) (opened : List Gate) : Option Gate :=
  a.gates.find? (fun g => !opened.contains g)

end Answer

/-- A query in a config; `F` names the functions of the host. -/
inductive Query (F : Type) where
  | text (s : String)
  | value (v : Value)
  | function (f : F)

namespace Query

variable {F : Type}

/-- A string is the text of a query, and anything else a value. -/
def ofJson : Value → Query F
  | .str s => .text s
  | v => .value v

def toJson? : Query F → Option Value
  | .text s => some (.str s)
  | .value v => some v
  | .function _ => none

/-- Equality of queries; two functions are never known to be equal. -/
def same : Query F → Query F → Bool
  | .text a, .text b => a == b
  | .value a, .value b => a.same b
  | _, _ => false

end Query

/-- One field of an object literal. The literal is there when the source is a plain value. -/
structure LiteralField where
  key : String
  source : String
  literal : Option Value

/-- A query language. -/
structure Engine where
  query : String → Value → Value → Answer
  parseLiteral : String → Except Error (List LiteralField)
  truthy : Value → Bool

end Montage
