import Montage.Json.Value
import Montage.Text.Blank

/-!
How many items of a list are shown at a time.
-/

namespace Montage

open Json (Value)

/-- False shows everything. A positive number is the limit, also as a text; its fraction is dropped,
and it is kept below the bound of counts. Anything else leaves the default. -/
def listLimit (value : Option Value) (default : Option Nat) : Option Nat :=
  match value with
  | some (.bool false) => none
  | some (.num n) =>
    match n.toBinary64? with
    | some x => if x.atLeastOne then some (min x.whole (Text.countBound - 1)) else default
    | none => default
  | some (.str s) =>
    match Text.readCount (Text.trim s.toList) with
    | some n => if 0 < n then some n else default
    | none => default
  | _ => default

end Montage
