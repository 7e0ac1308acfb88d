import Montage.Exact.Power

/-!
Decimal numerals. A count is a natural number below `2 ^ 64`; it may be written with a plus sign and
with leading zeros.
-/

namespace Montage.Text

def digitValue (c : Char) : Nat :=
  c.toNat - '0'.toNat

/-- The number written by a list of decimal digits. -/
def digitsValue (ds : List Char) : Nat :=
  ds.foldl (fun n c => 10 * n + digitValue c) 0

/-- Counts stay below this bound. -/
def countBound : Nat := twoTo 64

def dropPlus : List Char → List Char
  | '+' :: r => r
  | s => s

def readCount (s : List Char) : Option Nat :=
  let ds := dropPlus s
  if ds.isEmpty || !ds.all Char.isDigit then none
  else
    let n := digitsValue ds
    if n < countBound then some n else none

/-- Decimal digits without leading zeros. -/
def numeral (n : Nat) : List Char :=
  Nat.toDigits 10 n

end Montage.Text
