import Montage.Exact.Shortest
import Montage.Text.Numeral

/-!
The numbers of data: whole numbers of at most 64 bits, and binary floating point numbers. The two
kinds are never equal to each other.
-/

namespace Montage.Json

inductive Number where
  | int (n : Int)
  | float (x : Binary64)
deriving DecidableEq, Repr

namespace Number

def same : Number → Number → Bool
  | .int a, .int b => a == b
  | .float x, .float y => x.same y
  | _, _ => false

/-- The nearest floating point number. -/
def toBinary64? : Number → Option Binary64
  | .int n => Binary64.ofQuotient (n < 0) n.natAbs 1
  | .float x => some x

def isZero : Number → Bool
  | .int n => n == 0
  | .float x => x.isZero

/-- How floating point numbers are written. -/
structure FloatForm where
  /-- Powers of ten of the first digit that are written without an exponent. -/
  leastPlain : Int
  greatestPlain : Int
  /-- What ends a plain number that has no fraction. -/
  fraction : List Char
  positiveSign : List Char

def floatForm : FloatForm :=
  ⟨-5, 15, ['.', '0'], ['+']⟩

def zeros (n : Nat) : List Char :=
  List.replicate n '0'

/-- Zeros at the end of the digits go into the power. -/
def stripZeros : Nat → Binary64.Decimal → Binary64.Decimal
  | 0, d => d
  | fuel + 1, d =>
    if d.digits % 10 == 0 then stripZeros fuel ⟨d.digits / 10, d.power + 1⟩ else d

def exponentText (form : FloatForm) (e : Int) : List Char :=
  (if e < 0 then ['-'] else form.positiveSign) ++ Text.numeral e.natAbs

/-- Writes `digits * 10 ^ power`, where `digits` is not zero. -/
def decimalText (form : FloatForm) (d : Binary64.Decimal) : List Char :=
  let ds := Text.numeral d.digits
  let lead : Int := d.power + ds.length - 1
  if form.leastPlain ≤ lead && lead ≤ form.greatestPlain then
    if 0 ≤ d.power then ds ++ zeros d.power.toNat ++ form.fraction
    else if 0 ≤ lead then ds.take (lead.toNat + 1) ++ ['.'] ++ ds.drop (lead.toNat + 1)
    else ['0', '.'] ++ zeros (-lead - 1).toNat ++ ds
  else
    let rest := ds.drop 1
    ds.take 1 ++ (if rest.isEmpty then [] else '.' :: rest) ++ ['e'] ++ exponentText form lead

def floatText (x : Binary64) : List Char :=
  let sign := if x.negative then ['-'] else []
  if x.isZero then sign ++ ['0'] ++ floatForm.fraction
  else sign ++ decimalText floatForm (stripZeros 20 x.shortest)

def text : Number → List Char
  | .int n => (if n < 0 then ['-'] else []) ++ Text.numeral n.natAbs
  | .float x => floatText x

end Number

end Montage.Json
