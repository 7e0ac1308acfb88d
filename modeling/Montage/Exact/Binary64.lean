import Montage.Exact.Power

/-!
Finite binary floating point numbers with 53 significant bits, in exact arithmetic. Rounding takes a
quotient of natural numbers to the nearest such number, a tie to the even mantissa.
-/

namespace Montage

/-- The number `± mantissa * 2 ^ exponent`. The mantissa has 53 bits, or fewer at the least
exponent. -/
structure Binary64 where
  negative : Bool
  mantissa : Nat
  exponent : Int
deriving DecidableEq, Repr

namespace Binary64

def leastExponent : Int := -1074

def greatestExponent : Int := 971

def zero (negative : Bool) : Binary64 :=
  ⟨negative, 0, leastExponent⟩

def isZero (x : Binary64) : Bool :=
  x.mantissa == 0

/-- Equality of numbers: both zeros are one number. -/
def same (x y : Binary64) : Bool :=
  (x.isZero && y.isZero) || x == y

def negate (x : Binary64) : Binary64 :=
  { x with negative := !x.negative }

/-- `num / den` to the nearest integer, a tie to the even one. -/
def divideToEven (num den : Nat) : Nat :=
  let q := num / den
  let r := num % den
  if den < 2 * r || (2 * r == den && q % 2 == 1) then q + 1 else q

/-- `num / (den * 2 ^ e)` as a quotient of natural numbers. -/
def scaled (num den : Nat) (e : Int) : Nat × Nat :=
  if 0 ≤ e then (num, den * twoTo e.toNat) else (num * twoTo (-e).toNat, den)

/-- The exponent at which `num / den` has a mantissa of 53 bits, held within range below. -/
def exponentOf (num den : Nat) : Int :=
  let e : Int := (num.log2 : Int) - (den.log2 : Int) - 53
  let (n, d) := scaled num den e
  let e := if twoTo 53 ≤ n / d then e + 1 else e
  max e leastExponent

/-- The nearest number to `± num / den`, or none beyond the greatest. -/
def ofQuotient (negative : Bool) (num den : Nat) : Option Binary64 :=
  if num == 0 then some (zero negative)
  else
    let e := exponentOf num den
    let (n, d) := scaled num den e
    let m := divideToEven n d
    let (m, e) := if m == twoTo 53 then (twoTo 52, e + 1) else (m, e)
    if greatestExponent < e then none else some ⟨negative, m, e⟩

def ofNat (n : Nat) : Option Binary64 :=
  ofQuotient false n 1

/-- `mantissa * 2 ^ exponent` as a quotient of natural numbers. -/
def quotient (x : Binary64) : Nat × Nat :=
  if 0 ≤ x.exponent then (x.mantissa * twoTo x.exponent.toNat, 1)
  else (x.mantissa, twoTo (-x.exponent).toNat)

def mul (x y : Binary64) : Option Binary64 :=
  ofQuotient (x.negative != y.negative) (x.quotient.1 * y.quotient.1) (x.quotient.2 * y.quotient.2)

/-- The divisor is taken to be other than zero. -/
def div (x y : Binary64) : Option Binary64 :=
  ofQuotient (x.negative != y.negative) (x.quotient.1 * y.quotient.2) (x.quotient.2 * y.quotient.1)

/-- `± digits * 10 ^ power`, rounded once. -/
def ofDecimal (negative : Bool) (digits : Nat) (power : Int) : Option Binary64 :=
  if 0 ≤ power then ofQuotient negative (digits * tenTo power.toNat) 1
  else ofQuotient negative digits (tenTo (-power).toNat)

def atLeastOne (x : Binary64) : Bool :=
  !x.negative && x.quotient.2 ≤ x.quotient.1

/-- The size of the number without its fraction. -/
def whole (x : Binary64) : Nat :=
  x.quotient.1 / x.quotient.2

end Binary64

end Montage
