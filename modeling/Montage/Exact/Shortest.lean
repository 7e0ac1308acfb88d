import Montage.Exact.Binary64

/-!
The fewest decimal digits that read back as a given number, and of those the nearest.
-/

namespace Montage.Binary64

/-- The decimal `digits * 10 ^ power`. -/
structure Decimal where
  digits : Nat
  power : Int
deriving DecidableEq, Repr

/-- A decimal as a quotient of natural numbers. -/
def Decimal.quotient (d : Decimal) : Nat × Nat :=
  if 0 ≤ d.power then (d.digits * tenTo d.power.toNat, 1) else (d.digits, tenTo (-d.power).toNat)

def quotientLe (a b : Nat × Nat) : Bool :=
  a.1 * b.2 ≤ b.1 * a.2

/-- The distance of two quotients. -/
def distance (a b : Nat × Nat) : Nat × Nat :=
  let x := a.1 * b.2
  let y := b.1 * a.2
  (max x y - min x y, a.2 * b.2)

def pow2Quotient (m : Nat) (e : Int) : Nat × Nat :=
  if 0 ≤ e then (m * twoTo e.toNat, 1) else (m, twoTo (-e).toNat)

/-- Half way to the number below. The step down is half as long from a power of two. -/
def lowerEnd (x : Binary64) : Nat × Nat :=
  if x.mantissa == twoTo 52 && leastExponent < x.exponent then
    pow2Quotient (4 * x.mantissa - 1) (x.exponent - 2)
  else pow2Quotient (2 * x.mantissa - 1) (x.exponent - 1)

/-- Half way to the number above. -/
def upperEnd (x : Binary64) : Nat × Nat :=
  pow2Quotient (2 * x.mantissa + 1) (x.exponent - 1)

/-- Whether a decimal rounds to `x`; the ends of the interval do when the mantissa is even. -/
def readsBack (x : Binary64) (d : Decimal) : Bool :=
  let v := d.quotient
  if x.mantissa % 2 == 0 then quotientLe x.lowerEnd v && quotientLe v x.upperEnd
  else !quotientLe v x.lowerEnd && !quotientLe x.upperEnd v

/-- Whether `10 ^ k` is at most the size of `x`. -/
def reachesPower (x : Binary64) (k : Int) : Bool :=
  quotientLe (Decimal.quotient ⟨1, k⟩) x.quotient

/-- The greatest power of ten that is at most the size of `x`, searched down from `k`. -/
def leadingPower (x : Binary64) : Nat → Int → Int
  | 0, k => k
  | fuel + 1, k => if x.reachesPower k then k else leadingPower x fuel (k - 1)

/-- The two neighbours of `x` on the grid of multiples of `10 ^ power`, the nearer first; of two
equally near the even one. -/
def neighbours (x : Binary64) (power : Int) : Decimal × Decimal :=
  let (n, d) := if 0 ≤ power then (x.quotient.1, x.quotient.2 * tenTo power.toNat)
    else (x.quotient.1 * tenTo (-power).toNat, x.quotient.2)
  let lower : Decimal := ⟨n / d, power⟩
  let upper : Decimal := ⟨n / d + 1, power⟩
  let r := n % d
  if 2 * r < d || (2 * r == d && n / d % 2 == 0) then (lower, upper) else (upper, lower)

/-- Tries grids from coarse to fine until a neighbour reads back. -/
def shortestFrom (x : Binary64) : Nat → Int → Decimal
  | 0, power => (x.neighbours power).1
  | fuel + 1, power =>
    let (near, far) := x.neighbours power
    if x.readsBack near then near
    else if x.readsBack far then far
    else shortestFrom x fuel (power - 1)

/-- The shortest decimal that reads back as a number other than zero. -/
def shortest (x : Binary64) : Decimal :=
  shortestFrom x 17 (x.leadingPower 640 310)

end Montage.Binary64
