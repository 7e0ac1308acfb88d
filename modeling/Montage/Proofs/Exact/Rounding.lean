import Mathlib.Data.Nat.Log
import Mathlib.Data.Nat.Dist
import Mathlib.Tactic.Ring
import Montage.Exact.Binary64

/-!
Whole numbers as binary floating point numbers. Main statement: a whole number is rounded to a nearest one of those
with 53 significant bits, and so it stays as it is just if it is one of them.
-/

namespace Montage.Binary64

variable {n d m : Nat}

/-! Rounding a quotient. -/

theorem divideToEven_cases (n d : Nat) :
    divideToEven n d = n / d ∧ 2 * (n % d) ≤ d ∨ divideToEven n d = n / d + 1 ∧ d ≤ 2 * (n % d) := by
  simp only [divideToEven, Bool.or_eq_true, decide_eq_true_eq, Bool.and_eq_true, beq_iff_eq]
  split_ifs with h
  · exact .inr ⟨rfl, by omega⟩
  · exact .inl ⟨rfl, by omega⟩

theorem divideToEven_of_dvd (hd : 0 < d) (h : d ∣ n) : divideToEven n d = n / d := by
  rcases divideToEven_cases n d with ⟨hdown, -⟩ | ⟨-, hup⟩
  · exact hdown
  · rw [Nat.mod_eq_zero_of_dvd h] at hup
    omega

/-- No multiple of the divisor is nearer than the one that a quotient is rounded to. -/
theorem dist_divideToEven_le (hd : 0 < d) (k : Nat) :
    Nat.dist (divideToEven n d * d) n ≤ Nat.dist (k * d) n := by
  have hdiv : n / d * d + n % d = n := Nat.div_add_mod' n d
  have hmod : n % d < d := Nat.mod_lt n hd
  -- The divisor's multiples on the way down end with the quotient, and those on the way up begin behind it.
  have hk : k * d ≤ n / d * d ∨ n / d * d + d ≤ k * d := by
    rw [← Nat.succ_mul]
    exact (Nat.lt_or_ge (n / d) k).symm.imp (Nat.mul_le_mul_right d) (Nat.mul_le_mul_right d)
  unfold Nat.dist
  rcases divideToEven_cases n d with ⟨hdown, hr⟩ | ⟨hup, hr⟩
  · rw [hdown]
    omega
  · rw [hup, Nat.succ_mul]
    omega

/-! Numbers of 53 bits. -/

/-- A whole number with at most 53 significant bits. -/
def IsExact (n : Nat) : Prop :=
  ∃ m k, m < 2 ^ 53 ∧ n = m * 2 ^ k

theorem isExact_of_lt (h : n < 2 ^ 53) : IsExact n :=
  ⟨n, 0, h, (Nat.mul_one n).symm⟩

/-- The last of the 53 bits of a number, or one if it has fewer bits. -/
def lastBit (n : Nat) : Nat :=
  2 ^ (n.log2 - 52)

theorem lastBit_pos (n : Nat) : 0 < lastBit n :=
  Nat.two_pow_pos _

theorem lt_mul_lastBit (n : Nat) : n < 2 ^ 53 * lastBit n := by
  rw [lastBit, ← Nat.pow_add]
  exact Nat.lt_of_lt_of_le Nat.lt_log2_self (Nat.pow_le_pow_right (by decide) (by omega))

theorem isExact_iff (hn : n ≠ 0) : IsExact n ↔ lastBit n ∣ n := by
  constructor
  · rintro ⟨m, k, hm, rfl⟩
    have hlog : (m * 2 ^ k).log2 < 53 + k := by
      rw [Nat.log2_lt hn, Nat.pow_add]
      exact Nat.mul_lt_mul_of_pos_right hm (Nat.two_pow_pos k)
    exact Nat.dvd_mul_left_of_dvd (Nat.pow_dvd_pow 2 (by omega)) m
  · rintro ⟨m, hm⟩
    have hless : lastBit n * m < lastBit n * 2 ^ 53 := by
      rw [← hm, Nat.mul_comm]
      exact lt_mul_lastBit n
    exact ⟨m, n.log2 - 52, Nat.lt_of_mul_lt_mul_left hless, hm.trans (Nat.mul_comm ..)⟩

/-- The least number of as many bits is a multiple of the last bit of any of them. -/
theorem lastBit_dvd_leading (n : Nat) : lastBit n ∣ 2 ^ n.log2 :=
  Nat.pow_dvd_pow 2 (Nat.sub_le ..)

/-- A nearest number of 53 bits. -/
def nearest (n : Nat) : Nat :=
  divideToEven n (lastBit n) * lastBit n

theorem nearest_eq_self_iff (hn : n ≠ 0) : nearest n = n ↔ IsExact n := by
  rw [isExact_iff hn]
  constructor
  · exact fun h => Dvd.intro_left _ h
  · intro h
    rw [nearest, divideToEven_of_dvd (lastBit_pos n) h, Nat.div_mul_cancel h]

/-- A quotient of 53 bits may be rounded up to the next power of two, and to no greater number. -/
theorem divideToEven_lastBit_le (n : Nat) : divideToEven n (lastBit n) ≤ 2 ^ 53 := by
  have hdiv : n / lastBit n < 2 ^ 53 := (Nat.div_lt_iff_lt_mul (lastBit_pos n)).mpr (lt_mul_lastBit n)
  rcases divideToEven_cases n (lastBit n) with ⟨h, -⟩ | ⟨h, -⟩ <;> omega

theorem isExact_nearest (n : Nat) : IsExact (nearest n) := by
  rcases Nat.lt_or_eq_of_le (divideToEven_lastBit_le n) with hless | htop
  · exact ⟨_, _, hless, rfl⟩
  · refine ⟨2 ^ 52, n.log2 - 52 + 1, by decide, ?_⟩
    rw [nearest, htop, lastBit]
    ring

/-- No number of 53 bits is nearer. -/
theorem dist_nearest_le (hn : n ≠ 0) {y : Nat} (hy : IsExact y) : Nat.dist (nearest n) n ≤ Nat.dist y n := by
  have hmultiple : ∀ z, lastBit n ∣ z → Nat.dist (nearest n) n ≤ Nat.dist z n := by
    rintro _ ⟨k, rfl⟩
    rw [Nat.mul_comm]
    exact dist_divideToEven_le (lastBit_pos n) k
  have hlow : 2 ^ n.log2 ≤ n := Nat.log2_self_le hn
  by_cases hsmall : y < 2 ^ n.log2
  · -- A number of fewer bits is farther away than the least one of as many bits.
    refine (hmultiple _ (lastBit_dvd_leading n)).trans ?_
    unfold Nat.dist
    omega
  · have hy0 : y ≠ 0 := by
      rintro rfl
      exact hsmall (Nat.two_pow_pos _)
    have hlog : n.log2 ≤ y.log2 := (Nat.le_log2 hy0).mpr (Nat.le_of_not_lt hsmall)
    have hbits : lastBit n ∣ lastBit y := Nat.pow_dvd_pow 2 (Nat.sub_le_sub_right hlog 52)
    exact hmultiple y (hbits.trans ((isExact_iff hy0).mp hy))

/-- No number of 53 bits is nearer to `n` than `x`, which is one of them. -/
structure IsNearest (x n : Nat) : Prop where
  exact : IsExact x
  least : ∀ y, IsExact y → Nat.dist x n ≤ Nat.dist y n

theorem isNearest_nearest (hn : n ≠ 0) : IsNearest (nearest n) n :=
  ⟨isExact_nearest n, fun _ hy => dist_nearest_le hn hy⟩

theorem nearest_pos (hn : n ≠ 0) : 0 < nearest n := by
  have hleading : IsExact (2 ^ n.log2) := ⟨1, n.log2, by decide, (Nat.one_mul _).symm⟩
  have hdist := dist_nearest_le hn hleading
  have hlow : 2 ^ n.log2 ≤ n := Nat.log2_self_le hn
  have hpos := Nat.two_pow_pos n.log2
  unfold Nat.dist at hdist
  omega

/-! What the rounding gives. -/

theorem scaled_of_nonneg {e : Int} (he : 0 ≤ e) (num den : Nat) :
    scaled num den e = (num, den * 2 ^ e.toNat) :=
  if_pos he

theorem scaled_of_neg {e : Int} (he : e < 0) (num den : Nat) :
    scaled num den e = (num * 2 ^ (-e).toNat, den) :=
  if_neg (Int.not_le.mpr he)

/-- One less than the exponent at which a whole number has 53 bits, its quotient has 54. -/
theorem le_scaled (hn : n ≠ 0) :
    2 ^ 53 ≤ (scaled n 1 ((n.log2 : Int) - 53)).1 / (scaled n 1 ((n.log2 : Int) - 53)).2 := by
  have hlow : 2 ^ n.log2 ≤ n := Nat.log2_self_le hn
  by_cases he : (n.log2 : Int) - 53 < 0
  · rw [scaled_of_neg he, Nat.div_one]
    have hpow : (2 : Nat) ^ 53 = 2 ^ n.log2 * 2 ^ (-((n.log2 : Int) - 53)).toNat := by
      rw [← Nat.pow_add]
      congr 1
      omega
    rw [hpow]
    exact Nat.mul_le_mul_right _ hlow
  · rw [scaled_of_nonneg (Int.not_lt.mp he), Nat.one_mul, Nat.le_div_iff_mul_le (Nat.two_pow_pos _),
      ← Nat.pow_add]
    refine Nat.le_trans (Nat.pow_le_pow_right (by decide) ?_) hlow
    omega

/-- The exponent at which a whole number has 53 bits. -/
theorem exponentOf_one (hn : n ≠ 0) : exponentOf n 1 = (n.log2 : Int) - 52 := by
  have hlog : (Nat.log2 1 : Int) = 0 := rfl
  have hlong := le_scaled hn
  simp only [exponentOf, hlog, Int.sub_zero, twoTo, Nat.pow_eq, hlong, ↓reduceIte, leastExponent]
  omega

/-- The mantissa that a whole number is rounded to, with its exponent. -/
theorem ofQuotient_one_eq (hn : n ≠ 0) (hbound : n.log2 ≤ 1022)
    (hm : divideToEven (scaled n 1 ((n.log2 : Int) - 52)).1 (scaled n 1 ((n.log2 : Int) - 52)).2 = m) :
    ofQuotient false n 1 =
      if m = 2 ^ 53 then some ⟨false, 2 ^ 52, (n.log2 : Int) - 52 + 1⟩
      else some ⟨false, m, (n.log2 : Int) - 52⟩ := by
  have hzero : (n == 0) = false := beq_false_of_ne hn
  have hcarried : ¬ greatestExponent < (n.log2 : Int) - 52 + 1 := by
    unfold greatestExponent
    omega
  have hplain : ¬ greatestExponent < (n.log2 : Int) - 52 := by
    unfold greatestExponent
    omega
  simp only [ofQuotient, hzero, Bool.false_eq_true, ↓reduceIte, exponentOf_one hn, hm, twoTo, Nat.pow_eq, beq_iff_eq]
  split_ifs <;> rfl

theorem quotient_of_nonneg {e : Int} (he : 0 ≤ e) (negative : Bool) (m : Nat) :
    quotient ⟨negative, m, e⟩ = (m * 2 ^ e.toNat, 1) :=
  if_pos he

theorem quotient_of_neg {e : Int} (he : e < 0) (negative : Bool) (m : Nat) :
    quotient ⟨negative, m, e⟩ = (m, 2 ^ (-e).toNat) :=
  if_neg (Int.not_le.mpr he)

/-- A whole number is rounded to a nearest one of 53 bits. -/
theorem ofQuotient_one (hn : n ≠ 0) (hbound : n.log2 ≤ 1022) : ∃ x, ofQuotient false n 1 = some x ∧
    x.negative = false ∧ 0 < x.quotient.2 ∧ x.quotient.1 = nearest n * x.quotient.2 := by
  by_cases hsmall : n.log2 < 52
  · have he : (n.log2 : Int) - 52 < 0 := by omega
    have hm := divideToEven_of_dvd Nat.one_pos (Nat.one_dvd (n * 2 ^ (-((n.log2 : Int) - 52)).toNat))
    rw [Nat.div_one] at hm
    have hless : n * 2 ^ (-((n.log2 : Int) - 52)).toNat < 2 ^ 53 := by
      have hpow : (2 : Nat) ^ 53 = 2 ^ (n.log2 + 1) * 2 ^ (-((n.log2 : Int) - 52)).toNat := by
        rw [← Nat.pow_add]
        congr 1
        omega
      rw [hpow]
      exact Nat.mul_lt_mul_of_pos_right Nat.lt_log2_self (Nat.two_pow_pos _)
    have hnearest : nearest n = n :=
      (nearest_eq_self_iff hn).mpr (isExact_of_lt ((Nat.log2_lt hn).mp (by omega)))
    rw [ofQuotient_one_eq hn hbound (by rw [scaled_of_neg he, hm]), if_neg (Nat.ne_of_lt hless)]
    refine ⟨_, rfl, rfl, ?_⟩
    rw [quotient_of_neg he, hnearest]
    exact ⟨Nat.two_pow_pos _, rfl⟩
  · have he : 0 ≤ (n.log2 : Int) - 52 := by omega
    have hexponent : ((n.log2 : Int) - 52).toNat = n.log2 - 52 := by omega
    have hnext : ((n.log2 : Int) - 52 + 1).toNat = n.log2 - 52 + 1 := by omega
    rw [ofQuotient_one_eq hn hbound (by rw [scaled_of_nonneg he, hexponent, Nat.one_mul, ← lastBit])]
    split_ifs with htop
    · refine ⟨_, rfl, rfl, ?_⟩
      rw [quotient_of_nonneg (by omega), hnext, nearest, htop, lastBit]
      exact ⟨Nat.one_pos, by ring⟩
    · refine ⟨_, rfl, rfl, ?_⟩
      rw [quotient_of_nonneg he, hexponent, nearest, lastBit]
      exact ⟨Nat.one_pos, (Nat.mul_one _).symm⟩

end Montage.Binary64
