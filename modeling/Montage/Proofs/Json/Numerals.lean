import Mathlib.Data.List.Basic
import Montage.Json.Printer
import Montage.Json.Reader

/-!
Reading numbers that were written. Main statements: a number that is written begins with a digit or a minus
sign, and if it can be read, all of it is read and nothing of what closes the place where it stands.
-/

namespace Montage.Json

/-- What stands behind a value: the end of the text, a comma or a closing bracket. -/
def Closes (rest : List Char) : Prop :=
  ∀ c ∈ rest.head?, c = ',' ∨ c = ']' ∨ c = '\x7d'

theorem closes_nil : Closes [] := nofun

theorem closes_comma (rest : List Char) : Closes (',' :: rest) := by
  simp [Closes]

theorem closes_bracket (rest : List Char) : Closes (']' :: rest) := by
  simp [Closes]

theorem closes_brace (rest : List Char) : Closes ('\x7d' :: rest) := by
  simp [Closes]

namespace Number

variable {negative : Bool} {sig extra : Nat} {power : Int} {s rest : List Char} {n : Number}

/-! What is read of a number does not depend on what closes its place. -/

theorem Closes.head {c : Char} (h : Closes (c :: rest)) :
    c.isDigit = false ∧ c ≠ '.' ∧ c ≠ 'e' ∧ c ≠ 'E' ∧ c ≠ '-' ∧ c ≠ '+' := by
  rcases h c rfl with rfl | rfl | rfl <;> decide

theorem startsWithDigit_append (h : Closes rest) (s : List Char) :
    startsWithDigit (s ++ rest) = startsWithDigit s := by
  cases s with
  | cons c s => rfl
  | nil =>
    cases rest with
    | nil => rfl
    | cons c rest => exact (Closes.head h).1

theorem dropDigits_append (h : Closes rest) (s : List Char) :
    (s ++ rest).dropWhile Char.isDigit = s.dropWhile Char.isDigit ++ rest := by
  induction s with
  | nil =>
    cases rest with
    | nil => rfl
    | cons c rest => simp [(Closes.head h).1]
  | cons c s ih =>
    rw [List.cons_append, List.dropWhile_cons, List.dropWhile_cons, ih]
    split <;> rfl

theorem takeDigits_append (h : Closes rest) (s : List Char) :
    (s ++ rest).takeWhile Char.isDigit = s.takeWhile Char.isDigit := by
  induction s with
  | nil =>
    cases rest with
    | nil => rfl
    | cons c rest => simp [(Closes.head h).1]
  | cons c s ih => rw [List.cons_append, List.takeWhile_cons, List.takeWhile_cons, ih]

theorem absorb_append (h : Closes rest) (sig count : Nat) (s : List Char) :
    absorb sig count (s ++ rest) =
      ((absorb sig count s).1, (absorb sig count s).2.1, (absorb sig count s).2.2 ++ rest) := by
  induction s generalizing sig count with
  | nil =>
    cases rest with
    | nil => rfl
    | cons c rest => simp [absorb, (Closes.head h).1]
  | cons c s ih =>
    rw [List.cons_append, absorb, absorb]
    split
    · exact ih _ _
    · rfl

/-- The same reading with more behind it. -/
def extend (rest : List Char) (read : Option (Number × List Char)) : Option (Number × List Char) :=
  read.map fun p => (p.1, p.2 ++ rest)

theorem absorbExponent_append (h : Closes rest) (m : Nat) (s : List Char) :
    absorbExponent m (s ++ rest) = (absorbExponent m s).map fun p => (p.1, p.2 ++ rest) := by
  induction s generalizing m with
  | nil =>
    cases rest with
    | nil => rfl
    | cons c rest => simp [absorbExponent, (Closes.head h).1]
  | cons c s ih =>
    rw [List.cons_append, absorbExponent, absorbExponent]
    split_ifs
    · exact ih _
    · rfl
    · rfl

/-- An exponent behind its sign. -/
def readPower (negative : Bool) (sig : Nat) (power : Int) (down : Bool) (ds : List Char) :
    Option (Number × List Char) :=
  if !startsWithDigit ds then none
  else match absorbExponent 0 ds with
    | some (n, rest) =>
      (ofParts negative sig (clampPower (if down then power - n else power + n))).map (·, rest)
    | none =>
      if sig != 0 && !down then none
      else some (.float (Binary64.zero negative), ds.dropWhile Char.isDigit)

theorem readExponent_minus (s : List Char) :
    readExponent negative sig power ('-' :: s) = readPower negative sig power true s := rfl

theorem readExponent_plus (s : List Char) :
    readExponent negative sig power ('+' :: s) = readPower negative sig power false s := rfl

theorem readExponent_unsigned (hminus : s.head? ≠ some '-') (hplus : s.head? ≠ some '+') :
    readExponent negative sig power s = readPower negative sig power false s := by
  unfold readExponent
  split
  rename_i down ds hsign
  split at hsign
  · simp at hminus
  · simp at hplus
  · cases hsign
    rfl

/-- A sign may stand before the digits of an exponent. -/
theorem readExponent_cases (s : List Char) :
    (∃ c t down, s = c :: t ∧ (c = '-' ∨ c = '+') ∧ ∀ rest, ∀ negative sig power,
      readExponent negative sig power (c :: (t ++ rest)) = readPower negative sig power down (t ++ rest)) ∨
    s.head? ≠ some '-' ∧ s.head? ≠ some '+' := by
  cases s with
  | nil => simp
  | cons c t =>
    by_cases hminus : c = '-'
    · subst hminus
      exact .inl ⟨_, t, true, rfl, .inl rfl, fun _ _ _ _ => rfl⟩
    by_cases hplus : c = '+'
    · subst hplus
      exact .inl ⟨_, t, false, rfl, .inr rfl, fun _ _ _ _ => rfl⟩
    · exact .inr ⟨by simpa using hminus, by simpa using hplus⟩

theorem extend_map (o : Option Number) (s rest : List Char) :
    extend rest (o.map (·, s)) = o.map (·, s ++ rest) := by
  cases o <;> rfl

theorem readPower_append (h : Closes rest) (down : Bool) (s : List Char) :
    readPower negative sig power down (s ++ rest) =
      extend rest (readPower negative sig power down s) := by
  unfold readPower
  rw [startsWithDigit_append h, absorbExponent_append h, dropDigits_append h]
  by_cases hdigit : startsWithDigit s
  · simp only [hdigit, Bool.not_true, Bool.false_eq_true, ↓reduceIte]
    cases absorbExponent 0 s with
    | some p => exact (extend_map ..).symm
    | none =>
      simp only [Option.map_none]
      split <;> rfl
  · simp [hdigit, extend]

/-- Behind the marks of a number its place is not closed. -/
theorem head?_append (h : Closes rest) (s : List Char) {c : Char}
    (hc : c ∈ ['-', '+', '.', 'e', 'E']) : (s ++ rest).head? = some c ↔ s.head? = some c := by
  cases s with
  | cons d s => rfl
  | nil =>
    cases rest with
    | nil => rfl
    | cons d rest =>
      have hd := Closes.head h
      simp only [List.nil_append, List.head?_cons, List.head?_nil, Option.some.injEq]
      constructor
      · rintro rfl
        simp_all
      · exact nofun

theorem readExponent_append (h : Closes rest) (s : List Char) :
    readExponent negative sig power (s ++ rest) = extend rest (readExponent negative sig power s) := by
  rcases readExponent_cases s with ⟨c, t, down, rfl, -, hsign⟩ | ⟨hminus, hplus⟩
  · have hnone := hsign [] negative sig power
    rw [List.append_nil] at hnone
    rw [List.cons_append, hsign, hnone, readPower_append h]
  · have hminus' := (head?_append h s (c := '-') (by simp)).not.mpr hminus
    have hplus' := (head?_append h s (c := '+') (by simp)).not.mpr hplus
    rw [readExponent_unsigned hminus hplus, readExponent_unsigned hminus' hplus', readPower_append h]

theorem readTail_append (h : Closes rest) (s : List Char) :
    readTail negative sig power (s ++ rest) = extend rest (readTail negative sig power s) := by
  cases s with
  | nil =>
    cases rest with
    | nil => cases hparts : ofParts negative sig power <;> simp [readTail, extend, hparts]
    | cons c rest =>
      obtain ⟨-, -, he, hE, -⟩ := Closes.head h
      cases hparts : ofParts negative sig power <;> simp [readTail, extend, hparts, he, hE]
  | cons c s =>
    rw [List.cons_append, readTail, readTail]
    split
    · exact readExponent_append h s
    · exact (extend_map _ (c :: s) rest).symm

theorem readFraction_append (h : Closes rest) (s : List Char) :
    readFraction negative sig power (s ++ rest) = extend rest (readFraction negative sig power s) := by
  unfold readFraction
  rw [absorb_append h]
  simp only [startsWithDigit_append h, dropDigits_append h, readTail_append h]
  split_ifs <;> rfl

/-- Without a point, the whole part is a whole number if no exponent follows and it is not too long. -/
theorem readRest_whole (h : s.head? ≠ some '.') : readRest negative sig extra s =
    if s.head? = some 'e' ∨ s.head? = some 'E' ∨ extra ≠ 0 then readTail negative sig extra s
    else some (ofInteger negative sig, s) := by
  unfold readRest
  split
  · simp at h
  · simp [or_assoc]
  · simp

theorem readRest_append (h : Closes rest) (s : List Char) :
    readRest negative sig extra (s ++ rest) = extend rest (readRest negative sig extra s) := by
  by_cases hpoint : s.head? = some '.'
  · obtain ⟨t, rfl⟩ := List.head?_eq_some_iff.mp hpoint
    exact readFraction_append h t
  · rw [readRest_whole hpoint, readRest_whole ((head?_append h s (by simp)).not.mpr hpoint)]
    simp only [head?_append h s (c := 'e') (by simp), head?_append h s (c := 'E') (by simp),
      readTail_append h]
    split_ifs <;> rfl

theorem read_digit {c : Char} (hzero : c ≠ '0') (hdigit : c.isDigit) (s : List Char) :
    read negative (c :: s) = readRest negative (absorb 0 0 (c :: s)).1
      ((absorb 0 0 (c :: s)).2.2.takeWhile Char.isDigit).length
      ((absorb 0 0 (c :: s)).2.2.dropWhile Char.isDigit) := by
  have hdrop : ∀ t : List Char,
      t.drop (t.takeWhile Char.isDigit).length = t.dropWhile Char.isDigit := by
    intro t
    induction t with
    | nil => rfl
    | cons d t ih => by_cases hd : d.isDigit <;> simp [hd, ih]
  unfold read
  split
  · simp_all
  · simp [startsWithDigit, hdigit, hdrop]

/-- What closes the place of a number has no part in it. -/
theorem read_append (h : Closes rest) {c : Char} (hdigit : c.isDigit) (s : List Char) :
    read negative (c :: (s ++ rest)) = extend rest (read negative (c :: s)) := by
  by_cases hzero : c = '0'
  · subst hzero
    simp only [read, startsWithDigit_append h, readRest_append h]
    split_ifs <;> rfl
  · have hwhole := absorb_append h 0 0 (c :: s)
    rw [List.cons_append] at hwhole
    rw [read_digit hzero hdigit, read_digit hzero hdigit, hwhole]
    simp only [dropDigits_append h, takeDigits_append h, readRest_append h]

/-! A number that is written is read to its end, if it can be read. -/

def IsDigits (s : List Char) : Prop :=
  ∀ c ∈ s, c.isDigit

/-- The exponent of a written number, or nothing. -/
inductive Exponent : List Char → Prop
  | none : Exponent []
  | marked {sign : Char} {ds : List Char} (signed : sign = '-' ∨ sign = '+')
      (digits : IsDigits ds) : Exponent ('e' :: sign :: ds)

/-- The fraction of a written number, or nothing. -/
inductive Fraction : List Char → Prop
  | none : Fraction []
  | pointed {ds : List Char} (digits : IsDigits ds) : Fraction ('.' :: ds)

/-- A number as it is written behind its sign. -/
inductive Numeral : List Char → Prop
  | parts {c : Char} {whole fraction exponent : List Char} (digit : c.isDigit) (digits : IsDigits whole)
      (hfraction : Fraction fraction) (hexponent : Exponent exponent) :
      Numeral (c :: whole ++ fraction ++ exponent)

theorem Exponent.startsWithDigit {s : List Char} (h : Exponent s) : startsWithDigit s = false := by
  cases h <;> rfl

theorem dropDigits_of_isDigits {ds : List Char} (hds : IsDigits ds)
    (hs : startsWithDigit s = false) : (ds ++ s).dropWhile Char.isDigit = s := by
  rw [List.dropWhile_append_of_pos hds]
  cases s with
  | nil => rfl
  | cons c s => rw [List.dropWhile_cons_of_neg (by simpa [Number.startsWithDigit] using hs)]

theorem dropDigits_absorb (sig count : Nat) (s : List Char) :
    (absorb sig count s).2.2.dropWhile Char.isDigit = s.dropWhile Char.isDigit := by
  induction s generalizing sig count with
  | nil => rfl
  | cons c s ih =>
    rw [absorb]
    split_ifs with hc
    · rw [ih, List.dropWhile_cons_of_pos (by simp_all)]
    · rfl

theorem absorbExponent_rest {m k : Nat} (h : absorbExponent m s = some (k, rest)) :
    rest = s.dropWhile Char.isDigit := by
  induction s generalizing m with
  | nil =>
    cases h
    rfl
  | cons c s ih =>
    simp only [absorbExponent] at h
    split_ifs at h with hdigit hbound
    · rw [ih h, List.dropWhile_cons_of_pos hdigit]
    · cases h
      rw [List.dropWhile_cons_of_neg hdigit]

theorem readPower_rest {down : Bool} (hs : IsDigits s)
    (h : readPower negative sig power down s = some (n, rest)) : rest = [] := by
  have hdrop : s.dropWhile Char.isDigit = [] := by
    simpa using dropDigits_of_isDigits hs (s := []) rfl
  unfold readPower at h
  split at h
  · cases h
  · split at h
    · rename_i habsorb
      obtain ⟨m, -, hm⟩ := Option.map_eq_some_iff.mp h
      cases hm
      rw [absorbExponent_rest habsorb, hdrop]
    · split at h
      · cases h
      · cases h
        exact hdrop

theorem readTail_rest (hs : Exponent s) (h : readTail negative sig power s = some (n, rest)) :
    rest = [] := by
  cases hs with
  | none =>
    obtain ⟨m, -, hm⟩ := Option.map_eq_some_iff.mp h
    cases hm
    rfl
  | marked hsign hds =>
    simp only [readTail, beq_self_eq_true, Bool.true_or, ↓reduceIte] at h
    rcases hsign with rfl | rfl
    · rw [readExponent_minus] at h
      exact readPower_rest hds h
    · rw [readExponent_plus] at h
      exact readPower_rest hds h

theorem dropDigits_of_not_digit (h : ¬ startsWithDigit s) : s.dropWhile Char.isDigit = s := by
  have hnone : IsDigits [] := nofun
  simpa using dropDigits_of_isDigits hnone (s := s) (by simpa using h)

theorem readFraction_rest {ds : List Char} (hds : IsDigits ds) (hs : Exponent s)
    (h : readFraction negative sig power (ds ++ s) = some (n, rest)) : rest = [] := by
  have hdrop := dropDigits_absorb sig 0 (ds ++ s)
  rw [dropDigits_of_isDigits hds hs.startsWithDigit] at hdrop
  unfold readFraction at h
  simp only at h
  split at h
  · rw [hdrop] at h
    exact readTail_rest hs h
  · rename_i hdigit
    rw [dropDigits_of_not_digit hdigit] at hdrop
    split at h
    · cases h
    · rw [hdrop] at h
      exact readTail_rest hs h

theorem readRest_rest {fraction : List Char} (hfraction : Fraction fraction) (hs : Exponent s)
    (h : readRest negative sig extra (fraction ++ s) = some (n, rest)) : rest = [] := by
  cases hfraction with
  | pointed hds => exact readFraction_rest hds hs h
  | none =>
    rw [List.nil_append] at h
    have hpoint : s.head? ≠ some '.' := by
      cases hs <;> simp
    rw [readRest_whole hpoint] at h
    split at h
    · exact readTail_rest hs h
    · rename_i hplain
      cases h
      cases hs with
      | none => rfl
      | marked => simp at hplain

/-- What is written of a number is read to its end. -/
theorem read_rest (hs : Numeral s) (h : read negative s = some (n, rest)) : rest = [] := by
  cases hs with
  | parts hdigit hwhole hfraction hexponent =>
    rename_i c whole fraction exponent
    have hstart : startsWithDigit (fraction ++ exponent) = false := by
      cases hfraction with
      | none => exact hexponent.startsWithDigit
      | pointed => rfl
    rw [List.append_assoc, List.cons_append] at h
    by_cases hzero : c = '0'
    · subst hzero
      simp only [read] at h
      split at h
      · cases h
      · rename_i hnot
        have hdrop := dropDigits_of_isDigits hwhole hstart
        rw [dropDigits_of_not_digit hnot] at hdrop
        rw [hdrop] at h
        exact readRest_rest hfraction hexponent h
    · rw [read_digit hzero hdigit, dropDigits_absorb, List.dropWhile_cons_of_pos hdigit,
        dropDigits_of_isDigits hwhole hstart] at h
      exact readRest_rest hfraction hexponent h

/-! What is written is a number. -/

theorem isDigits_numeral (n : Nat) : IsDigits (Text.numeral n) :=
  fun _ hc => Nat.isDigit_of_mem_toDigits (by decide) (by decide) hc

theorem isDigits_zeros (n : Nat) : IsDigits (zeros n) := by
  intro c hc
  rw [List.eq_of_mem_replicate hc]
  rfl

theorem IsDigits.append {s s' : List Char} (h : IsDigits s) (h' : IsDigits s') :
    IsDigits (s ++ s') :=
  List.forall_mem_append.mpr ⟨h, h'⟩

theorem IsDigits.of_subset {s s' : List Char} (h : IsDigits s) (hsub : s' ⊆ s) : IsDigits s' :=
  fun c hc => h c (hsub hc)

theorem Numeral.of_parts {whole fraction exponent : List Char} (hne : whole ≠ [])
    (hwhole : IsDigits whole) (hfraction : Fraction fraction) (hexponent : Exponent exponent) :
    Numeral (whole ++ fraction ++ exponent) := by
  cases whole with
  | nil => exact absurd rfl hne
  | cons c whole =>
    obtain ⟨hc, hwhole⟩ := List.forall_mem_cons.mp hwhole
    exact .parts hc hwhole hfraction hexponent

theorem numeral_ne_nil (n : Nat) : Text.numeral n ≠ [] :=
  Nat.toDigits_ne_nil

theorem numeral_whole (n : Nat) : Numeral (Text.numeral n) := by
  simpa using Numeral.of_parts (numeral_ne_nil n) (isDigits_numeral n) .none .none

theorem exponent_marked (power : Int) : Exponent ('e' :: exponentText floatForm power) := by
  unfold exponentText
  split_ifs
  · exact .marked (.inl rfl) (isDigits_numeral _)
  · exact .marked (.inr rfl) (isDigits_numeral _)

theorem isDigits_zero : IsDigits ['0'] := by
  simp [IsDigits]

theorem fraction_plain : Fraction floatForm.fraction :=
  .pointed isDigits_zero

theorem numeral_decimalText (d : Binary64.Decimal) : Numeral (decimalText floatForm d) := by
  have hds := isDigits_numeral d.digits
  have hne := numeral_ne_nil d.digits
  have hfirst : (Text.numeral d.digits).take 1 ≠ [] := by
    simp [List.take_eq_nil_iff, hne]
  unfold decimalText
  simp only
  split_ifs with hplain hwhole hlead hrest
  · have hzeros := hds.append (isDigits_zeros d.power.toNat)
    simpa using Numeral.of_parts (List.append_ne_nil_of_left_ne_nil hne _) hzeros fraction_plain .none
  · have htake : (Text.numeral d.digits).take
        ((d.power + (Text.numeral d.digits).length - 1).toNat + 1) ≠ [] := by
      simp [List.take_eq_nil_iff, hne]
    simpa using Numeral.of_parts htake (hds.of_subset (List.take_subset _ _))
      (.pointed (hds.of_subset (List.drop_subset _ _))) .none
  · have hzeros := (isDigits_zeros (-(d.power + (Text.numeral d.digits).length - 1) - 1).toNat).append hds
    simpa using Numeral.of_parts (by simp) isDigits_zero (.pointed hzeros) .none
  · simpa using Numeral.of_parts hfirst (hds.of_subset (List.take_subset _ _)) .none (exponent_marked _)
  · simpa using Numeral.of_parts hfirst (hds.of_subset (List.take_subset _ _))
      (.pointed (hds.of_subset fun _ => List.mem_of_mem_tail)) (exponent_marked _)

/-- A number is written as such, behind a minus sign if it is negative. -/
theorem text_cases (n : Number) : ∃ s, Numeral s ∧ (n.text = s ∨ n.text = '-' :: s) := by
  cases n with
  | int n =>
    refine ⟨Text.numeral n.natAbs, numeral_whole _, ?_⟩
    by_cases hn : n < 0 <;> simp [text, hn]
  | float x =>
    have hzero : Numeral ('0' :: floatForm.fraction) := by
      simpa using Numeral.of_parts (by simp) isDigits_zero fraction_plain .none
    by_cases hx : x.isZero
    · refine ⟨_, hzero, ?_⟩
      cases hneg : x.negative <;> simp [text, floatText, hx, hneg]
    · refine ⟨_, numeral_decimalText (stripZeros 20 x.shortest), ?_⟩
      cases hneg : x.negative <;> simp [text, floatText, hx, hneg]

/-- The characters that numbers and words are written with. -/
def isPlain (c : Char) : Bool :=
  c.isAlphanum || c == '.' || c == '-' || c == '+'

theorem isPlain_of_isDigit {c : Char} (h : c.isDigit) : isPlain c := by
  simp [isPlain, Char.isAlphanum, h]

theorem Numeral.plain (h : Numeral s) : ∀ c ∈ s, isPlain c := by
  have hdigits : ∀ {ds : List Char}, IsDigits ds → ∀ c ∈ ds, isPlain c :=
    fun hds c hc => isPlain_of_isDigit (hds c hc)
  cases h with
  | parts hdigit hwhole hfraction hexponent =>
    simp only [List.cons_append, List.append_assoc, List.forall_mem_cons, List.forall_mem_append]
    refine ⟨isPlain_of_isDigit hdigit, hdigits hwhole, ?_, ?_⟩
    · cases hfraction with
      | none => exact nofun
      | pointed hds => exact List.forall_mem_cons.mpr ⟨rfl, hdigits hds⟩
    · cases hexponent with
      | none => exact nofun
      | marked hsign hds =>
        refine List.forall_mem_cons.mpr ⟨rfl, List.forall_mem_cons.mpr ⟨?_, hdigits hds⟩⟩
        rcases hsign with rfl | rfl <;> rfl

theorem text_plain (n : Number) : ∀ c ∈ n.text, isPlain c := by
  obtain ⟨s, hs, htext | htext⟩ := text_cases n
  · exact htext ▸ hs.plain
  · exact htext ▸ List.forall_mem_cons.mpr ⟨rfl, hs.plain⟩

/-- The number that is read where a number is written, if it can be read. -/
def reread (n : Number) : Option Number :=
  match n.text with
  | '-' :: s => (read true s).map Prod.fst
  | s => (read false s).map Prod.fst

theorem Numeral.head (h : Numeral s) : ∃ c t, s = c :: t ∧ c.isDigit := by
  cases h with
  | parts hdigit => exact ⟨_, _, rfl, hdigit⟩

theorem reread_cases (n : Number) : ∃ s, Numeral s ∧
    (n.text = s ∧ n.reread = (read false s).map Prod.fst ∨
      n.text = '-' :: s ∧ n.reread = (read true s).map Prod.fst) := by
  obtain ⟨s, hs, htext | htext⟩ := n.text_cases
  · obtain ⟨c, t, rfl, hc⟩ := hs.head
    refine ⟨_, hs, .inl ⟨htext, ?_⟩⟩
    have hminus : c ≠ '-' := by
      rintro rfl
      cases hc
    rw [reread, htext]
    split
    · simp_all
    · rfl
  · exact ⟨_, hs, .inr ⟨htext, by simp only [reread, htext]⟩⟩

/-- What is written of a number is read, and nothing of what closes its place. -/
theorem read_numeral (hs : Numeral s) (h : Closes rest) :
    read negative (s ++ rest) = (read negative s).map fun p => (p.1, rest) := by
  have hread : read negative (s ++ rest) = extend rest (read negative s) := by
    cases hs with
    | parts hdigit =>
      simp only [List.cons_append]
      exact read_append h hdigit _
  rw [hread]
  cases hs' : read negative s with
  | none => rfl
  | some p => simp [extend, read_rest hs hs']

end Number

end Montage.Json
