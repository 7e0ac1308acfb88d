import Mathlib.Data.List.Basic
import Montage.Query.Scan

/-!
Where a scan finds separators. A separator is exposed in a text if the scan meets it at the top level. Main
statements: a text is cut at its first exposed separator, and not at all if there is none.
-/

namespace Montage.Scan

variable {p : Place} {sep c : Char} {s t a b : List Char}

/-- Where a scan stands after a text. -/
def Place.after (p : Place) (s : List Char) : Place :=
  s.foldl Place.next p

@[simp] theorem Place.after_nil (p : Place) : p.after [] = p := rfl

@[simp] theorem Place.after_cons (p : Place) (c : Char) (s : List Char) :
    p.after (c :: s) = (p.next c).after s := rfl

@[simp] theorem Place.after_append (p : Place) (s t : List Char) :
    p.after (s ++ t) = (p.after s).after t :=
  List.foldl_append

theorem Place.isTop_iff : p.isTop ↔ p = start := by
  cases p
  simp [Place.isTop, start]

/-- The scan meets the separator at the top level. -/
def Exposed (sep : Char) (p : Place) (s : List Char) : Prop :=
  ∃ a b, s = a ++ sep :: b ∧ p.after a = start

theorem not_exposed_nil : ¬ Exposed sep p [] := by
  rintro ⟨a, b, h, -⟩
  simp at h

theorem exposed_cons : Exposed sep p (c :: s) ↔ p = start ∧ c = sep ∨ Exposed sep (p.next c) s := by
  constructor
  · rintro ⟨a, b, hs, ha⟩
    cases a with
    | nil =>
      obtain ⟨rfl, -⟩ := List.cons_eq_cons.mp hs
      exact .inl ⟨ha, rfl⟩
    | cons d a =>
      obtain ⟨rfl, rfl⟩ := List.cons_eq_cons.mp hs
      exact .inr ⟨a, b, rfl, ha⟩
  · rintro (⟨hp, rfl⟩ | ⟨a, b, rfl, ha⟩)
    · exact ⟨[], s, rfl, hp⟩
    · exact ⟨c :: a, b, rfl, ha⟩

theorem exposed_append : Exposed sep p (s ++ t) ↔ Exposed sep p s ∨ Exposed sep (p.after s) t := by
  induction s generalizing p with
  | nil => simp [not_exposed_nil]
  | cons c s ih => rw [List.cons_append, exposed_cons, exposed_cons, ih, or_assoc, Place.after_cons]

theorem Exposed.mem (h : Exposed sep p s) : sep ∈ s := by
  obtain ⟨a, b, rfl, -⟩ := h
  simp

/-! Cutting. -/

theorem cutFrom_separator (sep : Char) (s : List Char) :
    cutFrom sep start (sep :: s) = some ([], s) := by
  simp [cutFrom, start, Place.isTop]

theorem not_separator (h : ¬ (p = start ∧ c = sep)) : (p.isTop && c == sep) = false := by
  simpa [← Bool.not_eq_true, Place.isTop_iff] using h

theorem cutFrom_cons (h : ¬ (p = start ∧ c = sep)) (s : List Char) :
    cutFrom sep p (c :: s) = (cutFrom sep (p.next c) s).map fun q => (c :: q.1, q.2) := by
  simp [cutFrom, not_separator h]

theorem cutFrom_eq_none : cutFrom sep p s = none ↔ ¬ Exposed sep p s := by
  induction s generalizing p with
  | nil => simp [cutFrom, not_exposed_nil]
  | cons c s ih =>
    rw [exposed_cons]
    by_cases h : p = start ∧ c = sep
    · obtain ⟨rfl, rfl⟩ := h
      simp [cutFrom_separator]
    · simp [cutFrom_cons h, h, ih]

/-- A text is cut at its first exposed separator. -/
theorem cutFrom_eq_some : cutFrom sep p s = some (a, b) ↔
    s = a ++ sep :: b ∧ ¬ Exposed sep p a ∧ p.after a = start := by
  induction s generalizing p a with
  | nil => simp [cutFrom]
  | cons c s ih =>
    by_cases h : p = start ∧ c = sep
    · obtain ⟨rfl, rfl⟩ := h
      rw [cutFrom_separator, Option.some.injEq, Prod.mk.injEq]
      constructor
      · rintro ⟨rfl, rfl⟩
        exact ⟨rfl, not_exposed_nil, rfl⟩
      · rintro ⟨hs, hhidden, -⟩
        cases a with
        | nil => exact ⟨rfl, (List.cons_eq_cons.mp hs).2⟩
        | cons d a =>
          obtain ⟨rfl, -⟩ := List.cons_eq_cons.mp hs
          exact absurd (exposed_cons.mpr (.inl ⟨rfl, rfl⟩)) hhidden
    · rw [cutFrom_cons h, Option.map_eq_some_iff]
      constructor
      · rintro ⟨⟨a', b'⟩, hcut, hq⟩
        obtain ⟨rfl, rfl⟩ := (Prod.mk.injEq ..).mp hq
        obtain ⟨rfl, hhidden, htop⟩ := ih.mp hcut
        exact ⟨rfl, fun hexposed => (exposed_cons.mp hexposed).elim h hhidden, htop⟩
      · rintro ⟨hs, hhidden, htop⟩
        cases a with
        | nil =>
          obtain ⟨rfl, -⟩ := List.cons_eq_cons.mp hs
          exact absurd ⟨htop, rfl⟩ h
        | cons d a =>
          obtain ⟨rfl, rfl⟩ := List.cons_eq_cons.mp hs
          exact ⟨(a, b), ih.mpr ⟨rfl, fun hexposed => hhidden (exposed_cons.mpr (.inr hexposed)), htop⟩, rfl⟩

/-- A text is split by cutting it again and again. -/
theorem splitFrom_eq (sep : Char) (p : Place) (s : List Char) : splitFrom sep p s =
    match cutFrom sep p s with
    | none => [s]
    | some (a, b) => a :: split sep b := by
  induction s generalizing p with
  | nil => rfl
  | cons c s ih =>
    by_cases h : p = start ∧ c = sep
    · obtain ⟨rfl, rfl⟩ := h
      rw [cutFrom_separator]
      simp [splitFrom, start, Place.isTop, split]
    · rw [cutFrom_cons h, splitFrom, not_separator h, if_neg Bool.false_ne_true, ih]
      cases cutFrom sep (p.next c) s <;> rfl

theorem split_of_not_exposed (h : ¬ Exposed sep start s) : split sep s = [s] := by
  rw [split, splitFrom_eq, cutFrom_eq_none.mpr h]

theorem split_append (h : ¬ Exposed sep start a) (htop : start.after a = start) (b : List Char) :
    split sep (a ++ sep :: b) = a :: split sep b := by
  rw [split, splitFrom_eq, cutFrom_eq_some.mpr ⟨rfl, h, htop⟩]

/-! The equality sign. -/

theorem equalityFrom_cons {seen : List Char} (h : ¬ (p = start ∧ c = '=') ∨ seen = []) (s : List Char) :
    equalityFrom p seen (c :: s) = equalityFrom (p.next c) (c :: seen) s := by
  have hother : (p.isTop && c == '=' && !seen.isEmpty) = false := by
    rcases h with h | rfl
    · rw [not_separator h, Bool.false_and]
    · rw [List.isEmpty_nil, Bool.not_true, Bool.and_false]
  rw [equalityFrom.eq_def]
  simp only [hother, Bool.false_eq_true, ↓reduceIte]

theorem equalityFrom_sign {seen : List Char} (hseen : seen ≠ []) (s : List Char) :
    equalityFrom start seen ('=' :: s) ≠ none := by
  have hsign : (start.isTop && '=' == '=' && !seen.isEmpty) = true := by
    simp [start, Place.isTop, hseen]
  rw [equalityFrom.eq_def]
  simp only [hsign, ↓reduceIte]
  split <;> exact Option.some_ne_none _

theorem equalityFrom_eq_none {seen : List Char} (hseen : seen ≠ []) :
    equalityFrom p seen s = none ↔ ¬ Exposed '=' p s := by
  induction s generalizing p seen with
  | nil => simp [equalityFrom, not_exposed_nil]
  | cons c s ih =>
    rw [exposed_cons]
    by_cases h : p = start ∧ c = '='
    · obtain ⟨rfl, rfl⟩ := h
      simp [equalityFrom_sign hseen]
    · rw [equalityFrom_cons (.inl h), ih (by simp)]
      simp [h]

/-- A text that does not begin with an equality sign is an equality just if such a sign is exposed. -/
theorem equality?_eq_none (hc : c ≠ '=') :
    equality? (c :: s) = none ↔ ¬ Exposed '=' start (c :: s) := by
  rw [equality?, equalityFrom_cons (.inr rfl), equalityFrom_eq_none (by simp), exposed_cons]
  simp [hc]

/-! Characters that a scan passes over. -/

/-- The quotes and the brackets. -/
def marks : List Char :=
  ['"', '\'', '[', '\x7b', '(', ']', '\x7d', ')']

/-- A character that is neither a quote nor a bracket. -/
structure IsPassed (c : Char) : Prop where
  quote : isQuote c = false
  opening : isOpening c = false
  closing : isClosing c = false

theorem IsPassed.next (h : IsPassed c) (d : Int) : Place.next ⟨d, none⟩ c = ⟨d, none⟩ := by
  simp [Place.next, h.quote, h.opening, h.closing]

/-- A character of a class without marks is passed over. -/
theorem isPassed_of_class {P : Char → Bool} (hc : P c) (hmarks : marks.any P = false) : IsPassed c := by
  have hother : ∀ m ∈ marks, (c == m) = false := by
    intro m hm
    refine beq_false_of_ne ?_
    rintro rfl
    exact List.any_eq_false.mp hmarks c hm hc
  simp only [marks, List.forall_mem_cons] at hother
  constructor <;> simp [isQuote, isOpening, isClosing, hother]

/-! Texts in which nothing is exposed. -/

/-- The scan meets no separator at the top level in a text, and comes back to where it was. -/
structure Quiet (sep : Char) (p : Place) (s : List Char) : Prop where
  hidden : ¬ Exposed sep p s
  back : p.after s = p

namespace Quiet

variable {d : Int}

theorem append (h : Quiet sep p s) (h' : Quiet sep p t) : Quiet sep p (s ++ t) where
  hidden hexposed := by
    rcases exposed_append.mp hexposed with hs | ht
    · exact h.hidden hs
    · exact h'.hidden (h.back ▸ ht)
  back := by rw [Place.after_append, h.back, h'.back]

theorem closed (hquote : isQuote c = false) (hopening : isOpening c = false) (hclosing : isClosing c)
    (d : Int) : Place.next ⟨d + 1, none⟩ c = ⟨d, none⟩ := by
  simp [Place.next, hquote, hopening, hclosing]

/-- A single character that is passed over, away from the top level or different from the separator. -/
theorem single (hpassed : Place.next p c = p) (h : p ≠ start ∨ c ≠ sep) : Quiet sep p [c] where
  hidden hexposed := by
    rcases exposed_cons.mp hexposed with ⟨hp, hc⟩ | hnil
    · exact h.elim (· hp) (· hc)
    · exact not_exposed_nil hnil
  back := hpassed

theorem passed (h : IsPassed c) (hc : c ≠ sep) (d : Int) : Quiet sep ⟨d, none⟩ [c] :=
  single (h.next d) (.inr hc)

theorem nil : Quiet sep p [] :=
  ⟨not_exposed_nil, rfl⟩

theorem of_forall (h : ∀ c ∈ s, Quiet sep p [c]) : Quiet sep p s := by
  induction s with
  | nil => exact nil
  | cons c s ih =>
    obtain ⟨hc, hs⟩ := List.forall_mem_cons.mp h
    exact hc.append (ih hs)

theorem next_quoted {q : Char} (hc : c ≠ q) : Place.next ⟨d, some q⟩ c = ⟨d, some q⟩ := by
  simp [Place.next, hc]

/-- Inside a quote nothing is exposed up to its end. -/
theorem quoted {q : Char} (hq : isQuote q) (hs : q ∉ s) (hsep : sep ≠ q) :
    Quiet sep ⟨d, none⟩ (q :: (s ++ [q])) := by
  have hopen : Place.next ⟨d, none⟩ q = ⟨d, some q⟩ := by
    simp [Place.next, hq]
  have hclose : Place.next ⟨d, some q⟩ q = ⟨d, none⟩ := by
    simp [Place.next]
  have hinside : Quiet sep ⟨d, some q⟩ s := of_forall fun c hc =>
    single (next_quoted fun h => hs (h ▸ hc)) (.inl (by simp [start]))
  constructor
  · rw [exposed_cons, hopen, exposed_append, hinside.back, exposed_cons]
    simp [hsep.symm, hinside.hidden, not_exposed_nil]
  · rw [Place.after_cons, hopen, Place.after_append, hinside.back, Place.after_cons, hclose, Place.after_nil]

/-- Brackets hide what is quiet behind them. -/
theorem bracketed {o q : Char} (ho : Place.next ⟨d, none⟩ o = ⟨d + 1, none⟩)
    (hq : Place.next ⟨d + 1, none⟩ q = ⟨d, none⟩) (hd : 0 ≤ d) (hsep : sep ≠ o)
    (h : Quiet sep ⟨d + 1, none⟩ s) : Quiet sep ⟨d, none⟩ (o :: (s ++ [q])) := by
  have hdeep : (⟨d + 1, none⟩ : Place) ≠ start := by
    simp [start]
    omega
  constructor
  · rw [exposed_cons, ho, exposed_append, h.back, exposed_cons]
    simp [hsep.symm, h.hidden, hdeep, not_exposed_nil]
  · rw [Place.after_cons, ho, Place.after_append, h.back, Place.after_cons, hq, Place.after_nil]

end Quiet

end Montage.Scan
