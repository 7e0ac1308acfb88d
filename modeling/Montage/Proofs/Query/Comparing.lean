import Montage.Proofs.Query.Evaluation
import Montage.Proofs.Query.Scanning

/-!
Comparisons. Main statement: an expression with a comparison behind its first operand is cut there, whatever the
operands hold inside quotes and brackets and whatever stands on the right, and compares what the two sides give.
-/

namespace Montage

open Json (Value)

namespace Scan

variable {p : Place} {a : List Char}

/-- The scan goes over a text in which no equality sign is exposed. -/
theorem equalityFrom_append (h : ¬ Exposed '=' p a) (seen s : List Char) :
    equalityFrom p seen (a ++ s) = equalityFrom (p.after a) (a.reverse ++ seen) s := by
  induction a generalizing p seen with
  | nil => rfl
  | cons c a ih =>
    rw [exposed_cons, not_or] at h
    rw [List.cons_append, equalityFrom_cons (.inl h.1), ih h.2, Place.after_cons, List.reverse_cons,
      List.append_assoc]
    rfl

section Sides

variable (hhidden : ¬ Exposed '=' start a) (htop : start.after a = start)
include hhidden htop

/-- A text is an equality at its first exposed sign, if something other than a mark stands before it. -/
theorem equality?_append (hne : a ≠ []) (hmark : a.getLast? ≠ some '!') (s : List Char) :
    equality? (a ++ '=' :: s) = some ⟨a, false, afterSign s⟩ := by
  obtain ⟨b, c, rfl⟩ := List.eq_nil_or_concat a |>.resolve_left hne
  have hc : c ≠ '!' := by simpa using hmark
  rw [equality?, equalityFrom_append hhidden, htop, List.append_nil, List.concat_eq_append, List.reverse_append,
    equalityFrom.eq_def]
  simp [start, Place.isTop, hc]

/-- With a mark before the sign, the equality is denied. -/
theorem equality?_append_mark (s : List Char) :
    equality? (a ++ '!' :: '=' :: s) = some ⟨a, true, afterSign s⟩ := by
  have hmark : ¬ (start = start ∧ '!' = '=') := by decide
  rw [equality?, equalityFrom_append hhidden, htop, List.append_nil, equalityFrom_cons (.inl hmark)]
  simp [equalityFrom.eq_def, start, Place.isTop, Place.next, isQuote, isOpening, isClosing]

end Sides

end Scan

namespace Expression

open Scan

variable {l s : List Char} {data context : Value}

/-! The sides of a comparison. -/

/-- A text that can stand before an operator as it is: no blanks at its ends, no mark that would deny the whole, no
equality sign of its own outside quotes and brackets (so none at the beginning either), and all of its quotes and
brackets closed. -/
structure IsOperand (l : List Char) : Prop where
  trimmed : Text.trim l = l
  filled : l ≠ []
  unmarked : l.head? ≠ some '!'
  hidden : ¬ Exposed '=' start l
  closed : start.after l = start

namespace IsOperand

/-- A text in single quotes can stand before an operator. -/
theorem quoted {t : List Char} (ht : '\'' ∉ t) : IsOperand ('\'' :: (t ++ ['\''])) := by
  have hquiet : Quiet '=' start ('\'' :: (t ++ ['\''])) := .quoted rfl ht (by decide)
  have hlast : ('\'' :: (t ++ ['\''])).getLast? = some '\'' := by simp [List.getLast?_cons]
  refine ⟨Text.trim_of_ends ?_ ?_, List.cons_ne_nil _ _, by simp, hquiet.hidden, hquiet.back⟩
  · rintro c ⟨⟩
    rfl
  · rw [hlast]
    rintro c ⟨⟩
    rfl

theorem head?_append (h : IsOperand l) (s : List Char) : (l ++ s).head? = l.head? :=
  List.head?_append_of_ne_nil l h.filled

theorem head_ne (h : IsOperand l) : l.head? ≠ some '=' := by
  intro hhead
  obtain ⟨t, rfl⟩ := List.head?_eq_some_iff.mp hhead
  exact h.hidden (exposed_cons.mpr (.inl ⟨rfl, rfl⟩))

theorem trim_append (h : IsOperand l) (s : List Char) : Text.trim (l ++ s) = l ++ Text.trimEnd s :=
  Text.trim_append h.trimmed h.filled s

theorem plain (h : IsOperand l) (s : List Char) : negated? (Text.trim (l ++ s)) = none := by
  rw [h.trim_append]
  exact negated?_eq_none (h.head?_append _ ▸ h.unmarked)

/-- The scan finds nothing in the blank behind the operand. -/
theorem spaced (h : IsOperand l) : ¬ Exposed '=' start (l ++ [' ']) ∧ start.after (l ++ [' ']) = start := by
  have hblank : Quiet '=' start [' '] := .passed ⟨rfl, rfl, rfl⟩ (by decide) 0
  constructor
  · rw [exposed_append, h.closed]
    exact not_or.mpr ⟨h.hidden, hblank.hidden⟩
  · rw [Place.after_append, h.closed, hblank.back]

/-- Where the trimmed text is cut behind the operand and the blank, its sides are compared. -/
theorem evaluate_cut (h : IsOperand l) (mark : List Char) {s right : List Char} {negate : Bool}
    (hcut : equality? ((l ++ [' ']) ++ (mark ++ '=' :: Text.trimEnd s)) = some ⟨l ++ [' '], negate, right⟩)
    (data context : Value) : evaluate (l ++ ' ' :: (mark ++ '=' :: s)) data context =
      verdict negate (evaluate l data context) (evaluate right data context) := by
  have hsign : Text.trimEnd ('=' :: s) = '=' :: Text.trimEnd s := Text.trimEnd_cons rfl s
  have hend := Text.trimEnd_append_of_ne_nil (hsign ▸ List.cons_ne_nil _ _) (' ' :: mark)
  have htrim : Text.trim (l ++ ' ' :: (mark ++ '=' :: s)) = (l ++ [' ']) ++ (mark ++ '=' :: Text.trimEnd s) := by
    rw [h.trim_append, ← List.cons_append, hend, hsign, List.append_assoc]
    rfl
  have hleft : evaluate (l ++ [' ']) data context = evaluate l data context :=
    evaluate_congr (Text.trim_append_blank (by simp [Text.isBlank]) l) data context
  rw [evaluate_eq, h.plain, htrim, hcut, ← hleft]

/-- One equality sign, or a second one as part of `s`. -/
theorem evaluate_sign (h : IsOperand l) (s : List Char) (data context : Value) :
    evaluate (l ++ ' ' :: '=' :: s) data context =
      verdict false (evaluate l data context) (evaluate (afterSign (Text.trimEnd s)) data context) :=
  h.evaluate_cut [] (equality?_append h.spaced.1 h.spaced.2 (by simp) (by simp) _) data context

theorem evaluate_markedSign (h : IsOperand l) (s : List Char) (data context : Value) :
    evaluate (l ++ ' ' :: '!' :: '=' :: s) data context =
      verdict true (evaluate l data context) (evaluate (afterSign (Text.trimEnd s)) data context) :=
  h.evaluate_cut ['!'] (equality?_append_mark h.spaced.1 h.spaced.2 _) data context

end IsOperand

theorem afterSign_trimEnd (r : List Char) : afterSign (Text.trimEnd (' ' :: r)) = Text.trimEnd (' ' :: r) := by
  unfold afterSign
  split
  · rename_i t ht
    cases Text.head?_of_trimEnd (congrArg List.head? ht)
  · rfl

/-- The right side begins with the blank behind the operator. -/
theorem evaluate_right (r : List Char) (data context : Value) :
    evaluate (Text.trimEnd (' ' :: r)) data context = evaluate r data context :=
  evaluate_congr ((Text.trim_trimEnd _).trans (Text.trim_cons_blank rfl r)) data context

/-- A text that can stand before an operator, the operator between blanks, and any text. With one equality sign or
two, what comes out tells whether both sides give equal values, and with a mark before the sign or before the whole,
whether they do not. An error of a side, of the left one first, is the error of the whole. -/
theorem evaluate_comparison (h : IsOperand l) (r : List Char) (data context : Value) :
    let compared := fun negate => verdict negate (evaluate l data context) (evaluate r data context)
    evaluate (l ++ " = ".toList ++ r) data context = compared false ∧
      evaluate (l ++ " == ".toList ++ r) data context = compared false ∧
      evaluate (l ++ " != ".toList ++ r) data context = compared true ∧
      evaluate ('!' :: (l ++ " = ".toList ++ r)) data context = compared true := by
  intro compared
  have hone : evaluate (l ++ " = ".toList ++ r) data context = compared false := by
    have hsign := h.evaluate_sign (' ' :: r) data context
    rw [afterSign_trimEnd, evaluate_right] at hsign
    rwa [List.append_assoc]
  refine ⟨hone, ?_, ?_, ?_⟩
  · have hsign := h.evaluate_sign ('=' :: ' ' :: r) data context
    rw [Text.trimEnd_cons rfl, afterSign, evaluate_right] at hsign
    rwa [List.append_assoc]
  · have hsign := h.evaluate_markedSign (' ' :: r) data context
    rw [afterSign_trimEnd, evaluate_right] at hsign
    rwa [List.append_assoc]
  · have hhead : (l ++ (" = ".toList ++ r)).head? ≠ some '=' := h.head?_append _ ▸ h.head_ne
    rw [← List.append_assoc] at hhead
    rw [evaluate_mark hhead, hone, denied_verdict]
    rfl

/-- The sign in quotes is no operator, and the one on the right is an operator of the right side: a text differs from
a truth value. -/
theorem evaluate_comparison_of_quoted :
    IsOperand "'=é'".toList ∧
      evaluate ("'=é'".toList ++ " != ".toList ++ "'a' = 'b'".toList) .null .null = .ok (.bool true) := by
  have hleft : IsOperand "'=é'".toList := IsOperand.quoted (t := ['=', 'é']) (by decide)
  have hinner : IsOperand "'a'".toList := IsOperand.quoted (t := ['a']) (by decide)
  have hright : evaluate "'a' = 'b'".toList .null .null = .ok (.bool false) := by
    refine (evaluate_comparison hinner "'b'".toList .null .null).1.trans ?_
    rw [evaluate_eq "'a'".toList, evaluate_eq "'b'".toList]
    rfl
  refine ⟨hleft, (evaluate_comparison hleft _ .null .null).2.2.1.trans ?_⟩
  rw [hright, evaluate_eq "'=é'".toList]
  rfl

end Expression

end Montage
