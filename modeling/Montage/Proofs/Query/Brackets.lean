import Montage.Proofs.Config.Shorthands

/-!
Brackets that close what they open, and quotes that end. Main statement: of the texts in which they do not, just those
are read as object literals whose trouble lies within the name or the value of one of their entries.
-/

namespace Montage

open Json (Value)

namespace Scan

/-- Where a reader stands: the brackets that wait for their ends, the innermost first, and the quote it is in, with or
without a backslash just before. -/
structure Nesting where
  opened : List Char := []
  quote : Option Char := none
  escaped : Bool := false
deriving DecidableEq

/-- The end of what a bracket opens. -/
def ending (o : Char) : Char :=
  if o = '[' then ']' else if o = '\x7b' then '\x7d' else ')'

namespace Nesting

variable {escapes : Char → Bool} {n n' m : Nesting} {c : Char} {s t : List Char} {below : List Char}

/-- Where the reader stands after one more character, unless it ends what was not opened. In the quotes in which
backslashes escape, the character behind a backslash ends nothing. -/
def next (escapes : Char → Bool) (n : Nesting) (c : Char) : Option Nesting :=
  match n.quote with
  | some q =>
    if n.escaped then some { n with escaped := false }
    else if c = '\\' ∧ escapes q then some { n with escaped := true }
    else if c = q then some { n with quote := none }
    else some n
  | none =>
    if isQuote c then some { n with quote := some c }
    else if isOpening c then some { n with opened := c :: n.opened }
    else if isClosing c then
      match n.opened with
      | [] => none
      | o :: r => if ending o = c then some { n with opened := r } else none
    else some n

def after (escapes : Char → Bool) (n : Nesting) (s : List Char) : Option Nesting :=
  s.foldlM (next escapes) n

@[simp] theorem after_nil (n : Nesting) : n.after escapes [] = some n := rfl

@[simp] theorem after_cons (n : Nesting) (c : Char) (s : List Char) :
    n.after escapes (c :: s) = (n.next escapes c).bind (·.after escapes s) := rfl

@[simp] theorem after_append (n : Nesting) (s t : List Char) :
    n.after escapes (s ++ t) = (n.after escapes s).bind (·.after escapes t) :=
  List.foldlM_append

/-- The same place within more brackets. -/
def inside (n : Nesting) (below : List Char) : Nesting :=
  { n with opened := n.opened ++ below }

theorem next_inside (h : n.next escapes c = some n') : (n.inside below).next escapes c = some (n'.inside below) := by
  obtain ⟨opened, quote, escaped⟩ := n
  change next escapes ⟨opened ++ below, quote, escaped⟩ c = _
  cases quote with
  | some q =>
    simp only [next] at h ⊢
    split_ifs at h ⊢ <;> cases h <;> rfl
  | none =>
    simp only [next] at h ⊢
    split_ifs at h ⊢
    · cases h
      rfl
    · cases h
      rfl
    · cases opened with
      | nil => cases h
      | cons o r =>
        simp only [List.cons_append] at h ⊢
        split_ifs at h ⊢
        cases h
        rfl
    · cases h
      rfl

/-- What is read without an end of something open is read alike within more brackets. -/
theorem after_inside (h : n.after escapes s = some n') :
    (n.inside below).after escapes s = some (n'.inside below) := by
  induction s generalizing n with
  | nil =>
    cases h
    rfl
  | cons c s ih =>
    rw [after_cons] at h ⊢
    obtain ⟨m, hm, hs⟩ := Option.bind_eq_some_iff.mp h
    rw [next_inside hm]
    exact ih hs

end Nesting

/-- All brackets are closed by ends of their kind, and all quotes end. -/
def Balanced (escapes : Char → Bool) (s : List Char) : Prop :=
  Nesting.after escapes {} s = some {}

instance (escapes : Char → Bool) : DecidablePred (Balanced escapes) :=
  fun _ => inferInstanceAs (Decidable (_ = _))

namespace Balanced

variable {escapes : Char → Bool} {c o : Char} {s t : List Char} {ps : List (List Char)}

theorem nil : Balanced escapes [] := rfl

theorem append (h : Balanced escapes s) (h' : Balanced escapes t) : Balanced escapes (s ++ t) := by
  unfold Balanced at h h' ⊢
  rw [Nesting.after_append, h]
  exact h'

theorem single (h : IsPassed c) : Balanced escapes [c] := by
  simp [Balanced, Nesting.next, h.quote, h.opening, h.closing]

theorem of_forall (h : ∀ c ∈ s, Balanced escapes [c]) : Balanced escapes s := by
  induction s with
  | nil => exact nil
  | cons c s ih =>
    obtain ⟨hc, hs⟩ := List.forall_mem_cons.mp h
    exact hc.append (ih hs)

theorem bracketed (hquote : isQuote o = false) (hopening : isOpening o) (h : Balanced escapes s)
    (hquote' : isQuote (ending o) = false) (hopening' : isOpening (ending o) = false)
    (hclosing : isClosing (ending o)) : Balanced escapes (o :: (s ++ [ending o])) := by
  have hopen : Nesting.next escapes {} o = some (Nesting.inside {} [o]) := by
    simp [Nesting.next, Nesting.inside, hquote, hopening]
  have hclose : Nesting.next escapes (Nesting.inside {} [o]) (ending o) = some {} := by
    simp [Nesting.next, Nesting.inside, hquote', hopening', hclosing]
  unfold Balanced at h ⊢
  rw [Nesting.after_cons, hopen, Option.bind_some, Nesting.after_append, Nesting.after_inside h, Option.bind_some,
    Nesting.after_cons, hclose, Option.bind_some, Nesting.after_nil]

theorem intercalate (h : ∀ p ∈ ps, Balanced escapes p) : Balanced escapes (List.intercalate [','] ps) := by
  induction ps with
  | nil => exact nil
  | cons p ps ih =>
    obtain ⟨hp, hps⟩ := List.forall_mem_cons.mp h
    cases ps with
    | nil => simpa using hp
    | cons q ps =>
      have hcomma : Balanced escapes [','] := single ⟨rfl, rfl, rfl⟩
      rw [List.intercalate_cons_cons]
      exact (hp.append hcomma).append (ih hps)

end Balanced

end Scan

namespace Expression

open Scan Shorthand

variable {escapes : Char → Bool} {s piece : List Char} {pieces : List (List Char)} {g : Option LiteralField}
  {gives : List (Option LiteralField)}

theorem balanced_of_blank (h : ∀ c ∈ s, Text.isBlank c) : Balanced escapes s :=
  .of_forall fun c hc => .single (isPassed_of_class (h c hc) rfl)

theorem balanced_of_trim (h : Balanced escapes (Text.trim s)) : Balanced escapes s := by
  obtain ⟨a, b, hs, ha, hb⟩ := Text.exists_trim s
  rw [hs]
  exact (balanced_of_blank ha).append (h.append (balanced_of_blank hb))

/-- An entry with a name or a value that is not balanced. -/
def IsFaulty (escapes : Char → Bool) (piece : List Char) : Prop :=
  ∃ name value, cut ':' (Text.trim piece) = some (name, value) ∧
    ¬ (Balanced escapes name ∧ Balanced escapes value)

theorem balanced_of_gives (h : Gives piece g) (hfaulty : ¬ IsFaulty escapes piece) : Balanced escapes piece := by
  refine balanced_of_trim ?_
  cases h with
  | blank htext =>
    rw [htext]
    exact .nil
  | alone hname => exact .of_forall fun c hc => .single (isPassed_of_mem_identifier hname hc)
  | @pair name value key htext hhidden htop =>
    have hcut : cut ':' (Text.trim piece) = some (name, value) := cutFrom_eq_some.mpr ⟨htext, hhidden, htop⟩
    obtain ⟨hname, hvalue⟩ := not_not.mp fun h => hfaulty ⟨name, value, hcut, h⟩
    have hcolon : Balanced escapes [':'] := .single ⟨rfl, rfl, rfl⟩
    rw [htext]
    exact hname.append (hcolon.append hvalue)

/-- A list of entries without faults is balanced. -/
theorem Lists.balanced (h : Lists s pieces gives) (hfaulty : ∀ piece ∈ pieces, ¬ IsFaulty escapes piece) :
    Balanced escapes s := by
  have hpieces : ∀ piece ∈ pieces, Balanced escapes piece := by
    intro piece hpiece
    obtain ⟨i, hi, rfl⟩ := List.getElem_of_mem hpiece
    exact balanced_of_gives (h.gives.get hi (h.gives.length_eq ▸ hi)) (hfaulty _ hpiece)
  refine balanced_of_trim ?_
  rw [h.text]
  exact .bracketed rfl rfl (.intercalate hpieces) rfl rfl rfl

/-- A text with brackets or quotes that are not balanced, whichever the quotes in which backslashes escape, is refused
as an object literal just if it is not a list of entries with a fault within one of them; and then a shorthand of
a name and the text is a failure that gives the whole back. -/
theorem parseLiteral_unbalanced_iff {F : Type} (h : ¬ Balanced escapes s) :
    ((∃ e, parseLiteral s = .error e) ↔
      ¬ ∃ pieces gives, Lists s pieces gives ∧ ∃ piece ∈ pieces, IsFaulty escapes piece) ∧
      ∀ e, parseLiteral s = .error e → ∀ name rest, Heads name → s = '\x7b' :: rest → rest ≠ [] →
        (RawConfig.text (String.ofList (name ++ s)) : RawConfig F).normalize engine =
          [Config.ofFailure (.config ("bad config literal: " ++ e.message)) (.str (String.ofList (name ++ s)))] := by
  refine ⟨⟨?_, ?_⟩, ?_⟩
  · rintro ⟨e, he⟩ ⟨pieces, gives, hlists, -⟩
    rw [parseLiteral_iff.mpr ⟨pieces, gives, hlists, rfl⟩] at he
    cases he
  · intro hsound
    cases hparse : parseLiteral s with
    | error e => exact ⟨e, rfl⟩
    | ok fields =>
      obtain ⟨pieces, gives, hlists, -⟩ := parseLiteral_iff.mp hparse
      refine absurd (hlists.balanced fun piece hpiece hfaulty => ?_) h
      exact hsound ⟨pieces, gives, hlists, piece, hpiece, hfaulty⟩
  · rintro e he name rest hname rfl hrest
    rw [RawConfig.normalize, hname.read_malformed hrest ((engine_parseLiteral _).trans he)]

/-- A list that a parenthesis ends is taken over within its entry. -/
theorem parseLiteral_of_crossed :
    let s := ['\x7b', 'a', ':', ' ', '[', '1', ')', '\x7d']
    ¬ Balanced (fun _ => false) s ∧ ¬ (∃ e, parseLiteral s = .error e) ∧
      ∃ pieces gives, Lists s pieces gives ∧ ∃ piece ∈ pieces, IsFaulty (fun _ => false) piece := by
  intro s
  have hcrossed : ¬ Balanced (fun _ => false) s := by decide
  have hparse : parseLiteral s = .ok [⟨"a", "[1)", none⟩] := rfl
  have hkept : ¬ ∃ e, parseLiteral s = .error e := by
    rintro ⟨e, he⟩
    cases hparse.symm.trans he
  exact ⟨hcrossed, hkept, not_not.mp (mt (parseLiteral_unbalanced_iff (F := Empty) hcrossed).1.mpr hkept)⟩

end Expression

end Montage
