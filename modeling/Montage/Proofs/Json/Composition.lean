import Mathlib
import Montage.Proofs.Json.Numerals
import Montage.Proofs.Json.Parts
import Montage.Proofs.Json.Quoting
import Montage.Text.Blank

/-!
How written values are composed: of numbers and words, quoted texts, separators and brackets. Main statements:
a property that is composed in this way is true of every written value; and a written value does not end in a
blank, nor is there any character in it that JSON has no use for and that is in no text of the value.
-/

namespace Montage.Json

/-- A property of written texts, at a depth of brackets, that goes from the parts of a value to the value, if
the texts in it are as they should be. -/
structure Composed (P : Nat → List Char → Prop) (T : String → Prop) : Prop where
  plain : ∀ {d s}, (∀ c ∈ s, Number.isPlain c) → P d s
  text : ∀ {d s}, T s → P d (quotedString s)
  append : ∀ {d s t}, P d s → P d t → P d (s ++ t)
  separator : ∀ {d c}, c = ',' ∨ c = ':' → P (d + 1) [c]
  array : ∀ {d s}, P (d + 1) s → P d ('[' :: (s ++ [']']))
  object : ∀ {d s}, P (d + 1) s → P d ('\x7b' :: (s ++ ['\x7d']))

/-- The texts in values, the names of fields among them. -/
def TextsAre (T : String → Prop) (atoms : List Atom) : Prop :=
  ∀ s, .text s ∈ atoms → T s

namespace TextsAre

variable {T : String → Prop} {as bs : List Atom}

theorem left (h : TextsAre T (as ++ bs)) : TextsAre T as :=
  fun s hs => h s (List.mem_append_left _ hs)

theorem right (h : TextsAre T (as ++ bs)) : TextsAre T bs :=
  fun s hs => h s (List.mem_append_right _ hs)

end TextsAre

namespace Composed

open Value

variable {P : Nat → List Char → Prop} {T : String → Prop} (h : Composed P T)
include h

theorem cons {d : Nat} {c : Char} {s : List Char} (hc : c = ',' ∨ c = ':') (hs : P (d + 1) s) :
    P (d + 1) (c :: s) :=
  h.append (h.separator hc) hs

mutual

theorem compactChars (d : Nat) (v : Value) (ht : TextsAre T v.atoms) : P d v.compactChars := by
  match v with
  | .null => exact h.plain (List.all_eq_true.mp rfl)
  | .bool true => exact h.plain (List.all_eq_true.mp rfl)
  | .bool false => exact h.plain (List.all_eq_true.mp rfl)
  | .num n => exact h.plain n.text_plain
  | .str s => exact h.text (ht s List.mem_cons_self)
  | .arr items => exact h.array (compactItems d items ht)
  | .obj fields => exact h.object (compactFields d fields ht)

theorem compactItems (d : Nat) (items : List Value) (ht : TextsAre T (atomsOfItems items)) :
    P (d + 1) (compactItems items) := by
  match items with
  | [] => exact h.plain nofun
  | [v] =>
    have hv := compactChars (d + 1) v ht.left
    simpa only [Value.compactItems, compactMore, List.append_nil] using hv
  | v :: w :: items =>
    have hv := compactChars (d + 1) v ht.left
    have hitems := compactItems d (w :: items) ht.right
    exact h.append hv (h.cons (.inl rfl) hitems)

theorem compactFields (d : Nat) (fields : List (String × Value))
    (ht : TextsAre T (atomsOfFields fields)) : P (d + 1) (compactFields fields) := by
  match fields with
  | [] => exact h.plain nofun
  | [(k, v)] =>
    have hk := h.text (d := d + 1) (ht k List.mem_cons_self)
    have hv := compactChars (d + 1) v fun s hs => ht s (by simp [atomsOfFields, hs])
    simpa only [Value.compactFields, compactMoreFields, List.append_nil] using
      h.append hk (h.cons (.inr rfl) hv)
  | (k, v) :: f :: fields =>
    have hk := h.text (d := d + 1) (ht k List.mem_cons_self)
    have hv := compactChars (d + 1) v fun s hs => ht s (by simp [atomsOfFields, hs])
    have hfields := compactFields d (f :: fields) fun s hs => ht s (by
      rw [atomsOfFields]
      exact List.mem_cons_of_mem _ (List.mem_append_right _ hs))
    exact h.append hk (h.cons (.inr rfl) (h.append hv (h.cons (.inl rfl) hfields)))

end

end Composed

/-! Plain characters. -/

namespace Number

variable {c d : Char}

theorem isPlain_ascii (h : isPlain c) : 43 ≤ c.toNat ∧ c.toNat ≤ 122 := by
  simp only [isPlain, Bool.or_eq_true, beq_iff_eq] at h
  rcases h with ((h | rfl) | rfl) | rfl
  · simp only [Char.isAlphanum, Char.isAlpha, Char.isUpper, Char.isLower, Char.isDigit,
      Bool.or_eq_true, Bool.and_eq_true, decide_eq_true_eq, UInt32.le_iff_toNat_le, ge_iff_le] at h
    have hc : c.val.toNat = c.toNat := rfl
    have hz : 'z'.val.toNat = 122 := rfl
    have hZ : 'Z'.val.toNat = 90 := rfl
    have ha : 'a'.val.toNat = 97 := rfl
    have hA : 'A'.val.toNat = 65 := rfl
    have hzero : '0'.val.toNat = 48 := rfl
    have hnine : '9'.val.toNat = 57 := rfl
    omega
  all_goals decide

theorem ne_of_isPlain (hc : isPlain c) (hd : isPlain d = false) : c ≠ d := by
  rintro rfl
  rw [hc] at hd
  cases hd

theorem isBlank_of_isPlain (h : isPlain c) : Text.isBlank c = false := by
  have hascii := isPlain_ascii h
  simp only [Text.isBlank, Bool.or_eq_false_iff, Bool.and_eq_false_iff, decide_eq_false_iff_not,
    beq_eq_false_iff_ne]
  omega

end Number

/-! What written values end with, and what is not in them. -/

theorem isBlank_getLast {o q : Char} (hq : Text.isBlank q = false) (s : List Char) :
    ∀ c ∈ (o :: (s ++ [q])).getLast?, Text.isBlank c = false := by
  rw [← List.cons_append, List.getLast?_concat]
  simpa using hq

theorem composed_last :
    Composed (fun _ s => ∀ c ∈ s.getLast?, Text.isBlank c = false) fun _ => True where
  plain h c hc := Number.isBlank_of_isPlain (h c (List.mem_of_getLast? hc))
  text _ := isBlank_getLast rfl _
  append {_ s t} hs ht := by
    cases t with
    | nil => simpa using hs
    | cons c t => simpa [List.getLast?_append] using ht
  separator hc := by rcases hc with rfl | rfl <;> simp [Text.isBlank]
  array _ := isBlank_getLast rfl _
  object _ := isBlank_getLast rfl _

/-- A written value does not end in a blank. -/
theorem isBlank_last (v : Value) : ∀ c ∈ v.compactChars.getLast?, Text.isBlank c = false :=
  composed_last.compactChars 0 v fun _ _ => trivial

theorem not_mem_quoted {c : Char} {s : List Char} (hc : c ∉ s) (hplain : Number.isPlain c = false)
    (hslash : c ≠ '\\') : c ∉ s.flatMap escapeChar := by
  intro hmem
  obtain ⟨d, hd, hmem⟩ := List.mem_flatMap.mp hmem
  rcases mem_escapeChar hmem with rfl | h | h
  · exact hc hd
  · exact hslash h
  · exact Number.ne_of_isPlain (by simp [Number.isPlain, h]) hplain rfl

/-- A character that is not used in writing comes from the texts. -/
theorem composed_without {c : Char} (hplain : Number.isPlain c = false)
    (hc : c ∉ ['"', '\\', ',', ':', '[', ']', '\x7b', '\x7d']) :
    Composed (fun _ s => c ∉ s) fun s => c ∉ s.toList := by
  simp only [List.mem_cons, List.not_mem_nil, or_false, not_or] at hc
  obtain ⟨hquote, hslash, hcomma, hcolon, hopen, hclose, hleft, hright⟩ := hc
  constructor
  · exact fun h hmem => Number.ne_of_isPlain (h c hmem) hplain rfl
  · intro d s hs
    simpa [quotedString, quoted, hquote] using not_mem_quoted hs hplain hslash
  · exact fun hs ht => by simpa using ⟨hs, ht⟩
  · rintro d e (rfl | rfl)
    · simpa using hcomma
    · simpa using hcolon
  · exact fun h => by simp [h, hopen, hclose]
  · exact fun h => by simp [h, hleft, hright]

end Montage.Json
