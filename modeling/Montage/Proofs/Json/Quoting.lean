import Mathlib.Data.List.Basic
import Montage.Json.Printer
import Montage.Json.Reader

/-!
Reading strings that were written. Main statements: what is read of a string does not depend on what follows
it, and a string that is written is read to its closing quote.
-/

namespace Montage.Json

variable {s r : List Char} {offset : Nat}

/-! What follows has no part in what is read. -/

theorem readUnit_append {n m : Nat} (h : readUnit s offset = .ok ⟨n, r, m⟩) (rest : List Char) :
    readUnit (s ++ rest) offset = .ok ⟨n, r ++ rest, m⟩ := by
  unfold readUnit at h
  dsimp only at h
  split at h
  · split at h
    · rename_i hfour
      cases h
      simp only [readUnit, List.cons_append, hfour]
    · split at h <;> cases h
  · split at h <;> cases h

theorem readTrailing_append {lead m : Nat} {c : Char} (h : readTrailing lead s offset = .ok ⟨c, r, m⟩)
    (rest : List Char) : readTrailing lead (s ++ rest) offset = .ok ⟨c, r ++ rest, m⟩ := by
  unfold readTrailing at h
  split at h
  · cases h
  · split at h
    · cases h
    · rename_i hmark
      split at h
      · cases h
      · split at h
        · cases h
        · rename_i hletter
          split at h
          · cases h
          · rename_i hlow
            split at h
            · rename_i htrailing
              obtain ⟨rfl, rfl, rfl⟩ := (Found.mk.injEq ..).mp (Except.ok.inj h)
              rw [List.cons_append, List.cons_append, readTrailing, if_neg hmark,
                if_neg hletter, readUnit_append hlow]
              exact if_pos htrailing
            · cases h

theorem readCodePoint_append {m : Nat} {c : Char} (h : readCodePoint s offset = .ok ⟨c, r, m⟩)
    (rest : List Char) : readCodePoint (s ++ rest) offset = .ok ⟨c, r ++ rest, m⟩ := by
  unfold readCodePoint at h
  split at h
  · cases h
  · rename_i u hunit
    obtain ⟨n, r', m'⟩ := u
    rw [readCodePoint, readUnit_append hunit]
    dsimp only at h ⊢
    split at h
    · cases h
    · rename_i htrailing
      rw [if_neg htrailing]
      split at h
      · rename_i hleading
        rw [if_pos hleading, readTrailing_append h]
      · rename_i hleading
        cases h
        rw [if_neg hleading]

theorem readEscape_append {m : Nat} {c : Char} (h : readEscape s offset = .ok ⟨c, r, m⟩)
    (rest : List Char) : readEscape (s ++ rest) offset = .ok ⟨c, r ++ rest, m⟩ := by
  unfold readEscape at h
  split at h
  · cases h
  · split at h
    · rename_i hsimple
      cases h
      simp only [readEscape, List.cons_append, hsimple]
    · rename_i hsimple
      split at h
      · rename_i hletter
        simp only [readEscape, List.cons_append, hsimple, if_pos hletter]
        exact readCodePoint_append h rest
      · cases h

/-! The ways in which `readBody` goes on. -/

theorem readBody_quote : readBody ('"' :: s) offset = .ok ⟨[], s, offset + 1⟩ := by
  rw [readBody]
  rfl

theorem readBody_escape {s' value : List Char} {c : Char} {m k : Nat}
    (hescape : readEscape s (offset + 1) = .ok ⟨c, s', m⟩)
    (hbody : readBody s' m = .ok ⟨value, r, k⟩) :
    readBody ('\\' :: s) offset = .ok ⟨c :: value, r, k⟩ := by
  rw [readBody]
  simp only [Char.reduceEq, ↓reduceIte]
  split
  · simp_all
  · rename_i hf
    cases hescape.symm.trans hf
    rw [hbody]

theorem readBody_plain {value : List Char} {c : Char} {k : Nat} (hquote : c ≠ '"') (hslash : c ≠ '\\')
    (hcontrol : ¬ c.toNat < 32) (hbody : readBody s (offset + c.utf8Size) = .ok ⟨value, r, k⟩) :
    readBody (c :: s) offset = .ok ⟨c :: value, r, k⟩ := by
  rw [readBody]
  simp only [hquote, hslash, hcontrol, ↓reduceIte, hbody]

theorem readBody_append {value : List Char} {m : Nat} (h : readBody s offset = .ok ⟨value, r, m⟩)
    (rest : List Char) : readBody (s ++ rest) offset = .ok ⟨value, r ++ rest, m⟩ := by
  fun_induction readBody s offset generalizing value r m with
  | case1 => cases h
  | case2 =>
    cases h
    exact readBody_quote
  | case3 => cases h
  | case4 => cases h
  | case5 offset s f hescape b hbody _ ih =>
    cases h
    exact readBody_escape (readEscape_append hescape rest) (ih hbody)
  | case6 => cases h
  | case7 => cases h
  | case8 offset c s hquote hslash hcontrol b hbody ih =>
    cases h
    exact readBody_plain hquote hslash hcontrol (ih hbody)

/-! Written strings. -/

theorem hexValue_hexDigit {n : Nat} (h : n < 16) : hexValue? (hexDigit n) = some n := by
  decide +revert

theorem isAlphanum_hexDigit {n : Nat} (h : n < 16) : (hexDigit n).isAlphanum := by
  decide +revert

/-- How a character is escaped: what stands behind the backslash is read as the character. -/
structure EscapedAs (c : Char) (t : List Char) : Prop where
  chars : ∀ d ∈ t, d = c ∨ d.isAlphanum
  read : ∀ s offset, readEscape (t ++ s) offset = .ok ⟨c, s, offset + t.length⟩

theorem EscapedAs.simple {c d : Char} (h : simpleEscape? d = some c) (hd : d = c ∨ d.isAlphanum) :
    EscapedAs c [d] where
  chars := by simpa using hd
  read s offset := by simp [readEscape, h]

theorem EscapedAs.unit {c : Char} (h : c.toNat < 32) :
    EscapedAs c ['u', '0', '0', hexDigit (c.toNat / 16), hexDigit (c.toNat % 16)] where
  chars := by
    have hhigh := isAlphanum_hexDigit (n := c.toNat / 16) (by omega)
    have hlow := isAlphanum_hexDigit (n := c.toNat % 16) (by omega)
    have hmark : 'u'.isAlphanum := rfl
    have hzero : '0'.isAlphanum := rfl
    simp [hhigh, hlow, hmark, hzero]
  read s offset := by
    have hfour : hexFour? '0' '0' (hexDigit (c.toNat / 16)) (hexDigit (c.toNat % 16)) = some c.toNat := by
      have hzero : hexValue? '0' = some 0 := rfl
      simp only [hexFour?, hzero, hexValue_hexDigit (n := c.toNat / 16) (by omega),
        hexValue_hexDigit (n := c.toNat % 16) (by omega)]
      congr 1
      omega
    have htrailing : isTrailing c.toNat = false := by
      simp only [isTrailing, Bool.and_eq_false_iff, decide_eq_false_iff_not]
      omega
    have hleading : isLeading c.toNat = false := by
      simp only [isLeading, Bool.and_eq_false_iff, decide_eq_false_iff_not]
      omega
    have hmark : simpleEscape? 'u' = none := rfl
    simp [readEscape, readCodePoint, readUnit, hmark, hfour, htrailing, hleading]

/-- A character is written as itself, or escaped. -/
theorem escapeChar_cases (c : Char) :
    escapeChar c = [c] ∧ c ≠ '"' ∧ c ≠ '\\' ∧ ¬ c.toNat < 32 ∨
      ∃ t, escapeChar c = '\\' :: t ∧ EscapedAs c t := by
  unfold escapeChar
  split_ifs with hquote hslash hn hr ht hb hf hcontrol
  · exact .inr ⟨_, rfl, .simple (by rw [hquote]; rfl) (.inl hquote.symm)⟩
  · exact .inr ⟨_, rfl, .simple (by rw [hslash]; rfl) (.inl hslash.symm)⟩
  · exact .inr ⟨_, rfl, .simple (hn ▸ rfl) (.inr rfl)⟩
  · exact .inr ⟨_, rfl, .simple (hr ▸ rfl) (.inr rfl)⟩
  · exact .inr ⟨_, rfl, .simple (ht ▸ rfl) (.inr rfl)⟩
  · exact .inr ⟨_, rfl, .simple (hb ▸ rfl) (.inr rfl)⟩
  · exact .inr ⟨_, rfl, .simple (hf ▸ rfl) (.inr rfl)⟩
  · exact .inr ⟨_, rfl, .unit hcontrol⟩
  · exact .inl ⟨rfl, hquote, hslash, hcontrol⟩

/-- What is written of a character besides itself. -/
theorem mem_escapeChar {c d : Char} (h : d ∈ escapeChar c) : d = c ∨ d = '\\' ∨ d.isAlphanum := by
  rcases escapeChar_cases c with ⟨hc, -⟩ | ⟨t, hc, ht⟩
  · rw [hc] at h
    exact .inl (List.mem_singleton.mp h)
  · rw [hc] at h
    rcases List.mem_cons.mp h with rfl | h
    · exact .inr (.inl rfl)
    · exact (ht.chars d h).imp_right .inr

/-- A string that is written is read to its closing quote. -/
theorem readBody_written (s rest : List Char) (offset : Nat) :
    ∃ m, readBody (s.flatMap escapeChar ++ '"' :: rest) offset = .ok ⟨s, rest, m⟩ := by
  induction s generalizing offset with
  | nil => exact ⟨_, readBody_quote⟩
  | cons c s ih =>
    rw [List.flatMap_cons, List.append_assoc]
    rcases escapeChar_cases c with ⟨hc, hquote, hslash, hcontrol⟩ | ⟨t, hc, ht⟩
    · obtain ⟨m, hm⟩ := ih (offset + c.utf8Size)
      refine ⟨m, ?_⟩
      rw [hc, List.singleton_append]
      exact readBody_plain hquote hslash hcontrol hm
    · obtain ⟨m, hm⟩ := ih (offset + 1 + t.length)
      refine ⟨m, ?_⟩
      rw [hc, List.cons_append]
      exact readBody_escape (ht.read _ _) hm

/-- A whole written string is read. -/
theorem readString_quoted (s : List Char) : readString (quoted s) = .ok s := by
  obtain ⟨m, hm⟩ := readBody_written s [] 1
  simp only [readString, quoted, hm, skipSpace, List.dropWhile_nil, List.isEmpty_nil, ↓reduceIte]

/-- Where a text begins with a written string and goes on with what is not a blank, no other part of it from
the beginning is a string. -/
theorem eq_quoted_of_readString {s t p rest : List Char} (hp : p <+: quoted s ++ rest)
    (hrest : ∀ c ∈ rest.head?, isSpace c = false) (h : readString p = .ok t) : p = quoted s ∧ t = s := by
  obtain ⟨p', hp⟩ := hp
  unfold readString at h
  split at h
  · cases h
  · rename_i q
    obtain ⟨rfl, hq⟩ := List.cons_eq_cons.mp hp
    split at h
    · cases h
    · rename_i b hread
      obtain ⟨value, r, m⟩ := b
      obtain ⟨m', hwritten⟩ := readBody_written s rest 1
      have hmore := readBody_append hread p'
      rw [show q ++ p' = s.flatMap escapeChar ++ '"' :: rest by simpa using hq, hwritten] at hmore
      obtain ⟨rfl, hr, -⟩ := (Found.mk.injEq ..).mp (Except.ok.inj hmore)
      have hnil : r = [] := by
        cases r with
        | nil => rfl
        | cons c r =>
          have hc := hrest c (by rw [hr]; rfl)
          simp [skipSpace, hc] at h
      subst hnil
      rw [hr, List.nil_append] at hq
      have hq : q = s.flatMap escapeChar ++ ['"'] :=
        (List.append_left_inj p').mp (by simpa using hq)
      simp only [skipSpace, List.dropWhile_nil, List.isEmpty_nil, ↓reduceIte] at h
      exact ⟨by rw [hq, quoted], (Except.ok.inj h).symm⟩

end Montage.Json
