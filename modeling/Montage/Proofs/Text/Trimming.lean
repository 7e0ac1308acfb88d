import Mathlib.Data.List.DropRight
import Montage.Text.Blank

/-!
Trimming. Main statements: nothing is left to trim in a trimmed text, and blanks around a text do not matter to
what is trimmed.
-/

namespace Montage.Text

variable {s : List Char}

theorem trimStart_of_head (h : ∀ c ∈ s.head?, isBlank c = false) : trimStart s = s := by
  cases s with
  | nil => rfl
  | cons c s => rw [trimStart, List.dropWhile_cons_of_neg (by simp [h c rfl])]

theorem trimEnd_of_last (h : ∀ c ∈ s.getLast?, isBlank c = false) : trimEnd s = s := by
  rw [← List.head?_reverse] at h
  have hreverse := trimStart_of_head h
  rw [trimStart] at hreverse
  rw [trimEnd, hreverse, List.reverse_reverse]

theorem trim_of_ends (hhead : ∀ c ∈ s.head?, isBlank c = false)
    (hlast : ∀ c ∈ s.getLast?, isBlank c = false) : trim s = s := by
  rw [trim, trimStart_of_head hhead, trimEnd_of_last hlast]

theorem trimEnd_cons {c : Char} (hc : isBlank c = false) (s : List Char) :
    trimEnd (c :: s) = c :: trimEnd s := by
  rw [trimEnd, trimEnd, List.reverse_cons, List.dropWhile_append]
  split
  · rename_i hnil
    rw [List.isEmpty_iff.mp hnil, List.dropWhile_cons_of_neg (by simp [hc])]
    rfl
  · rw [List.reverse_append]
    rfl

/-- What is trimmed off at the end is blank. -/
theorem trimEnd_append (s : List Char) : ∃ blanks, s = trimEnd s ++ blanks ∧ ∀ b ∈ blanks, isBlank b := by
  refine ⟨(s.reverse.takeWhile isBlank).reverse, ?_, fun b hb => ?_⟩
  · rw [trimEnd, ← List.reverse_append, List.takeWhile_append_dropWhile, List.reverse_reverse]
  · exact List.all_eq_true.mp List.all_takeWhile b (List.mem_reverse.mp hb)

theorem trim_cons {c : Char} (hc : isBlank c = false) (s : List Char) :
    trim (c :: s) = c :: trimEnd s := by
  rw [trim, trimStart_of_head (by simpa using hc), trimEnd_cons hc]

theorem trim_prefix {c : Char} (hc : isBlank c = false) (s : List Char) : trim (c :: s) <+: c :: s := by
  obtain ⟨blanks, hs, -⟩ := trimEnd_append s
  exact ⟨blanks, by rw [trim_cons hc, List.cons_append, ← hs]⟩

/-- Where a text begins with `s` and goes on with what is not blank, only `s` itself is trimmed to `s`. -/
theorem eq_of_trim {p rest : List Char} (hs : ∃ c t, s = c :: t ∧ isBlank c = false)
    (hrest : ∀ c ∈ rest.head?, isBlank c = false) (hp : p <+: s ++ rest) (h : trim p = s) : p = s := by
  obtain ⟨c, t, rfl, hc⟩ := hs
  cases p with
  | nil => cases h
  | cons d q =>
    rw [List.cons_append, List.cons_prefix_cons] at hp
    obtain ⟨rfl, hq⟩ := hp
    rw [trim_cons hc] at h
    obtain ⟨-, rfl⟩ := List.cons_eq_cons.mp h
    obtain ⟨blanks, hblanks, hall⟩ := trimEnd_append q
    have hend : blanks <+: rest := by
      rw [← List.prefix_append_right_inj (trimEnd q), ← hblanks]
      exact hq
    cases blanks with
    | nil => rw [← List.append_nil (trimEnd q), ← hblanks]
    | cons b blanks =>
      obtain ⟨t, rfl⟩ := hend
      have hb := hrest b rfl
      rw [hall b List.mem_cons_self] at hb
      cases hb

theorem exists_trimStart (s : List Char) : ∃ blanks, s = blanks ++ trimStart s ∧ ∀ b ∈ blanks, isBlank b :=
  ⟨s.takeWhile isBlank, List.takeWhile_append_dropWhile.symm, List.all_eq_true.mp List.all_takeWhile⟩

/-- What is trimmed off at either end is blank. -/
theorem exists_trim (s : List Char) :
    ∃ a b, s = a ++ (trim s ++ b) ∧ (∀ c ∈ a, isBlank c) ∧ ∀ c ∈ b, isBlank c := by
  obtain ⟨a, ha, hblank⟩ := exists_trimStart s
  obtain ⟨b, hb, hblank'⟩ := trimEnd_append (trimStart s)
  exact ⟨a, b, by rw [trim, ← hb, ← ha], hblank, hblank'⟩

theorem trimEnd_trimEnd (s : List Char) : trimEnd (trimEnd s) = trimEnd s := by
  rw [trimEnd, trimEnd, List.reverse_reverse, List.dropWhile_idempotent]

theorem trim_cons_blank {c : Char} (hc : isBlank c) (s : List Char) : trim (c :: s) = trim s := by
  simp only [trim, trimStart, List.dropWhile_cons_of_pos hc]

theorem isBlank_last_trim (s : List Char) : ∀ c ∈ (trim s).getLast?, isBlank c = false := by
  have hlast := List.head?_dropWhile_not isBlank (trimStart s).reverse
  intro c hc
  rw [trim, trimEnd, List.getLast?_reverse] at hc
  rw [hc] at hlast
  exact hlast

theorem trim_trim (s : List Char) : trim (trim s) = trim s := by
  have hhead := List.head?_dropWhile_not isBlank s
  have htrim : trim s = trimEnd (trimStart s) := rfl
  cases hs : trimStart s with
  | nil =>
    rw [htrim, hs]
    rfl
  | cons c t =>
    have hc : isBlank c = false := by
      rw [← trimStart, hs] at hhead
      exact hhead
    rw [htrim, hs, trimEnd_cons hc, trim_cons hc, trimEnd_trimEnd]

/-! Blanks around a text. -/

theorem trim_blank_append {b : List Char} (hb : ∀ c ∈ b, isBlank c) (s : List Char) : trim (b ++ s) = trim s := by
  rw [trim, trimStart, List.dropWhile_append_of_pos hb]
  rfl

theorem trimEnd_append_blank {b : List Char} (hb : ∀ c ∈ b, isBlank c) (s : List Char) :
    trimEnd (s ++ b) = trimEnd s := by
  rw [trimEnd, List.reverse_append, List.dropWhile_append_of_pos fun c hc => hb c (List.mem_reverse.mp hc)]
  rfl

theorem trim_append_blank {b : List Char} (hb : ∀ c ∈ b, isBlank c) (s : List Char) : trim (s ++ b) = trim s := by
  rw [trim, trimStart, List.dropWhile_append]
  split
  · rename_i hs
    have hnil : b.dropWhile isBlank = [] := List.dropWhile_eq_nil_iff.mpr hb
    rw [hnil, trim, trimStart, List.isEmpty_iff.mp hs]
  · exact trimEnd_append_blank hb _

theorem trim_trimEnd (s : List Char) : trim (trimEnd s) = trim s := by
  obtain ⟨b, hs, hb⟩ := trimEnd_append s
  rw [← trim_append_blank hb (trimEnd s), ← hs]

/-! What stands behind a text. -/

theorem head?_of_trimEnd {c : Char} (h : (trimEnd s).head? = some c) : s.head? = some c := by
  obtain ⟨t, ht⟩ := List.head?_eq_some_iff.mp h
  obtain ⟨b, hs, -⟩ := trimEnd_append s
  rw [hs, ht]
  rfl

theorem trimEnd_append_of_ne_nil {t : List Char} (h : trimEnd t ≠ []) (s : List Char) :
    trimEnd (s ++ t) = s ++ trimEnd t := by
  have hother : (t.reverse.dropWhile isBlank).isEmpty = false := by
    simpa [trimEnd] using h
  rw [trimEnd, List.reverse_append, List.dropWhile_append, hother, if_neg Bool.false_ne_true, List.reverse_append,
    List.reverse_reverse]
  rfl

theorem isBlank_head_trim (s : List Char) : ∀ c ∈ (trim s).head?, isBlank c = false := by
  have hhead := List.head?_dropWhile_not isBlank s
  intro c hc
  rw [← trimStart, head?_of_trimEnd hc] at hhead
  exact hhead

/-- Behind a trimmed text only the end is trimmed. -/
theorem trim_append (hs : trim s = s) (hne : s ≠ []) (t : List Char) : trim (s ++ t) = s ++ trimEnd t := by
  by_cases ht : trimEnd t = []
  · obtain ⟨b, hb, hblank⟩ := trimEnd_append t
    rw [ht, List.nil_append] at hb
    rw [hb, trim_append_blank hblank, hs, ← hb, ht, List.append_nil]
  · obtain ⟨c, u, rfl⟩ := List.exists_cons_of_ne_nil hne
    have hc : isBlank c = false := isBlank_head_trim (c :: u) c (by rw [hs]; rfl)
    rw [trim, trimStart_of_head (by simpa using hc), trimEnd_append_of_ne_nil ht]

end Montage.Text
