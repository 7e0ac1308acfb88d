import Montage.Proofs.Json.Compact
import Montage.Proofs.Json.Composition
import Montage.Proofs.Query.Evaluation
import Montage.Proofs.Query.Scanning

/-!
Written values as expressions. Main statement: a value that is read back from what is written of it
evaluates to itself just if no equality sign is exposed there, as none is when no text in the value
contains a double quote.
-/

namespace Montage

open Json (Value)

/-! Values in which no separator is exposed. -/

namespace Scan

open Json Json.Value

variable {sep : Char} {v : Value}

/-- What separates something somewhere in the language. -/
def IsSeparator (sep : Char) : Prop :=
  sep = ',' ∨ sep = ':' ∨ sep = '='

instance : DecidablePred IsSeparator :=
  fun _ => inferInstanceAs (Decidable (_ ∨ _ ∨ _))

theorem IsSeparator.ne {d : Char} (hsep : IsSeparator sep) (hd : ¬ IsSeparator d) : sep ≠ d := by
  rintro rfl
  exact hd hsep

theorem quiet_plain {c : Char} (h : Number.isPlain c) (hsep : IsSeparator sep) (d : Int) :
    Quiet sep ⟨d, none⟩ [c] := by
  have hplain : Number.isPlain sep = false := by
    rcases hsep with rfl | rfl | rfl <;> rfl
  exact .passed (isPassed_of_class h rfl) (Number.ne_of_isPlain h hplain) d

theorem quiet_quotedString {s : String} (hs : '"' ∉ s.toList) (hsep : IsSeparator sep) (d : Int) :
    Quiet sep ⟨d, none⟩ (quotedString s) :=
  .quoted rfl (not_mem_quoted hs rfl (by decide)) (hsep.ne (by decide))

theorem composed_quiet (hsep : IsSeparator sep) :
    Composed (fun d s => Quiet sep ⟨d, none⟩ s) fun s => '"' ∉ s.toList where
  plain h := .of_forall fun c hc => quiet_plain (h c hc) hsep _
  text h := quiet_quotedString h hsep _
  append := Quiet.append
  separator {d c} hc := by
    have hdeep : (⟨(d + 1 : Nat), none⟩ : Place) ≠ start := by
      simp [start]
      omega
    refine .single ?_ (.inl hdeep)
    rcases hc with rfl | rfl <;> exact IsPassed.next ⟨rfl, rfl, rfl⟩ _
  array h := .bracketed rfl (Quiet.closed rfl rfl rfl _) (Int.natCast_nonneg _) (hsep.ne (by decide)) h
  object h := .bracketed rfl (Quiet.closed rfl rfl rfl _) (Int.natCast_nonneg _) (hsep.ne (by decide)) h

theorem quiet_compactChars (hsep : IsSeparator sep) (hv : TextsAre (fun s => '"' ∉ s.toList) v.atoms) :
    Quiet sep start v.compactChars :=
  (composed_quiet hsep).compactChars 0 v hv

end Scan

namespace Expression

open Json Json.Value Scan

variable {v : Value} {data context : Value}

/-! Texts that do not begin with a mark or a sign. -/

section Unmarked

variable {c : Char} {s : List Char} (htrim : Text.trim (c :: s) = c :: s) (hsign : c ≠ '=')
include htrim hsign

/-- Where no equality sign is exposed, the text is an expression without operators. -/
theorem evaluate_eq_atom (hmark : c ≠ '!') (h : ¬ Exposed '=' start (c :: s)) (data context : Value) :
    evaluate (c :: s) data context = atom (c :: s) data context := by
  rw [evaluate_eq, htrim, negated?_eq_none (by simpa using hmark), (equality?_eq_none hsign).mpr h]

/-- Where an equality sign is exposed, nothing but a truth value can come out. -/
theorem truth_of_equality {u : Value} (h : Exposed '=' start (c :: s))
    (heval : evaluate (c :: s) data context = .ok u) : ∃ b, u = .bool b := by
  rw [evaluate_eq, htrim] at heval
  split at heval
  · exact truth_of_denied heval
  · split at heval
    · exact truth_of_verdict heval
    · rename_i hequality
      exact absurd h ((equality?_eq_none hsign).mp hequality)

end Unmarked

/-! A written value as an expression. -/

theorem isBlank_of_opens {c : Char} (h : Opens c) : Text.isBlank c = false := by
  rcases h with h | h
  · simp only [List.mem_cons, List.not_mem_nil, or_false] at h
    rcases h with rfl | rfl | rfl | rfl | rfl | rfl | rfl <;> rfl
  · exact Number.isBlank_of_isPlain (Number.isPlain_of_isDigit h)

theorem trim_compactChars (v : Value) : Text.trim v.compactChars = v.compactChars := by
  refine Text.trim_of_ends ?_ (isBlank_last v)
  obtain ⟨c, s, hv, hc⟩ := v.compactChars_opens
  rw [hv]
  rintro d ⟨⟩
  exact isBlank_of_opens hc

theorem singleQuoted?_compactChars (v : Value) : singleQuoted? v.compactChars = none := by
  obtain ⟨c, s, hv, hc⟩ := v.compactChars_opens
  have hquote : c ≠ '\'' := hc.ne (by decide)
  unfold singleQuoted?
  split
  · rename_i hs
    exact absurd (List.cons_eq_cons.mp (hv.symm.trans hs)).1 hquote
  · rfl

theorem atom_compactChars (h : Value.read v.compactChars = some v) :
    atom v.compactChars data context = .ok v := by
  obtain ⟨c, s, hv, hc⟩ := v.compactChars_opens
  have hdata : c ≠ '$' := hc.ne (by decide)
  have hcontext : c ≠ '#' := hc.ne (by decide)
  have hquoted := singleQuoted?_compactChars v
  unfold atom
  rw [hquoted, h, hv]
  simp [hdata, hcontext]

theorem evaluate_of_hidden (h : ¬ Exposed '=' start v.compactChars) (data context : Value) :
    evaluate v.compactChars data context = atom v.compactChars data context := by
  have htrim := trim_compactChars v
  obtain ⟨c, s, hv, hc⟩ := v.compactChars_opens
  rw [hv] at h htrim ⊢
  exact evaluate_eq_atom htrim (hc.ne (by decide)) (hc.ne (by decide)) h data context

/-- Where an equality sign is exposed, nothing but a truth value can come out. -/
theorem truth_of_exposed {u : Value} (h : Exposed '=' start v.compactChars)
    (heval : evaluate v.compactChars data context = .ok u) : ∃ b, u = .bool b := by
  have htrim := trim_compactChars v
  obtain ⟨c, s, hv, hc⟩ := v.compactChars_opens
  rw [hv] at h htrim heval
  exact truth_of_equality htrim (hc.ne (by decide)) h heval

theorem sign_not_mem_bool (b : Bool) : '=' ∉ (Value.bool b).compactChars := by
  cases b <;> decide

/-- No equality sign is exposed where the texts have no double quotes, or no equality signs. -/
theorem not_exposed_of_texts
    (h : TextsAre (fun s => '"' ∉ s.toList) v.atoms ∨ TextsAre (fun s => '=' ∉ s.toList) v.atoms) :
    ¬ Exposed '=' start v.compactChars := by
  rcases h with hquotes | hsigns
  · exact (quiet_compactChars (.inr (.inr rfl)) hquotes).hidden
  · exact fun hexposed => (composed_without rfl (by decide)).compactChars 0 v hsigns hexposed.mem

/-- A value that is read back from what is written of it evaluates to itself just if the scan for equality
signs meets none there at the top level. It meets none if no text in the value contains a double quote, or
none an equality sign. -/
theorem evaluate_compact_iff (h : Value.read v.compactChars = some v) (data context : Value) :
    (evaluate v.compactChars data context = .ok v ↔ ¬ Exposed '=' start v.compactChars) ∧
      (TextsAre (fun s => '"' ∉ s.toList) v.atoms ∨ TextsAre (fun s => '=' ∉ s.toList) v.atoms →
        ¬ Exposed '=' start v.compactChars) := by
  refine ⟨⟨fun heval hexposed => ?_, fun hhidden => ?_⟩, not_exposed_of_texts⟩
  · obtain ⟨b, rfl⟩ := truth_of_exposed hexposed heval
    exact sign_not_mem_bool b hexposed.mem
  · rw [evaluate_of_hidden hhidden]
    exact atom_compactChars h

/-- The scan for equality signs takes an escaped quote for the end of the text that it stands in. -/
theorem evaluate_of_escaped_quote :
    Value.read (Value.str "a\"=b").compactChars = some (.str "a\"=b") ∧
      evaluate (Value.str "a\"=b").compactChars .null .null ≠ .ok (.str "a\"=b") := by
  have h : Value.read (Value.str "a\"=b").compactChars = some (.str "a\"=b") := by
    rw [read_compactChars]
    rfl
  have hexposed : Exposed '=' start (Value.str "a\"=b").compactChars :=
    ⟨['"', 'a', '\\', '"'], ['b', '"'], rfl, rfl⟩
  exact ⟨h, fun heval => (evaluate_compact_iff h .null .null).1.mp heval hexposed⟩

end Expression

end Montage
