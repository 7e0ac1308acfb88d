import Montage.Proofs.Query.Entries
import Montage.Proofs.Query.Spans

/-!
Sources of fields that are plain values. Main statement: where a field of an object literal has a value of its own,
its source evaluates to that value just if no equality sign is exposed there, as none is in a single quoted text or
in a value in which no double quote is escaped.
-/

namespace Montage.Expression

open Json Json.Value Scan

variable {s t source rest : List Char} {v : Value} {data context : Value} {f : LiteralField}
  {fields : List LiteralField}

/-! How plain values begin. -/

/-- No value begins with a mark, an equality sign or the name of the data or of the context. -/
theorem read_marked {c : Char} (hc : c ∈ ['!', '=', '$', '#']) (s : List Char) : Value.read (c :: s) = none := by
  simp only [List.mem_cons, List.not_mem_nil, or_false] at hc
  rcases hc with rfl | rfl | rfl | rfl <;> simp [Value.read, readValue, skipSpace, isSpace]

theorem ne_of_literal {c d : Char} (h : literal? (c :: s) = some v) (hd : d ∈ ['!', '=', '$', '#']) : c ≠ d := by
  rintro rfl
  unfold literal? at h
  split at h
  · rename_i hquoted
    unfold singleQuoted? at hquoted
    split at hquoted
    · rename_i hs
      obtain ⟨rfl, -⟩ := List.cons_eq_cons.mp hs
      simp at hd
    · cases hquoted
  · rw [read_marked hd] at h
    cases h

/-! Truth values. -/

theorem leaves_space (s : List Char) : Leaves (· ≠ '=') s (skipSpace s) := by
  refine .dropWhile (fun c hc he => ?_) s
  rw [he] at hc
  cases hc

/-- There is no equality sign in a truth value. -/
theorem leaves_bool {fuel depth : Nat} {b : Bool} (h : readValue fuel depth s = some (.bool b, rest)) :
    Leaves (· ≠ '=') s rest := by
  cases fuel with
  | zero => cases h
  | succ fuel =>
    refine (leaves_space s).trans ?_
    simp only [readValue] at h
    split at h
    · cases h
    · rename_i c s' hs'
      rw [hs']
      split_ifs at h
      · split at h <;> cases h
      · split at h
        · cases h
        · simp at h
      · split at h
        · cases h
        · simp at h
      all_goals
        obtain ⟨r, hr, hp⟩ := Option.map_eq_some_iff.mp h
        first
          | cases hp; exact .word hr (List.forall_mem_ne'.mpr (by decide))
          | cases hp

theorem sign_not_mem_of_bool {b : Bool} (h : Value.read s = some (.bool b)) : '=' ∉ s := by
  unfold Value.read at h
  split at h
  · rename_i v rest hread
    split at h
    · rename_i hrest
      rw [Option.some.inj h] at hread
      obtain ⟨taken, rfl, htaken⟩ := (leaves_bool hread).trans (leaves_space rest)
      rw [List.isEmpty_iff.mp hrest, List.append_nil]
      exact fun hmem => htaken '=' hmem rfl
    · cases h
  · cases h

/-! Sources. -/

theorem atom_of_literal (hne : s ≠ []) (h : literal? s = some v) : atom s data context = .ok v := by
  obtain ⟨c, t, rfl⟩ := List.exists_cons_of_ne_nil hne
  have hdata : c ≠ '$' := ne_of_literal h (by simp)
  have hcontext : c ≠ '#' := ne_of_literal h (by simp)
  unfold literal? at h
  unfold atom
  cases hquoted : singleQuoted? (c :: t) with
  | some text =>
    rw [hquoted] at h
    simpa [hdata, hcontext] using h
  | none =>
    rw [hquoted] at h
    simp only at h
    simp [hdata, hcontext, h]

/-- A trimmed text that is a plain value evaluates to it just if no equality sign is exposed there. -/
theorem evaluate_literal_iff (hne : s ≠ []) (htrim : Text.trim s = s) (h : literal? s = some v)
    (data context : Value) : evaluate s data context = .ok v ↔ ¬ Exposed '=' start s := by
  obtain ⟨c, t, rfl⟩ := List.exists_cons_of_ne_nil hne
  have hmark : c ≠ '!' := ne_of_literal h (by simp)
  have hsign : c ≠ '=' := ne_of_literal h (by simp)
  constructor
  · intro heval hexposed
    obtain ⟨b, rfl⟩ := truth_of_equality htrim hsign hexposed heval
    unfold literal? at h
    split at h
    · cases h
    · exact sign_not_mem_of_bool h hexposed.mem
  · intro hhidden
    rw [evaluate_eq_atom htrim hsign hmark hhidden]
    exact atom_of_literal hne h

/-- The source of a field with a value of its own is a trimmed text that is this value. -/
theorem source_of_literal (h : parseLiteral s = .ok fields) (hf : f ∈ fields) (hv : f.literal = some v) :
    ∃ source, f.source = String.ofList source ∧ source ≠ [] ∧ Text.trim source = source ∧
      literal? source = some v := by
  obtain ⟨pieces, gives, hlists, rfl⟩ := parseLiteral_iff.mp h
  obtain ⟨piece, -, hgives⟩ := hlists.exists_piece hf
  cases hgives with
  | alone => cases hv
  | @pair name value key _ _ _ _ hfilled => exact ⟨Text.trim value, rfl, hfilled, Text.trim_trim value, hv⟩

/-- One text in single quotes, or a value in which no double quote is escaped. -/
def IsSingle (source : List Char) : Prop :=
  (∃ text, source = '\'' :: (text ++ ['\'']) ∧ '\'' ∉ text) ∨
    (Value.read source).isSome ∧ ¬ HasEscapedQuote source

theorem not_exposed_of_single (h : IsSingle source) : ¬ Exposed '=' start source := by
  rcases h with ⟨text, rfl, htext⟩ | ⟨hread, hescaped⟩
  · exact (Quiet.quoted (d := 0) rfl htext (by decide)).hidden
  · obtain ⟨v, hv⟩ := Option.isSome_iff_exists.mp hread
    exact (quiet_of_read (.inr (.inr rfl)) hv hescaped).hidden

/-- Where a field of an object literal has a value of its own, its source evaluates to that value, whatever the data
and the context, just if the scan for equality signs meets none there at the top level. It meets none in one text in
single quotes, or in a value in which no double quote is escaped. -/
theorem evaluate_source_iff (h : parseLiteral s = .ok fields) (hf : f ∈ fields) (hv : f.literal = some v)
    (data context : Value) :
    (evaluate f.source.toList data context = .ok v ↔ ¬ Exposed '=' start f.source.toList) ∧
      (IsSingle f.source.toList → ¬ Exposed '=' start f.source.toList) := by
  refine ⟨?_, not_exposed_of_single⟩
  obtain ⟨source, hsource, hne, htrim, hliteral⟩ := source_of_literal h hf hv
  rw [hsource, String.toList_ofList]
  exact evaluate_literal_iff hne htrim hliteral data context

/-- Two quoted texts with an equality sign between them are taken for one text by the reader of literals, and
compared by the evaluator. -/
theorem evaluate_of_quoted_equality :
    let f : LiteralField := ⟨"a", "'x' = 'y'", some (.str "x' = 'y")⟩
    parseLiteral "\x7ba: 'x' = 'y'\x7d".toList = .ok [f] ∧
      evaluate f.source.toList .null .null ≠ .ok (.str "x' = 'y") := by
  intro f
  have h : parseLiteral "\x7ba: 'x' = 'y'\x7d".toList = .ok [f] := rfl
  have hexposed : Exposed '=' start f.source.toList :=
    ⟨['\'', 'x', '\'', ' '], [' ', '\'', 'y', '\''], by decide, rfl⟩
  exact ⟨h, fun heval => (evaluate_source_iff h List.mem_cons_self rfl .null .null).1.mp heval hexposed⟩

end Montage.Expression
