import Montage.Proofs.Query.Literals

/-!
What object literals are. Main statement: a text is read as a literal just if it is a list of pieces in
braces, cut at the commas at the top level, and each piece is blank, a name, or a name and a value with a
colon between them.
-/

namespace Montage

open Json (Value)

/-! Pieces between separators. -/

namespace Scan

variable {sep : Char} {s p : List Char} {ps : List (List Char)}

/-- The pieces of a text between its separators at the top level. -/
structure Pieces (sep : Char) (s : List Char) (ps : List (List Char)) : Prop where
  text : s = List.intercalate [sep] ps
  nonempty : ps ≠ []
  hidden : ∀ p ∈ ps, ¬ Exposed sep start p
  ends : ∀ p ∈ ps.dropLast, start.after p = start

namespace Pieces

theorem single (h : ¬ Exposed sep start p) : Pieces sep p [p] :=
  ⟨by simp, List.cons_ne_nil _ _, List.forall_mem_singleton.mpr h, List.forall_mem_nil _⟩

theorem of_quiet (hne : ps ≠ []) (h : ∀ p ∈ ps, Quiet sep start p) :
    Pieces sep (List.intercalate [sep] ps) ps :=
  ⟨rfl, hne, fun p hp => (h p hp).hidden, fun p hp => (h p (List.mem_of_mem_dropLast hp)).back⟩

theorem cons (h : ¬ Exposed sep start p) (htop : start.after p = start) (hps : Pieces sep s ps) :
    Pieces sep (p ++ sep :: s) (p :: ps) where
  text := by rw [List.intercalate_cons_of_ne_nil hps.nonempty, ← hps.text, List.append_assoc]; rfl
  nonempty := List.cons_ne_nil _ _
  hidden := List.forall_mem_cons.mpr ⟨h, hps.hidden⟩
  ends := by
    rw [List.dropLast_cons_of_ne_nil hps.nonempty]
    exact List.forall_mem_cons.mpr ⟨htop, hps.ends⟩

end Pieces

/-- A text is split into its pieces. -/
theorem pieces_split (sep : Char) (s : List Char) : Pieces sep s (split sep s) := by
  induction hlength : s.length using Nat.strong_induction_on generalizing s with
  | _ n ih =>
    cases hcut : cutFrom sep start s with
    | none =>
      have hhidden := cutFrom_eq_none.mp hcut
      rw [split_of_not_exposed hhidden]
      exact .single hhidden
    | some q =>
      obtain ⟨p, rest⟩ := q
      obtain ⟨rfl, hhidden, htop⟩ := cutFrom_eq_some.mp hcut
      rw [split_append hhidden htop]
      rw [List.length_append, List.length_cons] at hlength
      exact .cons hhidden htop (ih rest.length (by omega) rest rfl)

theorem Pieces.split_eq (h : Pieces sep s ps) : split sep s = ps := by
  induction ps generalizing s with
  | nil => exact absurd rfl h.nonempty
  | cons p ps ih =>
    obtain ⟨rfl, -, hhidden, hends⟩ := h
    obtain ⟨hp, hps⟩ := List.forall_mem_cons.mp hhidden
    cases ps with
    | nil =>
      rw [List.intercalate_singleton]
      exact split_of_not_exposed hp
    | cons q ps =>
      obtain ⟨htop, hends⟩ := List.forall_mem_cons.mp hends
      have hmore := ih ⟨rfl, List.cons_ne_nil _ _, hps, hends⟩
      rw [List.intercalate_cons_cons, List.append_assoc, List.singleton_append, split_append hp htop, hmore]

end Scan

namespace Expression

open Scan

variable {s piece name value : List Char} {pieces : List (List Char)} {f : LiteralField}
  {fields : List LiteralField} {gives : List (Option LiteralField)}

/-! Names. -/

/-- The characters of names. -/
def isNameChar (c : Char) : Bool :=
  Text.isAlphanumeric c || c == '_' || c == '$'

theorem isNameChar_of_isBlank {c : Char} (h : Text.isBlank c) : isNameChar c = false := by
  have hcodes : ∀ n ∈ List.range' 9 5 ++ List.range' 8192 11 ++
      [32, 133, 160, 5760, 8232, 8233, 8239, 8287, 12288], isNameChar (Char.ofNat n) = false := by
    decide +kernel
  have hc := hcodes c.toNat (by
    simp only [Text.isBlank, Bool.or_eq_true, Bool.and_eq_true, decide_eq_true_eq, beq_iff_eq] at h
    simp only [List.mem_append, List.mem_range'_1, List.mem_cons, List.not_mem_nil, or_false]
    omega)
  rwa [Char.ofNat_toNat] at hc

theorem ne_nil_of_identifier (h : isIdentifier s) : s ≠ [] := by
  simpa using (Bool.and_eq_true_iff.mp h).1

theorem isNameChar_of_mem {c : Char} (h : isIdentifier s) (hc : c ∈ s) : isNameChar c :=
  List.all_eq_true.mp (Bool.and_eq_true_iff.mp h).2 c hc

theorem ne_of_mem_identifier {c d : Char} (h : isIdentifier s) (hc : c ∈ s) (hd : isNameChar d = false) :
    c ≠ d := by
  rintro rfl
  rw [isNameChar_of_mem h hc] at hd
  cases hd

theorem isBlank_of_mem_identifier {c : Char} (h : isIdentifier s) (hc : c ∈ s) : Text.isBlank c = false := by
  by_contra hblank
  rw [Bool.not_eq_false] at hblank
  exact ne_of_mem_identifier h hc (isNameChar_of_isBlank hblank) rfl

theorem trim_identifier (h : isIdentifier s) : Text.trim s = s :=
  Text.trim_of_ends (fun _ hc => isBlank_of_mem_identifier h (List.mem_of_mem_head? hc))
    fun _ hc => isBlank_of_mem_identifier h (List.mem_of_getLast? hc)

theorem readKey_identifier (h : isIdentifier s) : readKey s = .ok (String.ofList s) := by
  obtain ⟨c, t, rfl⟩ := List.exists_cons_of_ne_nil (ne_nil_of_identifier h)
  have hsingle : c ≠ '\'' := ne_of_mem_identifier h List.mem_cons_self rfl
  have hdouble : c ≠ '"' := ne_of_mem_identifier h List.mem_cons_self rfl
  have hquoted : singleQuoted? (c :: t) = none := by
    unfold singleQuoted?
    split
    · rename_i hs
      exact absurd (List.cons_eq_cons.mp hs).1 hsingle
    · rfl
  simp [readKey, hquoted, hdouble, h]

theorem isPassed_of_mem_identifier {c : Char} (h : isIdentifier s) (hc : c ∈ s) : IsPassed c :=
  isPassed_of_class (isNameChar_of_mem h hc) rfl

/-- A name is passed over by every scan. -/
theorem quiet_identifier {sep : Char} (h : isIdentifier s) (hsep : IsSeparator sep) (d : Int) :
    Quiet sep ⟨d, none⟩ s := by
  refine .of_forall fun c hc => .passed (isPassed_of_mem_identifier h hc) ?_ d
  rcases hsep with rfl | rfl | rfl <;> exact ne_of_mem_identifier h hc rfl

/-! Entries. -/

/-- What a piece of a literal gives: nothing where it is blank, and else a field, of a name that stands for
itself or of a name and a value with a colon between them. -/
inductive Gives (piece : List Char) : Option LiteralField → Prop
  | blank (text : Text.trim piece = []) : Gives piece none
  | alone (name : isIdentifier (Text.trim piece)) :
      Gives piece (some ⟨String.ofList (Text.trim piece), String.ofList (Text.trim piece), none⟩)
  | pair {name value : List Char} {key : String} (text : Text.trim piece = name ++ ':' :: value)
      (hidden : ¬ Exposed ':' start name) (top : start.after name = start)
      (named : readKey (Text.trim name) = .ok key) (filled : Text.trim value ≠ []) :
      Gives piece (some ⟨key, String.ofList (Text.trim value), literal? (Text.trim value)⟩)

theorem gives_none : Gives piece none ↔ Text.trim piece = [] :=
  ⟨fun h => by cases h; assumption, .blank⟩

/-- A piece is read as the field that it gives. -/
theorem gives_some : Gives piece (some f) ↔ readEntry (Text.trim piece) = .ok f := by
  constructor
  · intro h
    cases h with
    | alone hname =>
      have hcut : cut ':' (Text.trim piece) = none :=
        cutFrom_eq_none.mpr (quiet_identifier hname (.inr (.inl rfl)) 0).hidden
      simp only [readEntry, hcut, hname, ↓reduceIte]
    | @pair name value key htext hhidden htop hkey hvalue =>
      have hcut : cut ':' (Text.trim piece) = some (name, value) :=
        cutFrom_eq_some.mpr ⟨htext, hhidden, htop⟩
      simp [readEntry, hcut, hkey, hvalue]
  · intro h
    unfold readEntry at h
    split at h
    · split at h
      · rename_i hname
        rw [← Except.ok.inj h]
        exact .alone hname
      · cases h
    · rename_i name value hcut
      obtain ⟨htext, hhidden, htop⟩ := cutFrom_eq_some.mp hcut
      split at h
      · cases h
      · rename_i key hkey
        simp only at h
        split at h
        · cases h
        · rename_i hvalue
          rw [← Except.ok.inj h]
          exact .pair htext hhidden htop hkey (by simpa using hvalue)

theorem trim_ne_nil_of_gives (h : Gives piece (some f)) : Text.trim piece ≠ [] := by
  cases h with
  | alone hname => exact ne_nil_of_identifier hname
  | pair htext => simp [htext]

theorem readEntries_cons (h : Text.trim piece ≠ []) : readEntries (piece :: pieces) = .ok fields ↔
    ∃ f fs, readEntry (Text.trim piece) = .ok f ∧ readEntries pieces = .ok fs ∧ fields = f :: fs := by
  rw [readEntries, if_neg (by simpa using h)]
  cases readEntry (Text.trim piece) with
  | error e => simp
  | ok f => cases readEntries pieces <;> simp [eq_comm]

theorem readEntries_iff : readEntries pieces = .ok fields ↔
    ∃ gives, List.Forall₂ Gives pieces gives ∧ fields = gives.reduceOption := by
  induction pieces generalizing fields with
  | nil => simp [readEntries, eq_comm]
  | cons piece pieces ih =>
    by_cases hblank : Text.trim piece = []
    · have hread : readEntries (piece :: pieces) = readEntries pieces := by
        simp [readEntries, hblank]
      rw [hread, ih]
      constructor
      · rintro ⟨gives, hgives, rfl⟩
        exact ⟨none :: gives, .cons (.blank hblank) hgives, rfl⟩
      · rintro ⟨_, hgives, rfl⟩
        cases hgives with
        | @cons _ g _ gives hg hgives =>
          cases g with
          | none => exact ⟨gives, hgives, rfl⟩
          | some f => exact absurd hblank (trim_ne_nil_of_gives hg)
    · rw [readEntries_cons hblank]
      constructor
      · rintro ⟨f, fs, hf, hfs, rfl⟩
        obtain ⟨gives, hgives, rfl⟩ := ih.mp hfs
        exact ⟨some f :: gives, .cons (gives_some.mpr hf) hgives, rfl⟩
      · rintro ⟨_, hgives, rfl⟩
        cases hgives with
        | @cons _ g _ gives hg hgives =>
          cases g with
          | none => exact absurd (gives_none.mp hg) hblank
          | some f => exact ⟨f, _, gives_some.mp hg, ih.mpr ⟨gives, hgives, rfl⟩, rfl⟩

/-! Literals. -/

/-- A list of pieces in braces, and what each of them gives. -/
structure Lists (s : List Char) (pieces : List (List Char)) (gives : List (Option LiteralField)) : Prop where
  text : Text.trim s = '\x7b' :: (List.intercalate [','] pieces ++ ['\x7d'])
  cut : Pieces ',' (List.intercalate [','] pieces) pieces
  gives : List.Forall₂ Gives pieces gives

/-- Each field is given by one of the pieces. -/
theorem Lists.exists_piece (h : Lists s pieces gives) (hf : f ∈ gives.reduceOption) :
    ∃ piece ∈ pieces, Gives piece (some f) := by
  obtain ⟨-, -, hgives⟩ := h
  have hmem : some f ∈ gives := List.reduceOption_mem_iff.mp hf
  obtain ⟨i, hi, hget⟩ := List.getElem_of_mem hmem
  have hlength := hgives.length_eq
  refine ⟨pieces[i], List.getElem_mem _, ?_⟩
  rw [← hget]
  exact hgives.get _ _

theorem braced_iff {inner : List Char} : braced? s = some inner ↔ s = '\x7b' :: (inner ++ ['\x7d']) := by
  constructor
  · intro h
    unfold braced? at h
    split at h
    · split at h
      · rename_i r hlast
        obtain ⟨inner, rfl⟩ := List.getLast?_eq_some_iff.mp hlast
        rw [← Option.some.inj h, List.dropLast_concat]
      · cases h
    · cases h
  · rintro rfl
    simp [braced?]

/-- A text is read as a literal just if it is a list of pieces that give the fields. -/
theorem parseLiteral_iff : parseLiteral s = .ok fields ↔
    ∃ pieces gives, Lists s pieces gives ∧ fields = gives.reduceOption := by
  have hbraced : parseLiteral s = .ok fields ↔
      ∃ inner, braced? (Text.trim s) = some inner ∧ readEntries (split ',' inner) = .ok fields := by
    unfold parseLiteral
    cases braced? (Text.trim s) <;> simp
  rw [hbraced]
  constructor
  · rintro ⟨inner, hinner, hread⟩
    obtain ⟨gives, hgives, rfl⟩ := readEntries_iff.mp hread
    have hpieces := pieces_split ',' inner
    refine ⟨split ',' inner, gives, ⟨?_, ?_, hgives⟩, rfl⟩
    · rw [← hpieces.text]
      exact braced_iff.mp hinner
    · rw [← hpieces.text]
      exact hpieces
  · rintro ⟨pieces, gives, ⟨htext, hpieces, hgives⟩, rfl⟩
    refine ⟨_, braced_iff.mpr htext, ?_⟩
    rw [hpieces.split_eq]
    exact readEntries_iff.mpr ⟨gives, hgives, rfl⟩

theorem engine_parseLiteral (s : List Char) : engine.parseLiteral (String.ofList s) = parseLiteral s :=
  congrArg parseLiteral String.toList_ofList

end Expression

end Montage
