import Montage.Proofs.Query.Literals

/-!
Values that are read. Main statement: no separator is exposed in a text that is read as a value, unless a double
quote is escaped in it.
-/

namespace Montage.Scan

open Json Json.Value

variable {sep : Char} {p : Place} {s t r rest : List Char} {offset depth fuel : Nat}

/-! Texts in which no double quote is escaped. -/

/-- A backslash stands before a double quote. -/
def HasEscapedQuote (s : List Char) : Prop :=
  ['\\', '"'] <:+: s

theorem HasEscapedQuote.of_suffix (h : HasEscapedQuote t) (hsuffix : t <:+ s) : HasEscapedQuote s :=
  h.trans hsuffix.isInfix

theorem hexValue_quote {c : Char} {n : Nat} (h : hexValue? c = some n) : c ≠ '"' := by
  rintro rfl
  cases h

theorem readUnit_leaves {f : Found Nat} (h : readUnit s offset = .ok f) : Leaves (· ≠ '"') s f.rest := by
  unfold readUnit at h
  dsimp only at h
  split at h
  · split at h
    · rename_i n hfour
      rw [← Except.ok.inj h]
      unfold hexFour? at hfour
      split at hfour
      · rename_i ha hb hc hd
        exact ⟨[_, _, _, _], rfl,
          by simp [hexValue_quote ha, hexValue_quote hb, hexValue_quote hc, hexValue_quote hd]⟩
      · cases hfour
    · split at h <;> cases h
  · split at h <;> cases h

theorem readTrailing_leaves {lead : Nat} {f : Found Char} (h : readTrailing lead s offset = .ok f) :
    Leaves (· ≠ '"') s f.rest := by
  unfold readTrailing at h
  split at h
  · cases h
  · split at h
    · cases h
    · rename_i hmark
      split at h
      · cases h
      · split at h
        · cases h
        · rename_i hletter
          split at h
          · cases h
          · rename_i hlow
            split at h
            · rw [← Except.ok.inj h]
              refine ((readUnit_leaves hlow).cons ?_).cons ?_
              · simp [not_not.mp hletter]
              · simp [not_not.mp hmark]
            · cases h

theorem readCodePoint_leaves {f : Found Char} (h : readCodePoint s offset = .ok f) :
    Leaves (· ≠ '"') s f.rest := by
  unfold readCodePoint at h
  split at h
  · cases h
  · rename_i hunit
    split at h
    · cases h
    · split at h
      · exact (readUnit_leaves hunit).trans (readTrailing_leaves h)
      · rw [← Except.ok.inj h]
        exact readUnit_leaves hunit

theorem readEscape_leaves {f : Found Char} (h : readEscape s offset = .ok f) (hquote : s.head? ≠ some '"') :
    Leaves (· ≠ '"') s f.rest := by
  unfold readEscape at h
  split at h
  · cases h
  · rename_i c s
    have hc : c ≠ '"' := by simpa using hquote
    split at h
    · rw [← Except.ok.inj h]
      exact (Leaves.refl s).cons hc
    · split at h
      · exact (readCodePoint_leaves h).cons hc
      · cases h

/-- A string goes on to the first double quote, if none is escaped. -/
theorem readBody_leaves {b : Found (List Char)} (h : readBody s offset = .ok b) (hs : ¬ HasEscapedQuote s) :
    Leaves (· ≠ '"') s ('"' :: b.rest) := by
  induction hlength : s.length using Nat.strong_induction_on generalizing s offset b with
  | _ n ih =>
    cases s with
    | nil =>
      rw [readBody] at h
      cases h
    | cons c r =>
      rw [List.length_cons] at hlength
      have hr : ¬ HasEscapedQuote r := fun hr => hs (hr.of_suffix (List.suffix_cons c r))
      rw [readBody] at h
      split at h
      · rename_i hc
        rw [← Except.ok.inj h, hc]
        exact .refl _
      · rename_i hc
        split at h
        · rename_i hslash
          split at h
          · cases h
          · rename_i f hf
            split at h
            · cases h
            · rename_i b' hb'
              cases h
              have hquote : r.head? ≠ some '"' := by
                intro hhead
                obtain ⟨t, rfl⟩ := List.head?_eq_some_iff.mp hhead
                exact hs ⟨[], t, by simp [hslash]⟩
              have hescape := readEscape_leaves hf hquote
              have hrest : ¬ HasEscapedQuote f.rest := fun hrest => hr (hrest.of_suffix hescape.suffix)
              have hless := hescape.suffix.length_le
              exact (hescape.trans (ih f.rest.length (by omega) hb' hrest rfl)).cons hc
        · split at h
          · cases h
          · split at h
            · cases h
            · rename_i b' hb'
              cases h
              exact (ih r.length (by omega) hb' hr rfl).cons hc

/-! What a scan passes. -/

/-- A scan comes to the rest as it was, and meets no separator at the top level before it. -/
def Passes (sep : Char) (p : Place) (s rest : List Char) : Prop :=
  ∃ taken, s = taken ++ rest ∧ Quiet sep p taken

namespace Passes

theorem trans (h : Passes sep p s t) (h' : Passes sep p t rest) : Passes sep p s rest := by
  obtain ⟨taken, rfl, htaken⟩ := h
  obtain ⟨taken', rfl, htaken'⟩ := h'
  exact ⟨taken ++ taken', (List.append_assoc ..).symm, htaken.append htaken'⟩

theorem cons {c : Char} (hc : Quiet sep p [c]) (h : Passes sep p s rest) : Passes sep p (c :: s) rest := by
  obtain ⟨taken, rfl, htaken⟩ := h
  exact ⟨c :: taken, rfl, hc.append htaken⟩

theorem of_leaves {q : Char → Prop} (h : Leaves q s rest) (hq : ∀ c, q c → Quiet sep p [c]) :
    Passes sep p s rest := by
  obtain ⟨taken, rfl, htaken⟩ := h
  exact ⟨taken, rfl, .of_forall fun c hc => hq c (htaken c hc)⟩

theorem suffix (h : Passes sep p s rest) : rest <:+ s := by
  obtain ⟨taken, rfl, -⟩ := h
  exact List.suffix_append taken rest

end Passes

variable (hsep : IsSeparator sep)
include hsep

theorem passes_space (d : Int) (s : List Char) : Passes sep ⟨d, none⟩ s (skipSpace s) := by
  refine .of_leaves (q := (isSpace ·)) (.dropWhile (fun _ h => h) s) fun c hc => ?_
  simp only [isSpace, Bool.or_eq_true, beq_iff_eq] at hc
  rcases hc with ((rfl | rfl) | rfl) | rfl <;>
    exact .passed ⟨rfl, rfl, rfl⟩ (hsep.ne (by decide)).symm d

theorem passes_number {negative : Bool} {n : Number} (h : Number.read negative s = some (n, rest)) (d : Int) :
    Passes sep ⟨d, none⟩ s rest :=
  .of_leaves (Number.read_leaves h) fun _ hc => quiet_plain hc hsep d

theorem passes_word {word : List Char} {u v : Value} (hword : word.all Number.isPlain)
    (h : (dropWord word s).map (fun r => (u, r)) = some (v, rest)) (d : Int) : Passes sep ⟨d, none⟩ s rest := by
  obtain ⟨r, hr, hp⟩ := Option.map_eq_some_iff.mp h
  cases hp
  exact .of_leaves (.word hr (List.all_eq_true.mp hword)) fun c hc => quiet_plain hc hsep d

theorem passes_string {b : Found (List Char)} (h : readBody s offset = .ok b) (hs : ¬ HasEscapedQuote s)
    (d : Int) : Passes sep ⟨d, none⟩ ('"' :: s) b.rest := by
  obtain ⟨taken, rfl, htaken⟩ := readBody_leaves h hs
  refine ⟨'"' :: (taken ++ ['"']), by simp, .quoted rfl ?_ (hsep.ne (by decide))⟩
  exact fun hmem => htaken '"' hmem rfl

theorem passes_separator {c : Char} (hc : c = ',' ∨ c = ':') (d : Nat) (s : List Char) :
    Passes sep ⟨(d + 1 : Nat), none⟩ (c :: s) s :=
  ⟨[c], rfl, (composed_quiet hsep).separator hc⟩

theorem passes_array {d : Nat} (h : Passes sep ⟨(d + 1 : Nat), none⟩ s (']' :: rest)) :
    Passes sep ⟨d, none⟩ ('[' :: s) rest := by
  obtain ⟨taken, rfl, htaken⟩ := h
  exact ⟨'[' :: (taken ++ [']']), by simp, (composed_quiet hsep).array htaken⟩

theorem passes_object {d : Nat} (h : Passes sep ⟨(d + 1 : Nat), none⟩ s ('\x7d' :: rest)) :
    Passes sep ⟨d, none⟩ ('\x7b' :: s) rest := by
  obtain ⟨taken, rfl, htaken⟩ := h
  exact ⟨'\x7b' :: (taken ++ ['\x7d']), by simp, (composed_quiet hsep).object htaken⟩

omit hsep

/-- With so much fuel, a scan passes the values that are read, and the elements of an array and the fields of an
object up to the bracket that closes them. -/
structure PassesRead (sep : Char) (fuel : Nat) : Prop where
  value : ∀ {depth s v r}, readValue fuel depth s = some (v, r) → ¬ HasEscapedQuote s →
    ∀ d : Nat, Passes sep ⟨d, none⟩ s r
  items : ∀ {depth s items r}, readItems fuel depth s = some (items, r) → ¬ HasEscapedQuote s →
    ∀ d : Nat, Passes sep ⟨(d + 1 : Nat), none⟩ s (']' :: r)
  fields : ∀ {depth s fields r}, readFields fuel depth s = some (fields, r) → ¬ HasEscapedQuote s →
    ∀ d : Nat, Passes sep ⟨(d + 1 : Nat), none⟩ s ('\x7d' :: r)

namespace PassesRead

variable {v : Value} {items : List Value} {fields : List (String × Value)}

theorem escaped_of_passes (hs : ¬ HasEscapedQuote s) (h : Passes sep p s rest) : ¬ HasEscapedQuote rest :=
  fun hrest => hs (hrest.of_suffix h.suffix)

variable (h : PassesRead sep fuel) (hsep : IsSeparator sep)
include h hsep

theorem value_succ (hread : readValue (fuel + 1) depth s = some (v, r)) (hs : ¬ HasEscapedQuote s) (d : Nat) :
    Passes sep ⟨d, none⟩ s r := by
  have hspace := passes_space hsep (d : Int) s
  have hafter := escaped_of_passes hs hspace
  refine hspace.trans ?_
  simp only [readValue] at hread
  split at hread
  · cases hread
  · rename_i c s' hs'
    rw [hs'] at hafter ⊢
    have hs' : ¬ HasEscapedQuote s' := fun hs' => hafter (hs'.of_suffix (List.suffix_cons c s'))
    split at hread
    · rename_i hc
      split at hread
      · rename_i b hb
        cases hread
        rw [hc]
        exact passes_string hsep hb hs' d
      · cases hread
    · split at hread
      · rename_i hc
        rw [hc]
        have hinner := passes_space hsep ((d + 1 : Nat) : Int) s'
        split at hread
        · cases hread
        · split at hread
          · rename_i r' hr'
            cases hread
            exact passes_array hsep (hr' ▸ hinner)
          · obtain ⟨⟨items, r'⟩, hitems, hp⟩ := Option.map_eq_some_iff.mp hread
            cases hp
            exact passes_array hsep (hinner.trans (h.items hitems (escaped_of_passes hs' hinner) d))
      · split at hread
        · rename_i hc
          rw [hc]
          have hinner := passes_space hsep ((d + 1 : Nat) : Int) s'
          split at hread
          · cases hread
          · split at hread
            · rename_i r' hr'
              cases hread
              exact passes_object hsep (hr' ▸ hinner)
            · obtain ⟨⟨fields, r'⟩, hfields, hp⟩ := Option.map_eq_some_iff.mp hread
              cases hp
              exact passes_object hsep (hinner.trans (h.fields hfields (escaped_of_passes hs' hinner) d))
        · split at hread
          · rename_i hc
            obtain ⟨⟨n, r'⟩, hnumber, hp⟩ := Option.map_eq_some_iff.mp hread
            cases hp
            exact (passes_number hsep hnumber d).cons (quiet_plain (hc ▸ rfl) hsep d)
          · split at hread
            · obtain ⟨⟨n, r'⟩, hnumber, hp⟩ := Option.map_eq_some_iff.mp hread
              cases hp
              exact passes_number hsep hnumber d
            · split at hread
              · exact passes_word hsep rfl hread d
              · split at hread
                · exact passes_word hsep rfl hread d
                · split at hread
                  · exact passes_word hsep rfl hread d
                  · cases hread

theorem items_succ (hread : readItems (fuel + 1) depth s = some (items, r)) (hs : ¬ HasEscapedQuote s)
    (d : Nat) : Passes sep ⟨(d + 1 : Nat), none⟩ s (']' :: r) := by
  simp only [readItems] at hread
  split at hread
  · cases hread
  · rename_i v s' hv
    have hvalue := h.value hv hs (d + 1)
    have hspace := hvalue.trans (passes_space hsep _ s')
    split at hread
    · rename_i s'' hs''
      rw [hs''] at hspace
      obtain ⟨⟨items', r'⟩, hitems, hp⟩ := Option.map_eq_some_iff.mp hread
      cases hp
      have hcomma := hspace.trans (passes_separator hsep (.inl rfl) d s'')
      exact hcomma.trans (h.items hitems (escaped_of_passes hs hcomma) d)
    · rename_i s'' hs''
      rw [hs''] at hspace
      cases hread
      exact hspace
    · cases hread

theorem fields_succ (hread : readFields (fuel + 1) depth s = some (fields, r)) (hs : ¬ HasEscapedQuote s)
    (d : Nat) : Passes sep ⟨(d + 1 : Nat), none⟩ s ('\x7d' :: r) := by
  have hspace := passes_space hsep ((d + 1 : Nat) : Int) s
  have hafter := escaped_of_passes hs hspace
  simp only [readFields] at hread
  split at hread
  · rename_i s₁ hs₁
    rw [hs₁] at hspace hafter
    split at hread
    · cases hread
    · rename_i b hb
      have hs₁ : ¬ HasEscapedQuote s₁ := fun hs₁ => hafter (hs₁.of_suffix (List.suffix_cons '"' s₁))
      have hname := (hspace.trans (passes_string hsep hb hs₁ _)).trans (passes_space hsep _ b.rest)
      split at hread
      · rename_i s₂ hs₂
        rw [hs₂] at hname
        have hcolon := hname.trans (passes_separator hsep (.inr rfl) d s₂)
        split at hread
        · cases hread
        · rename_i v s₃ hv
          have hvalue := hcolon.trans (h.value hv (escaped_of_passes hs hcolon) (d + 1))
          have hmore := hvalue.trans (passes_space hsep _ s₃)
          split at hread
          · rename_i s₄ hs₄
            rw [hs₄] at hmore
            obtain ⟨⟨fields', r'⟩, hfields, hp⟩ := Option.map_eq_some_iff.mp hread
            cases hp
            have hcomma := hmore.trans (passes_separator hsep (.inl rfl) d s₄)
            exact hcomma.trans (h.fields hfields (escaped_of_passes hs hcomma) d)
          · rename_i s₄ hs₄
            rw [hs₄] at hmore
            cases hread
            exact hmore
          · cases hread
      · cases hread
  · cases hread

end PassesRead

theorem passesRead (hsep : IsSeparator sep) (fuel : Nat) : PassesRead sep fuel := by
  induction fuel with
  | zero => exact ⟨nofun, nofun, nofun⟩
  | succ fuel ih => exact ⟨ih.value_succ hsep, ih.items_succ hsep, ih.fields_succ hsep⟩

/-- In a text that is read as a value no separator is exposed, unless a double quote is escaped in it. -/
theorem quiet_of_read {v : Value} (hsep : IsSeparator sep) (h : Value.read s = some v)
    (hs : ¬ HasEscapedQuote s) : Quiet sep start s := by
  unfold Value.read at h
  split at h
  · rename_i rest hread
    split at h
    · rename_i hrest
      have hspace := ((passesRead hsep _).value hread hs 0).trans (passes_space hsep _ rest)
      rw [List.isEmpty_iff.mp hrest] at hspace
      obtain ⟨taken, rfl, htaken⟩ := hspace
      rw [List.append_nil]
      exact htaken
    · cases h
  · cases h

end Montage.Scan
