import Montage.Proofs.Config.Shorthands

/-!
Written objects as object literals. Main statement: an object that is read back from what is written of it is
a literal of its fields just if the scans cut the text between the fields and behind their names only, as they
do when no text in the object contains a double quote.
-/

namespace Montage.Expression

open Json Json.Value Scan

variable {f : String × Value} {fields : List (String × Value)} {rest p : List Char}

/-- A field as it is written in an object. -/
def entryText (f : String × Value) : List Char :=
  quotedString f.1 ++ ':' :: f.2.compactChars

/-- The field of a literal that a field of an object is to be. -/
def plainField (f : String × Value) : LiteralField :=
  ⟨f.1, f.2.compact, some f.2⟩

/-- The scan for colons meets none in the name of a field, and is at the top level behind it. -/
structure NameCut (f : String × Value) : Prop where
  hidden : ¬ Exposed ':' start (quotedString f.1)
  ends : start.after (quotedString f.1) = start

/-- The scan for commas meets none in any field, and is at the top level behind each but the last. -/
structure WellCut (fields : List (String × Value)) : Prop where
  names : ∀ f ∈ fields, NameCut f
  hidden : ∀ f ∈ fields, ¬ Exposed ',' start (entryText f)
  ends : ∀ f ∈ fields.dropLast, start.after (entryText f) = start

theorem entryText_eq_cons (f : String × Value) : ∃ t, entryText f = '"' :: t :=
  ⟨_, rfl⟩

/-- What is written behind a field. -/
def moreText : List (String × Value) → List Char
  | [] => []
  | f :: fields => ',' :: compactFields (f :: fields)

theorem compactFields_cons (f : String × Value) (fields : List (String × Value)) :
    compactFields (f :: fields) = entryText f ++ moreText fields := by
  cases fields with
  | nil => simp [compactFields, compactMoreFields, entryText, moreText]
  | cons g fields => simp [compactFields, compactMoreFields, entryText, moreText]

/-! Reading the entries of a well cut object. -/

theorem trim_quotedString (s : String) : Text.trim (quotedString s) = quotedString s :=
  trim_compactChars (.str s)

theorem trim_entryText (f : String × Value) : Text.trim (entryText f) = entryText f := by
  refine Text.trim_of_ends ?_ ?_
  · rintro c ⟨⟩
    rfl
  · obtain ⟨c, s, hv, -⟩ := f.2.compactChars_opens
    have hlast := isBlank_last f.2
    rw [hv] at hlast
    rw [entryText, hv]
    simpa [List.getLast?_append] using hlast

/-- A name in double quotes is read as a string. -/
theorem readKey_eq_ok {s : List Char} {k : String} :
    readKey ('"' :: s) = .ok k ↔ readString ('"' :: s) = .ok k.toList := by
  have hquoted : singleQuoted? ('"' :: s) = none := rfl
  simp only [readKey, hquoted, List.head?_cons, ↓reduceIte]
  cases readString ('"' :: s) with
  | error e => simp
  | ok t =>
    simp only [Except.ok.injEq]
    exact ⟨fun h => by rw [← h, String.toList_ofList], fun h => by rw [h, String.ofList_toList]⟩

theorem literal?_compactChars {v : Value} (h : Value.read v.compactChars = some v) :
    literal? v.compactChars = some v := by
  rw [literal?, singleQuoted?_compactChars]
  exact h

theorem readEntry_entryText (h : Value.read f.2.compactChars = some f.2) (hname : NameCut f) :
    readEntry (entryText f) = .ok (plainField f) := by
  have hcut : cut ':' (entryText f) = some (quotedString f.1, f.2.compactChars) :=
    cutFrom_eq_some.mpr ⟨rfl, hname.hidden, hname.ends⟩
  have hsource : f.2.compactChars.isEmpty = false := by
    obtain ⟨c, s, hv, -⟩ := f.2.compactChars_opens
    rw [hv]
    rfl
  have hkey : readKey (quotedString f.1) = .ok f.1 := readKey_eq_ok.mpr (readString_quoted f.1.toList)
  simp only [readEntry, hcut, trim_quotedString, hkey, trim_compactChars, hsource, literal?_compactChars h]
  rfl

theorem readEntries_eq_ok {e : List Char} {es : List (List Char)} {x : LiteralField}
    {xs : List LiteralField} (he : Text.trim e ≠ []) : readEntries (e :: es) = .ok (x :: xs) ↔
      readEntry (Text.trim e) = .ok x ∧ readEntries es = .ok xs := by
  simp [readEntries_cons he]

theorem trim_ne_nil (s : List Char) : Text.trim ('"' :: s) ≠ [] := by
  rw [Text.trim_cons rfl]
  exact List.cons_ne_nil _ _

theorem readEntries_of_wellCut (h : ∀ f ∈ fields, Value.read f.2.compactChars = some f.2)
    (hcut : WellCut fields) :
    readEntries (split ',' (compactFields fields)) = .ok (fields.map plainField) := by
  induction fields with
  | nil => rfl
  | cons f fields ih =>
    obtain ⟨hf, hfields⟩ := List.forall_mem_cons.mp h
    have hentry : readEntry (Text.trim (entryText f)) = .ok (plainField f) := by
      rw [trim_entryText]
      exact readEntry_entryText hf (hcut.names f List.mem_cons_self)
    have hhidden := hcut.hidden f List.mem_cons_self
    cases fields with
    | nil =>
      rw [compactFields_cons, moreText, List.append_nil, split_of_not_exposed hhidden]
      exact (readEntries_eq_ok (trim_ne_nil _)).mpr ⟨hentry, rfl⟩
    | cons g fields =>
      have hmore : WellCut (g :: fields) :=
        ⟨fun f hf => hcut.names f (List.mem_cons_of_mem _ hf),
          fun f hf => hcut.hidden f (List.mem_cons_of_mem _ hf),
          fun f hf => hcut.ends f (List.mem_cons_of_mem _ hf)⟩
      rw [compactFields_cons, moreText, split_append hhidden (hcut.ends f List.mem_cons_self)]
      exact (readEntries_eq_ok (trim_ne_nil _)).mpr ⟨hentry, ih hfields hmore⟩

/-! Only a well cut object is read so. -/

/-- How an entry that gives a field with a value of its own is cut. -/
theorem cut_of_readEntry {e : List Char} (h : readEntry (Text.trim e) = .ok (plainField f)) :
    ∃ key value, cut ':' (Text.trim e) = some (key, value) ∧ readKey (Text.trim key) = .ok f.1 ∧
      Text.trim value = f.2.compactChars := by
  generalize hg : plainField f = g at h
  cases gives_some.mpr h with
  | alone => simp [plainField] at hg
  | @pair name value key htext hhidden htop hkey =>
    obtain ⟨rfl, hsource, -⟩ := (LiteralField.mk.injEq ..).mp hg
    exact ⟨name, value, cutFrom_eq_some.mpr ⟨htext, hhidden, htop⟩, hkey, (String.ofList_injective hsource).symm⟩

/-- Of a text that begins with a name and a colon, what is read as the name is the name. -/
theorem eq_quotedString_of_readKey {k : String} {key : List Char} (hne : key ≠ [])
    (hp : key <+: quotedString k ++ ':' :: rest) (h : readKey (Text.trim key) = .ok k) :
    key = quotedString k := by
  cases key with
  | nil => exact absurd rfl hne
  | cons c key =>
    obtain ⟨rfl, -⟩ := List.cons_prefix_cons.mp hp
    have hprefix := (Text.trim_prefix (c := '"') rfl key).trans hp
    have hcolon : ∀ c ∈ (':' :: rest).head?, Text.isBlank c = false := by
      rintro c ⟨⟩
      rfl
    have hspace : ∀ c ∈ (':' :: rest).head?, isSpace c = false := by
      rintro c ⟨⟩
      rfl
    rw [Text.trim_cons (c := '"') rfl] at h hprefix
    have hquoted := (eq_quoted_of_readString hprefix hspace (readKey_eq_ok.mp h)).1
    refine Text.eq_of_trim ⟨'"', _, rfl, rfl⟩ hcolon hp ?_
    rw [Text.trim_cons (c := '"') rfl, hquoted, quotedString]

/-- Of a text that begins with a field, an entry that is read as the field is the field. -/
theorem eq_entryText_of_readEntry (hrest : ∀ c ∈ rest.head?, Text.isBlank c = false)
    (hp : '"' :: p <+: entryText f ++ rest)
    (h : readEntry (Text.trim ('"' :: p)) = .ok (plainField f)) :
    '"' :: p = entryText f ∧ NameCut f := by
  obtain ⟨key, value, hcut, hkey, hvalue⟩ := cut_of_readEntry h
  obtain ⟨hentry, hhidden, htop⟩ := cutFrom_eq_some.mp hcut
  have htext : entryText f ++ rest = quotedString f.1 ++ ':' :: (f.2.compactChars ++ rest) := by
    simp [entryText]
  have hprefix : key ++ ':' :: value <+: quotedString f.1 ++ ':' :: (f.2.compactChars ++ rest) := by
    rw [← hentry, ← htext]
    exact (Text.trim_prefix rfl p).trans hp
  have hkeyprefix := (List.prefix_append key (':' :: value)).trans hprefix
  have hne : key ≠ [] := by
    rintro rfl
    rw [Text.trim_cons (c := '"') rfl] at hentry
    cases hentry
  have hname : key = quotedString f.1 := eq_quotedString_of_readKey hne hkeyprefix hkey
  subst hname
  rw [List.prefix_append_right_inj, List.cons_prefix_cons] at hprefix
  have hcompact : value = f.2.compactChars := by
    refine Text.eq_of_trim ?_ hrest hprefix.2 hvalue
    obtain ⟨c, s, hv, hc⟩ := f.2.compactChars_opens
    exact ⟨c, s, hv, isBlank_of_opens hc⟩
  subst hcompact
  exact ⟨Text.eq_of_trim ⟨'"', _, rfl, rfl⟩ hrest hp hentry, hhidden, htop⟩

theorem isBlank_moreText (fields : List (String × Value)) :
    ∀ c ∈ (moreText fields).head?, Text.isBlank c = false := by
  cases fields with
  | nil => exact nofun
  | cons f fields =>
    rintro c ⟨⟩
    rfl

theorem wellCut_of_readEntries
    (h : readEntries (split ',' (compactFields fields)) = .ok (fields.map plainField)) :
    WellCut fields := by
  induction fields with
  | nil => exact ⟨List.forall_mem_nil _, List.forall_mem_nil _, List.forall_mem_nil _⟩
  | cons f fields ih =>
    have hblank := isBlank_moreText fields
    obtain ⟨t, ht⟩ := entryText_eq_cons f
    rw [compactFields_cons, split, splitFrom_eq] at h
    cases hcut : cutFrom ',' start (entryText f ++ moreText fields) with
    | none =>
      have hhidden := cutFrom_eq_none.mp hcut
      rw [hcut, ht, List.cons_append] at h
      obtain ⟨hentry, hnil⟩ := (readEntries_eq_ok (trim_ne_nil _)).mp h
      have hnone : fields = [] := by simpa [readEntries] using hnil.symm
      subst hnone
      have hp : '"' :: (t ++ moreText []) <+: entryText f ++ moreText [] := by
        rw [ht, List.cons_append]
      have hname := (eq_entryText_of_readEntry hblank hp hentry).2
      rw [moreText, List.append_nil] at hhidden
      exact ⟨by simpa using hname, by simpa using hhidden, List.forall_mem_nil _⟩
    | some q =>
      obtain ⟨a, b⟩ := q
      obtain ⟨htext, hhidden, htop⟩ := cutFrom_eq_some.mp hcut
      rw [hcut] at h
      cases a with
      | nil =>
        rw [ht] at htext
        cases htext
      | cons c a =>
        rw [ht] at htext
        obtain ⟨rfl, -⟩ := List.cons_eq_cons.mp htext
        rw [← ht] at htext
        obtain ⟨hentry, hmore⟩ := (readEntries_eq_ok (trim_ne_nil _)).mp h
        have hp : '"' :: a <+: entryText f ++ moreText fields := ⟨',' :: b, htext.symm⟩
        obtain ⟨ha, hname⟩ := eq_entryText_of_readEntry hblank hp hentry
        rw [ha] at htext hhidden htop
        have hrest : moreText fields = ',' :: b := List.append_cancel_left htext
        cases fields with
        | nil => cases hrest
        | cons g fields =>
          obtain ⟨-, rfl⟩ := List.cons_eq_cons.mp hrest
          obtain ⟨hnames, hentries, hends⟩ := ih hmore
          exact ⟨List.forall_mem_cons.mpr ⟨hname, hnames⟩, List.forall_mem_cons.mpr ⟨hhidden, hentries⟩,
            List.forall_mem_cons.mpr ⟨htop, hends⟩⟩

/-! Objects as literals. -/

theorem parseLiteral_compactChars (fields : List (String × Value)) :
    parseLiteral (Value.obj fields).compactChars = readEntries (split ',' (compactFields fields)) := by
  have hbraced : braced? (Value.obj fields).compactChars = some (compactFields fields) := by
    simp [compactChars, braced?]
  simp only [parseLiteral, trim_compactChars, hbraced]

theorem wellCut_of_texts (h : TextsAre (fun s => '"' ∉ s.toList) (Value.obj fields).atoms) :
    WellCut fields := by
  have hname : ∀ f ∈ fields, '"' ∉ f.1.toList := fun f hf => h f.1 (text_mem_atoms hf)
  have hvalue : ∀ f ∈ fields, Quiet ',' start f.2.compactChars := fun f hf =>
    quiet_compactChars (.inl rfl) fun s hs => h s (atoms_field hf hs)
  have hentry : ∀ f ∈ fields, Quiet ',' start (entryText f) := fun f hf =>
    have hcolon : Quiet ',' start [':'] := .passed ⟨rfl, rfl, rfl⟩ (by decide) 0
    (quiet_quotedString (hname f hf) (.inl rfl) 0).append (hcolon.append (hvalue f hf))
  refine ⟨fun f hf => ?_, fun f hf => (hentry f hf).hidden,
    fun f hf => (hentry f (List.mem_of_mem_dropLast hf)).back⟩
  obtain ⟨hhidden, hback⟩ := quiet_quotedString (hname f hf) (.inr (.inl rfl)) 0
  exact ⟨hhidden, hback⟩

/-- A name that a shorthand may begin with. -/
structure IsName (name : List Char) : Prop where
  nonempty : name ≠ []
  chars : ∀ c ∈ name, Text.isBlank c = false ∧ c ≠ ':' ∧ c ≠ '\x7b'

theorem IsName.heads {name : List Char} (h : IsName name) : Shorthand.Heads name :=
  ⟨h.nonempty, fun c hc => (h.chars c hc).1, fun c hc => (h.chars c (List.mem_of_mem_tail hc)).2⟩

theorem read_shorthand {F : Type} {name : List Char} {fs : List LiteralField} (hname : IsName name)
    (h : parseLiteral (Value.obj fields).compactChars = .ok fs) :
    (Shorthand.read engine (String.ofList (name ++ (Value.obj fields).compactChars)) : Config F) =
      Shorthand.addFields (String.ofList (name ++ (Value.obj fields).compactChars))
        (Config.ofView (String.ofList name)) fs :=
  hname.heads.read_fields (by simp) ((engine_parseLiteral _).trans h)

/-- An object that is read back from what is written of it is a literal of its fields, each with what is
written of its value as its source, just if the scans cut it well; and then a shorthand of a name and the
object has these fields. The scans cut it well if no text in it contains a double quote. -/
theorem parseLiteral_compact_iff {F : Type}
    (h : Value.read (Value.obj fields).compactChars = some (.obj fields)) :
    (parseLiteral (Value.obj fields).compactChars = .ok (fields.map plainField) ↔ WellCut fields) ∧
      (WellCut fields → ∀ name, IsName name →
        (Shorthand.read engine (String.ofList (name ++ (Value.obj fields).compactChars)) : Config F) =
          Shorthand.addFields (String.ofList (name ++ (Value.obj fields).compactChars))
            (Config.ofView (String.ofList name)) (fields.map plainField)) ∧
      (TextsAre (fun s => '"' ∉ s.toList) (Value.obj fields).atoms → WellCut fields) := by
  have hiff : parseLiteral (Value.obj fields).compactChars = .ok (fields.map plainField) ↔
      WellCut fields := by
    rw [parseLiteral_compactChars]
    exact ⟨wellCut_of_readEntries, readEntries_of_wellCut (read_field h)⟩
  exact ⟨hiff, fun hcut name hname => read_shorthand hname (hiff.mpr hcut), wellCut_of_texts⟩

/-- The scan for commas takes an escaped quote for the end of the text that it stands in. -/
theorem parseLiteral_of_escaped_quote :
    let fields := [("k", Value.str "a\",b")]
    Value.read (Value.obj fields).compactChars = some (.obj fields) ∧
      parseLiteral (Value.obj fields).compactChars ≠ .ok (fields.map plainField) := by
  intro fields
  have h : Value.read (Value.obj fields).compactChars = some (.obj fields) := by
    rw [read_compactChars]
    rfl
  have hexposed : Exposed ',' start (entryText ("k", .str "a\",b")) :=
    ⟨['"', 'k', '"', ':', '"', 'a', '\\', '"'], ['b', '"'], rfl, rfl⟩
  refine ⟨h, fun hparse => ?_⟩
  exact ((parseLiteral_compact_iff (F := Empty) h).1.mp hparse).hidden _ List.mem_cons_self hexposed

end Montage.Expression
