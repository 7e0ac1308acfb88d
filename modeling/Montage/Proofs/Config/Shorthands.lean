import Montage.Proofs.Config.Rereading
import Montage.Proofs.Query.Entries

/-!
Shorthands as they are written. Main statement: a name with a query behind a colon stands for the config of that
name and query, and a name with written fields in braces for the config that takes the last of them under each key.
-/

namespace Montage

open Json (Value)
open Scan (Exposed Pieces Quiet start)

namespace Shorthand

variable {F : Type} {name rest whole : List Char} {sep : Char}

/-! Names at the head of a shorthand. -/

/-- A name that a shorthand may begin with: without blanks, and without separators behind its first character. -/
structure Heads (name : List Char) : Prop where
  nonempty : name ≠ []
  dense : ∀ c ∈ name, Text.isBlank c = false
  plain : ∀ c ∈ name.tail, c ≠ ':' ∧ c ≠ '\x7b'

theorem partsFrom_name {seen : List Char} (hsep : sep = ':' ∨ sep = '\x7b') (hseen : seen ≠ [])
    (hdense : ∀ c ∈ name, Text.isBlank c = false) (hplain : ∀ c ∈ name, c ≠ ':' ∧ c ≠ '\x7b') (hrest : rest ≠ []) :
    partsFrom seen (name ++ sep :: rest) = some ⟨seen.reverse ++ name, sep, rest⟩ := by
  induction name generalizing seen with
  | nil =>
    have hblank : Text.isBlank sep = false := by rcases hsep with rfl | rfl <;> rfl
    simp [partsFrom, hblank, hsep, hseen, hrest]
  | cons c name ih =>
    obtain ⟨hblank, hdense⟩ := List.forall_mem_cons.mp hdense
    obtain ⟨⟨hcolon, hbrace⟩, hplain⟩ := List.forall_mem_cons.mp hplain
    simp [partsFrom, hblank, hcolon, hbrace, ih (List.cons_ne_nil c seen) hdense hplain]

/-- A shorthand is cut behind its name. -/
theorem Heads.parts (h : Heads name) (hsep : sep = ':' ∨ sep = '\x7b') (hrest : rest ≠ []) :
    parts? (name ++ sep :: rest) = some ⟨name, sep, rest⟩ := by
  obtain ⟨hne, hdense, hplain⟩ := h
  cases name with
  | nil => exact absurd rfl hne
  | cons c name =>
    obtain ⟨hblank, hdense⟩ := List.forall_mem_cons.mp hdense
    have hname : partsFrom [c] (name ++ sep :: rest) = some ⟨[c] ++ name, sep, rest⟩ :=
      partsFrom_name hsep (List.cons_ne_nil c []) hdense hplain hrest
    simpa [parts?, partsFrom, hblank] using hname

theorem Heads.read_query {q : List Char} (h : Heads name) (hq : q ≠ []) (engine : Engine) :
    (read engine (String.ofList (name ++ ':' :: q)) : Config F) =
      { Config.ofView (String.ofList name) with data := some (.text (String.ofList q)) } := by
  unfold read
  rw [String.toList_ofList, h.parts (.inl rfl) hq]
  simp

theorem Heads.read_malformed {engine : Engine} {error : Error} (h : Heads name) (hrest : rest ≠ [])
    (hparse : engine.parseLiteral (String.ofList ('\x7b' :: rest)) = .error error) :
    (read engine (String.ofList (name ++ '\x7b' :: rest)) : Config F) =
      Config.ofFailure (.config ("bad config literal: " ++ error.message))
        (.str (String.ofList (name ++ '\x7b' :: rest))) := by
  unfold read
  rw [String.toList_ofList, h.parts (.inr rfl) hrest]
  simp only [hparse, Char.reduceBEq, Bool.false_eq_true, ↓reduceIte]

theorem Heads.read_fields {engine : Engine} {fs : List LiteralField} (h : Heads name) (hrest : rest ≠ [])
    (hparse : engine.parseLiteral (String.ofList ('\x7b' :: rest)) = .ok fs) :
    (read engine (String.ofList (name ++ '\x7b' :: rest)) : Config F) =
      addFields (String.ofList (name ++ '\x7b' :: rest)) (Config.ofView (String.ofList name)) fs := by
  unfold read
  rw [String.toList_ofList, h.parts (.inr rfl) hrest]
  simp only [hparse, Char.reduceBEq, Bool.false_eq_true, ↓reduceIte]

/-! Fields taken over. -/

/-- A field that a shorthand must not give. -/
def IsForbidden (key : String) : Prop :=
  key = "view" ∨ key = "postRender"

instance : DecidablePred IsForbidden :=
  fun _ => inferInstanceAs (Decidable (_ ∨ _))

/-- The config with one more field taken over. -/
def put (c : Config F) (f : LiteralField) : Config F :=
  if f.key = "when" then { c with when := some (fieldQuery f) }
  else if f.key = "data" then { c with data := some (fieldQuery f) }
  else if f.key = "whenData" then { c with whenData := some (fieldQuery f) }
  else if f.key = "className" then { c with className := some (fieldProp f) }
  else c.withProp f.key (fieldProp f)

theorem addFields_forbidden {fs : List LiteralField} (h : ∃ f ∈ fs, IsForbidden f.key) (whole : String)
    (c : Config F) : ∃ key, IsForbidden key ∧ addFields whole c fs =
      Config.ofFailure (.config ("`" ++ key ++ "` is not allowed in a config literal")) (.str whole) := by
  induction fs generalizing c with
  | nil => simp at h
  | cons f fs ih =>
    unfold addFields
    split
    · rename_i hkey
      exact ⟨f.key, by simpa [IsForbidden] using hkey, rfl⟩
    · rename_i hkey
      have hfs : ∃ f ∈ fs, IsForbidden f.key := by
        obtain ⟨g, hg, hforbidden⟩ := h
        rcases List.mem_cons.mp hg with rfl | hg
        · exact absurd (by simpa [IsForbidden] using hforbidden) hkey
        · exact ⟨g, hg, hforbidden⟩
      split_ifs <;> exact ih hfs _

theorem addFields_eq_foldl {fs : List LiteralField} (h : ∀ f ∈ fs, ¬ IsForbidden f.key) (whole : String)
    (c : Config F) : addFields whole c fs = fs.foldl put c := by
  induction fs generalizing c with
  | nil => rfl
  | cons f fs ih =>
    obtain ⟨hf, hfs⟩ := List.forall_mem_cons.mp h
    have hkey : ¬ (f.key = "view" ∨ f.key = "postRender") := hf
    simp only [addFields, hkey, List.foldl_cons, put, Bool.or_eq_true, decide_eq_true_eq, ↓reduceIte]
    split_ifs <;> exact ih hfs _

/-- The last field of a key. -/
def lastField (fs : List LiteralField) (key : String) : Option LiteralField :=
  (fs.filter fun f => f.key = key).getLast?

theorem lastField_single (f : LiteralField) (key : String) :
    lastField [f] key = if f.key = key then some f else none := by
  unfold lastField
  rw [List.filter_singleton]
  by_cases hkey : f.key = key <;> simp [hkey]

theorem lastField_cons (f : LiteralField) (fs : List LiteralField) (key : String) :
    lastField (f :: fs) key = (lastField fs key).or (lastField [f] key) := by
  unfold lastField
  rw [← List.singleton_append, List.filter_append, List.getLast?_append]

/-- A config that takes the last field of each key over another: queries for the keys of queries, the class names,
and props for keys that are not reserved. -/
structure TakesOver (fs : List LiteralField) (c c' : Config F) : Prop where
  view : c'.view = c.view
  when : c'.when = ((lastField fs "when").map fieldQuery).or c.when
  data : c'.data = ((lastField fs "data").map fieldQuery).or c.data
  whenData : c'.whenData = ((lastField fs "whenData").map fieldQuery).or c.whenData
  postRender : c'.postRender = c.postRender
  className : c'.className = ((lastField fs "className").map fieldProp).or c.className
  sorted : Fields.Sorted c.props → Fields.Sorted c'.props
  reserved : ∀ key ∈ reservedNames, Fields.get? c'.props key = Fields.get? c.props key
  props : ∀ key ∉ reservedNames,
    Fields.get? c'.props key = ((lastField fs key).map fieldProp).or (Fields.get? c.props key)

namespace TakesOver

variable {f : LiteralField} {fs : List LiteralField} {c c' c'' : Config F}

theorem refl (c : Config F) : TakesOver [] c c :=
  ⟨rfl, rfl, rfl, rfl, rfl, rfl, id, fun _ _ => rfl, fun _ _ => rfl⟩

theorem cons (h : TakesOver [f] c c') (h' : TakesOver fs c' c'') : TakesOver (f :: fs) c c'' where
  view := h'.view.trans h.view
  when := by rw [h'.when, h.when, lastField_cons f fs, Option.map_or, Option.or_assoc]
  data := by rw [h'.data, h.data, lastField_cons f fs, Option.map_or, Option.or_assoc]
  whenData := by rw [h'.whenData, h.whenData, lastField_cons f fs, Option.map_or, Option.or_assoc]
  postRender := h'.postRender.trans h.postRender
  className := by rw [h'.className, h.className, lastField_cons f fs, Option.map_or, Option.or_assoc]
  sorted := h'.sorted ∘ h.sorted
  reserved key hkey := (h'.reserved key hkey).trans (h.reserved key hkey)
  props key hkey := by rw [h'.props key hkey, h.props key hkey, lastField_cons f fs, Option.map_or, Option.or_assoc]

end TakesOver

theorem takesOver_put (c : Config F) {f : LiteralField} (hf : ¬ IsForbidden f.key) : TakesOver [f] c (put c f) := by
  have hprops : f.key ∈ reservedNames → ∀ key ∉ reservedNames,
      Fields.get? c.props key = ((lastField [f] key).map fieldProp).or (Fields.get? c.props key) := by
    intro hreserved key hkey
    have hne : f.key ≠ key := fun he => hkey (he ▸ hreserved)
    simp [lastField_single, hne]
  unfold put
  split_ifs with hwhen hdata hwhenData hclass
  · refine ⟨rfl, ?_, ?_, ?_, rfl, ?_, id, fun _ _ => rfl, hprops ?_⟩ <;> simp [lastField_single, hwhen, reservedNames]
  · refine ⟨rfl, ?_, ?_, ?_, rfl, ?_, id, fun _ _ => rfl, hprops ?_⟩ <;> simp [lastField_single, hdata, reservedNames]
  · refine ⟨rfl, ?_, ?_, ?_, rfl, ?_, id, fun _ _ => rfl, hprops ?_⟩ <;>
      simp [lastField_single, hwhenData, reservedNames]
  · refine ⟨rfl, ?_, ?_, ?_, rfl, ?_, id, fun _ _ => rfl, hprops ?_⟩ <;> simp [lastField_single, hclass, reservedNames]
  · have hfree : f.key ∉ reservedNames := by
      simp only [IsForbidden, not_or] at hf
      simp [reservedNames, hf, hwhen, hdata, hwhenData, hclass]
    refine ⟨rfl, ?_, ?_, ?_, rfl, ?_, fun h => Fields.sorted_insert h _ _, fun key hkey => ?_, fun key _ => ?_⟩
    · simp [lastField_single, hwhen, Config.withProp]
    · simp [lastField_single, hdata, Config.withProp]
    · simp [lastField_single, hwhenData, Config.withProp]
    · simp [lastField_single, hclass, Config.withProp]
    · have hne : key ≠ f.key := fun he => hfree (he ▸ hkey)
      simp [Config.withProp, Fields.get?_insert, hne]
    · rw [Config.withProp, Fields.get?_insert, lastField_single]
      by_cases he : key = f.key
      · simp [he]
      · simp [he, Ne.symm he]

theorem takesOver_foldl {fs : List LiteralField} (h : ∀ f ∈ fs, ¬ IsForbidden f.key) (c : Config F) :
    TakesOver fs c (fs.foldl put c) := by
  induction fs generalizing c with
  | nil => exact .refl c
  | cons f fs ih =>
    obtain ⟨hf, hfs⟩ := List.forall_mem_cons.mp h
    exact (takesOver_put c hf).cons (ih hfs _)

/-! Written fields. -/

open Expression

/-- A key and the source of its value. -/
abbrev Source := List Char × List Char

/-- A key that is an identifier, and a source that is not empty, trimmed and ends at the top level, with no comma
exposed in it. -/
structure IsWritten (f : Source) : Prop where
  key : isIdentifier f.1
  nonempty : f.2 ≠ []
  trimmed : Text.trim f.2 = f.2
  hidden : ¬ Exposed ',' start f.2
  ends : start.after f.2 = start

def fieldText (f : Source) : List Char :=
  f.1 ++ ':' :: ' ' :: f.2

/-- Fields in braces, with a comma and a blank between them. -/
def literalText (fs : List Source) : List Char :=
  '\x7b' :: (List.intercalate [',', ' '] (fs.map fieldText) ++ ['\x7d'])

/-- The field that is read where one is written. -/
def readField (f : Source) : LiteralField :=
  ⟨String.ofList f.1, String.ofList f.2, literal? f.2⟩

variable {f : Source} {fs : List Source}

theorem IsWritten.quiet (h : IsWritten f) : Quiet ',' start (fieldText f) := by
  have hkey : Quiet ',' start f.1 := quiet_identifier h.key (.inl rfl) 0
  have hcolon : Quiet ',' start [':'] := .passed ⟨rfl, rfl, rfl⟩ (by decide) 0
  have hblank : Quiet ',' start [' '] := .passed ⟨rfl, rfl, rfl⟩ (by decide) 0
  exact hkey.append (hcolon.append (hblank.append ⟨h.hidden, h.ends⟩))

theorem IsWritten.trim (h : IsWritten f) : Text.trim (fieldText f) = fieldText f := by
  obtain ⟨c, key, hkey⟩ := List.exists_cons_of_ne_nil (ne_nil_of_identifier h.key)
  have hc : Text.isBlank c = false := isBlank_of_mem_identifier h.key (hkey ▸ List.mem_cons_self)
  refine Text.trim_of_ends ?_ ?_
  · simpa [fieldText, hkey] using hc
  · have hlast := Text.isBlank_last_trim f.2
    rw [h.trimmed] at hlast
    obtain ⟨d, source, hsource⟩ := List.exists_cons_of_ne_nil h.nonempty
    rw [hsource] at hlast
    simpa [fieldText, hsource, List.getLast?_append] using hlast

theorem IsWritten.gives {piece : List Char} (h : IsWritten f) (hpiece : Text.trim piece = fieldText f) :
    Gives piece (some (readField f)) := by
  have hkey : Quiet ':' start f.1 := quiet_identifier h.key (.inr (.inl rfl)) 0
  have hsource : Text.trim (' ' :: f.2) = f.2 := by
    rw [Text.trim_cons_blank rfl]
    exact h.trimmed
  have hnamed : readKey (Text.trim f.1) = .ok (String.ofList f.1) := by
    rw [trim_identifier h.key]
    exact readKey_identifier h.key
  have hfilled : Text.trim (' ' :: f.2) ≠ [] := by
    rw [hsource]
    exact h.nonempty
  have hgives := Gives.pair hpiece hkey.hidden hkey.back hnamed hfilled
  rwa [hsource] at hgives

/-! Written lists of fields. -/

/-- A blank behind each separator belongs to the piece that follows. -/
theorem intercalate_blank (p : List Char) (ps : List (List Char)) :
    List.intercalate [',', ' '] (p :: ps) = List.intercalate [','] (p :: ps.map (' ' :: ·)) := by
  induction ps generalizing p with
  | nil => rfl
  | cons q ps ih =>
    have hblank : ∀ qs : List (List Char),
        List.intercalate [','] ((' ' :: q) :: qs) = ' ' :: List.intercalate [','] (q :: qs) := by
      intro qs
      cases qs <;> simp
    rw [List.intercalate_cons_cons, ih q, List.map_cons, List.intercalate_cons_cons, hblank]
    simp

/-- What is written is read as the fields that are written. -/
theorem parseLiteral_written (h : ∀ f ∈ fs, IsWritten f) :
    parseLiteral (literalText fs) = .ok (fs.map readField) := by
  have htrim : Text.trim (literalText fs) = literalText fs := by
    refine Text.trim_of_ends (by simp [literalText, Text.isBlank]) ?_
    rw [literalText, ← List.cons_append, List.getLast?_concat]
    rintro c ⟨⟩
    rfl
  refine parseLiteral_iff.mpr ?_
  cases fs with
  | nil =>
    have hblank : Pieces ',' [] [[]] := .single Scan.not_exposed_nil
    exact ⟨[[]], [none], ⟨htrim, by simpa using hblank, .cons (.blank rfl) .nil⟩, rfl⟩
  | cons f fs =>
    obtain ⟨hf, hfs⟩ := List.forall_mem_cons.mp h
    have htext : literalText (f :: fs) =
        '\x7b' :: (List.intercalate [','] (fieldText f :: fs.map (' ' :: fieldText ·)) ++ ['\x7d']) := by
      rw [literalText, List.map_cons, intercalate_blank, List.map_map]
      rfl
    have hpieces : ∀ p ∈ fieldText f :: fs.map (' ' :: fieldText ·), Quiet ',' start p := by
      refine List.forall_mem_cons.mpr ⟨hf.quiet, List.forall_mem_map.mpr fun g hg => ?_⟩
      have hblank : Quiet ',' start [' '] := .passed ⟨rfl, rfl, rfl⟩ (by decide) 0
      exact hblank.append (hfs g hg).quiet
    have hgives : List.Forall₂ Gives (fieldText f :: fs.map (' ' :: fieldText ·))
        (some (readField f) :: fs.map (some ∘ readField)) := by
      refine .cons (hf.gives hf.trim) ?_
      rw [List.forall₂_map_left_iff, List.forall₂_map_right_iff, List.forall₂_same]
      intro g hg
      refine (hfs g hg).gives ?_
      rw [Text.trim_cons_blank rfl, (hfs g hg).trim]
    refine ⟨_, _, ⟨htrim.trans htext, .of_quiet (List.cons_ne_nil _ _) hpieces, hgives⟩, ?_⟩
    simp [List.reduceOption]

/-! What a written shorthand stands for. -/

/-- The source that is written last under a key. -/
def lastSource (fs : List Source) (key : String) : Option (List Char) :=
  ((fs.filter fun f => String.ofList f.1 = key).getLast?).map Prod.snd

/-- A query holds a plain value other than a text, and else the source. -/
def heldQuery (source : List Char) : Query F :=
  match literal? source with
  | none => .text (String.ofList source)
  | some (.str _) => .text (String.ofList source)
  | some v => .value v

/-- A prop holds a plain value, and else the source behind an equality sign. -/
def heldProp (source : List Char) : PropValue F :=
  .json ((literal? source).getD (.str (String.ofList ('=' :: source))))

/-- A config that holds what is written last under each key. -/
structure Holds (name : List Char) (fs : List Source) (c : Config F) : Prop where
  view : c.view = some (.named (String.ofList name))
  when : c.when = (lastSource fs "when").map heldQuery
  data : c.data = (lastSource fs "data").map heldQuery
  whenData : c.whenData = (lastSource fs "whenData").map heldQuery
  postRender : c.postRender = none
  className : c.className = (lastSource fs "className").map heldProp
  sorted : Fields.Sorted c.props
  props : ∀ key, Fields.get? c.props key =
    if key ∈ reservedNames then none else (lastSource fs key).map heldProp

theorem fieldQuery_readField (f : Source) : (fieldQuery (readField f) : Query F) = heldQuery f.2 := by
  unfold fieldQuery heldQuery readField
  cases literal? f.2 with
  | none => rfl
  | some v => cases v <;> rfl

theorem fieldProp_readField (f : Source) : (fieldProp (readField f) : PropValue F) = heldProp f.2 := by
  unfold fieldProp heldProp readField
  cases literal? f.2 with
  | none => simp
  | some v => rfl

theorem lastField_readField (fs : List Source) (key : String) :
    lastField (fs.map readField) key = ((fs.filter fun f => String.ofList f.1 = key).getLast?).map readField := by
  rw [lastField, List.filter_map, List.getLast?_map]
  rfl

theorem TakesOver.holds {c : Config F}
    (h : TakesOver (fs.map readField) (Config.ofView (String.ofList name)) c) : Holds name fs c := by
  have hqueries : ∀ key, (lastField (fs.map readField) key).map (fieldQuery (F := F)) =
      (lastSource fs key).map heldQuery := by
    intro key
    rw [lastField_readField, lastSource, Option.map_map, Option.map_map]
    exact congrArg (Option.map · _) (funext fieldQuery_readField)
  have hprops : ∀ key, (lastField (fs.map readField) key).map (fieldProp (F := F)) =
      (lastSource fs key).map heldProp := by
    intro key
    rw [lastField_readField, lastSource, Option.map_map, Option.map_map]
    exact congrArg (Option.map · _) (funext fieldProp_readField)
  obtain ⟨hview, hwhen, hdata, hwhenData, hpost, hclass, hsorted, hreserved, hfree⟩ := h
  refine ⟨hview, ?_, ?_, ?_, hpost, ?_, hsorted List.Pairwise.nil, fun key => ?_⟩
  · rw [hwhen, hqueries]
    exact Option.or_none
  · rw [hdata, hqueries]
    exact Option.or_none
  · rw [hwhenData, hqueries]
    exact Option.or_none
  · rw [hclass, hprops]
    exact Option.or_none
  · split
    · rename_i hkey
      exact hreserved key hkey
    · rename_i hkey
      rw [hfree key hkey, hprops]
      exact Option.or_none

/-- A name with a query behind a colon stands for the config of the name and the query. A name with written fields
in braces stands for a failure that gives the whole back, if one of the fields is a view or something to do after
rendering, and else for the config of the name that holds what is written last under each key. -/
theorem normalize_written (hname : Heads name) :
    (∀ q, q ≠ [] → (RawConfig.text (String.ofList (name ++ ':' :: q)) : RawConfig F).normalize engine =
      [{ Config.ofView (String.ofList name) with data := some (.text (String.ofList q)) }]) ∧
    ∀ fs, (∀ f ∈ fs, IsWritten f) → ∃ c, (RawConfig.text (String.ofList (name ++ literalText fs)) :
        RawConfig F).normalize engine = [c] ∧
      ((∃ f ∈ fs, IsForbidden (String.ofList f.1)) → ∃ key, IsForbidden key ∧
        c = Config.ofFailure (.config ("`" ++ key ++ "` is not allowed in a config literal"))
          (.str (String.ofList (name ++ literalText fs)))) ∧
      ((∀ f ∈ fs, ¬ IsForbidden (String.ofList f.1)) → Holds name fs c) := by
  constructor
  · intro q hq
    rw [RawConfig.normalize, hname.read_query hq]
  · intro fs hfs
    have hparse : engine.parseLiteral (String.ofList (literalText fs)) = .ok (fs.map readField) :=
      (engine_parseLiteral _).trans (parseLiteral_written hfs)
    refine ⟨_, rfl, ?_, ?_⟩
    · intro hforbidden
      rw [literalText, hname.read_fields (by simp) hparse]
      exact addFields_forbidden (by simpa [readField] using hforbidden) _ _
    · intro hfree
      have hread : ∀ f ∈ fs.map readField, ¬ IsForbidden f.key := List.forall_mem_map.mpr hfree
      rw [literalText, hname.read_fields (by simp) hparse, addFields_eq_foldl hread]
      exact (takesOver_foldl hread _).holds

/-- Of two conditions the last one is held, and a comma in a list or in a quoted text cuts nothing. -/
theorem normalize_badge :
    let name := ['b', 'a', 'd', 'g', 'e']
    let fs : List Source := [("when".toList, "a".toList), ("text".toList, "'a, \x7bb'".toList),
      ("list".toList, "[1, 2]".toList), ("when".toList, "b == c".toList)]
    Heads name ∧ (∀ f ∈ fs, IsWritten f) ∧
      (RawConfig.text "badge:a.b" : RawConfig Empty).normalize engine =
        [{ Config.ofView "badge" with data := some (.text "a.b") }] ∧
      ∃ c, (RawConfig.text "badge\x7bwhen: a, text: 'a, \x7bb', list: [1, 2], when: b == c\x7d" :
          RawConfig Empty).normalize engine = [c] ∧
        c.view = some (.named "badge") ∧ c.when = some (.text "b == c") ∧ c.data = none ∧
        Fields.get? c.props "text" = some (.json (.str "a, \x7bb")) := by
  intro name fs
  have hname : Heads name := ⟨List.cons_ne_nil _ _, by simp [name, Text.isBlank], by simp [name]⟩
  have hfs : ∀ f ∈ fs, IsWritten f := by
    simp only [fs, List.forall_mem_cons, List.not_mem_nil, false_imp_iff, implies_true, and_true]
    refine ⟨?_, ?_, ?_, ?_⟩ <;> exact ⟨rfl, List.cons_ne_nil _ _, rfl, Scan.cutFrom_eq_none.mp rfl, rfl⟩
  obtain ⟨hquery, hfields⟩ := normalize_written (F := Empty) hname
  obtain ⟨c, hc, -, hholds⟩ := hfields fs hfs
  have h := hholds (by decide)
  refine ⟨hname, hfs, hquery "a.b".toList (by decide), c, hc, h.view, h.when, h.data, ?_⟩
  rw [h.props "text"]
  rfl

end Shorthand

end Montage
