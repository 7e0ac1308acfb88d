import Montage.Config.Normal
import Montage.Proofs.Config.Fields

/-!
Reading what was written. Main statement: configs in normal form that are written as data and read again
are the same configs, with the same failures where they cannot be used.
-/

namespace Montage

open Json (Value)

/-! Configs that can be written and read again. -/

/-- The names that say something about the config as a whole. -/
def reservedNames : List String :=
  ["view", "when", "data", "whenData", "className", "postRender"]

/-- All that a config can say as data. -/
structure Config.Written where
  view : Option String := none
  when : Option Value := none
  data : Option Value := none
  whenData : Option Value := none
  className : Option Value := none
  props : Fields Value := []

namespace Config.Written

variable {F : Type} {p : Written}

/-- The config that says so. -/
def config (p : Written) : Config F where
  view := p.view.map .named
  when := p.when.map .ofJson
  data := p.data.map .ofJson
  whenData := p.whenData.map .ofJson
  className := p.className.map .json
  props := p.props.map fun f => (f.1, .json f.2)

/-- The fields that it is written with. -/
def fields (p : Written) : List (String × Value) :=
  (p.view.map fun name => ("view", .str name)).toList ++
    (p.when.map fun v => ("when", v)).toList ++ (p.data.map fun v => ("data", v)).toList ++
    (p.whenData.map fun v => ("whenData", v)).toList ++
    (p.className.map fun v => ("className", v)).toList ++ p.props

/-- Its props stand in order and do not take the names of other parts. -/
structure Orderly (p : Written) : Prop where
  sorted : p.props.Sorted
  free : ∀ f ∈ p.props, f.1 ∉ reservedNames

theorem orderly_empty : Orderly {} :=
  ⟨List.Pairwise.nil, nofun⟩

theorem Orderly.insert (h : p.Orderly) {k : String} (hk : k ∉ reservedNames) (v : Value) :
    Orderly { p with props := Fields.insert p.props k v } := by
  constructor
  · exact Fields.sorted_insert h.sorted k v
  · intro f hf
    rcases Fields.mem_insert hf with rfl | hf
    · exact hk
    · exact h.free f hf

theorem withProp_config (p : Written) (k : String) (v : Value) :
    (p.config : Config F).withProp k (.json v) =
      config { p with props := Fields.insert p.props k v } := by
  simp only [withProp, config, Fields.map_insert]

/-! Writing. -/

theorem toJson?_ofJson (v : Value) : (Query.ofJson v : Query F).toJson? = some v := by
  cases v <;> rfl

theorem queryField_map (key : String) (v : Option Value) :
    queryField (F := F) key (v.map .ofJson) = (v.map fun v => (key, v)).toList := by
  cases v with
  | none => rfl
  | some v => simp [queryField, toJson?_ofJson]

theorem propsToJson_map (fs : Fields Value) :
    propsToJson (fs.map fun f => (f.1, (.json f.2 : PropValue F))) = fs := by
  induction fs with
  | nil => rfl
  | cons f fs ih => simp [propsToJson, PropValue.toJson?, ih]

theorem toJson_config (p : Written) :
    (p.config : Config F).toJson = .obj (Fields.ofList p.fields) := by
  obtain ⟨view, when, data, whenData, className, props⟩ := p
  cases view <;> cases className <;>
    simp [Config.toJson, config, fields, shapeToJson, ConfigShape.fields, classToJson,
      PropValue.toJson?, queryField_map, propsToJson_map]

/-! Reading. -/

/-- What is said after one more field is read. -/
def put (p : Written) (key : String) (value : Value) : Written :=
  if key = "view" then { p with view := value.asStr?.or p.view }
  else if key = "when" then { p with when := some value }
  else if key = "data" then { p with data := some value }
  else if key = "whenData" then { p with whenData := some value }
  else if key = "className" then { p with className := some value }
  else { p with props := Fields.insert p.props key value }

/-- A field that can be read: it gives no function, and a view only by its name. -/
def Readable (key : String) (value : Value) : Prop :=
  key ≠ "postRender" ∧ (key = "view" → value = .null ∨ ∃ name, value = .str name)

theorem addFields_put {key : String} {value : Value} (h : Readable key value) (offending : Value)
    (fs : List (String × Value)) (p : Written) :
    addFields offending (p.config : Config F) ((key, value) :: fs) =
      addFields offending (p.put key value).config fs := by
  obtain ⟨hpost, hview⟩ := h
  simp only [addFields, put]
  split_ifs with hkey
  · rcases hview hkey with rfl | ⟨name, rfl⟩ <;> rfl
  all_goals first | rfl | rw [withProp_config]

/-- A field that cannot be read fails the whole, whatever is said besides. -/
theorem addFields_of_not_readable {key : String} {value : Value} (h : ¬ Readable key value)
    (offending : Value) (fs : List (String × Value)) (c : Config F) :
    ∃ error, addFields offending c ((key, value) :: fs) = ofFailure error offending := by
  by_cases hpost : key = "postRender"
  · subst hpost
    exact ⟨_, rfl⟩
  · have hview : key = "view" := by
      by_contra hkey
      exact h ⟨hpost, fun he => absurd he hkey⟩
    subst hview
    cases value with
    | null => exact absurd ⟨hpost, fun _ => .inl rfl⟩ h
    | str name => exact absurd ⟨hpost, fun _ => .inr ⟨name, rfl⟩⟩ h
    | _ => exact ⟨_, rfl⟩

theorem Orderly.put (h : p.Orderly) {key : String} (hpost : key ≠ "postRender") (value : Value) :
    (p.put key value).Orderly := by
  unfold Written.put
  split_ifs with hview hwhen hdata hwhenData hclass
  · exact ⟨h.sorted, h.free⟩
  · exact ⟨h.sorted, h.free⟩
  · exact ⟨h.sorted, h.free⟩
  · exact ⟨h.sorted, h.free⟩
  · exact ⟨h.sorted, h.free⟩
  · apply h.insert
    simp [reservedNames, hview, hwhen, hdata, hwhenData, hclass, hpost]

theorem addFields_eq_foldl {fs : List (String × Value)} (h : ∀ f ∈ fs, Readable f.1 f.2)
    (offending : Value) (p : Written) :
    addFields offending (p.config : Config F) fs = (fs.foldl (fun p f => p.put f.1 f.2) p).config := by
  induction fs generalizing p with
  | nil => rfl
  | cons f fs ih =>
    obtain ⟨hf, hrest⟩ := List.forall_mem_cons.mp h
    rw [addFields_put hf, ih hrest, List.foldl_cons]

/-- What is said after these fields are read as well. -/
def after (p : Written) (fs : List (String × Value)) : Written where
  view := ((Fields.get? fs "view").bind Value.asStr?).or p.view
  when := (Fields.get? fs "when").or p.when
  data := (Fields.get? fs "data").or p.data
  whenData := (Fields.get? fs "whenData").or p.whenData
  className := (Fields.get? fs "className").or p.className
  props := (fs.filter fun f => !reservedNames.contains f.1).foldl
    (fun acc f => Fields.insert acc f.1 f.2) p.props

/-- Fields of distinct names are read in any order. -/
theorem foldl_put {fs : List (String × Value)} (h : (fs.map Prod.fst).Nodup)
    (hpost : ∀ f ∈ fs, f.1 ≠ "postRender") (p : Written) :
    fs.foldl (fun p f => p.put f.1 f.2) p = p.after fs := by
  induction fs generalizing p with
  | nil => rfl
  | cons f fs ih =>
    obtain ⟨key, value⟩ := f
    obtain ⟨hnot, hfs⟩ := List.nodup_cons.mp h
    obtain ⟨hkey, hrest⟩ := List.forall_mem_cons.mp hpost
    have hnone := Fields.get?_eq_none hnot
    rw [List.foldl_cons, ih hfs hrest]
    simp only at hkey hnone
    simp only [put]
    split_ifs with hview hwhen hdata hwhenData hclass
    · subst hview
      simp [after, Fields.get?, hnone, reservedNames]
    · subst hwhen
      simp [after, Fields.get?, hnone, reservedNames]
    · subst hdata
      simp [after, Fields.get?, hnone, reservedNames]
    · subst hwhenData
      simp [after, Fields.get?, hnone, reservedNames]
    · subst hclass
      simp [after, Fields.get?, hnone, reservedNames]
    · have hfree : key ∉ reservedNames := by
        simp [reservedNames, hview, hwhen, hdata, hwhenData, hclass, hkey]
      simp [after, Fields.get?, Ne.symm hview, Ne.symm hwhen, Ne.symm hdata, Ne.symm hwhenData,
        Ne.symm hclass, hfree]

/-! Reading what was written. -/

theorem mem_fields {f : String × Value} (hf : f ∈ p.fields) :
    (∃ name, f = ("view", .str name)) ∨
      (f.1 = "when" ∨ f.1 = "data" ∨ f.1 = "whenData" ∨ f.1 = "className") ∨ f ∈ p.props := by
  simp only [fields, List.mem_append, Option.mem_toList, Option.map_eq_some_iff] at hf
  rcases hf with ((((⟨name, -, rfl⟩ | ⟨v, -, rfl⟩) | ⟨v, -, rfl⟩) | ⟨v, -, rfl⟩) | ⟨v, -, rfl⟩) | hf
  · exact .inl ⟨name, rfl⟩
  · exact .inr (.inl (.inl rfl))
  · exact .inr (.inl (.inr (.inl rfl)))
  · exact .inr (.inl (.inr (.inr (.inl rfl))))
  · exact .inr (.inl (.inr (.inr (.inr rfl))))
  · exact .inr (.inr hf)

theorem Orderly.readable (h : p.Orderly) {f : String × Value} (hf : f ∈ p.fields) :
    Readable f.1 f.2 := by
  rcases mem_fields hf with ⟨name, rfl⟩ | hkey | hf
  · exact ⟨by simp, fun _ => .inr ⟨name, rfl⟩⟩
  · constructor
    · intro he
      simp [he] at hkey
    · intro he
      simp [he] at hkey
  · have hfree := h.free f hf
    constructor
    · exact fun he => hfree (he ▸ by decide)
    · exact fun he => absurd (he ▸ by decide) hfree

/-- What is written under each name. -/
theorem get?_fields (p : Written) (k : String) :
    Fields.get? p.fields k =
      (if k = "view" then p.view.map .str else none).or ((if k = "when" then p.when else none).or
        ((if k = "data" then p.data else none).or ((if k = "whenData" then p.whenData else none).or
          ((if k = "className" then p.className else none).or (Fields.get? p.props k))))) := by
  have hview : (p.view.map fun name => ("view", Value.str name)) =
      (p.view.map .str).map fun v => ("view", v) := by
    rw [Option.map_map]
    rfl
  simp only [fields, hview, Fields.get?_append, Fields.get?_toList, Option.or_assoc]

theorem Orderly.get?_props (h : p.Orderly) {k : String} (hk : k ∈ reservedNames) :
    Fields.get? p.props k = none :=
  Fields.get?_eq_none fun hm => by
    obtain ⟨f, hf, rfl⟩ := List.mem_map.mp hm
    exact h.free f hf hk

theorem Orderly.nodup_fields (h : p.Orderly) : (p.fields.map Prod.fst).Nodup := by
  have hone : ∀ (key : String) (o : Option Value),
      ((o.map fun v => (key, v)).toList.map Prod.fst).Sublist [key] := by
    intro key o
    cases o <;> simp
  have hview : ((p.view.map fun name => ("view", Value.str name)).toList.map Prod.fst).Sublist
      ["view"] := by
    cases p.view <;> simp
  have hsub : (p.fields.map Prod.fst).Sublist
      (["view"] ++ ["when"] ++ ["data"] ++ ["whenData"] ++ ["className"] ++ p.props.map Prod.fst) := by
    simp only [fields, List.map_append]
    exact ((((hview.append (hone _ _)).append (hone _ _)).append (hone _ _)).append
      (hone _ _)).append (List.Sublist.refl _)
  apply hsub.nodup
  apply List.nodup_append'.mpr
  refine ⟨by decide, h.sorted.nodup, ?_⟩
  intro k hk hmem
  obtain ⟨f, hf, rfl⟩ := List.mem_map.mp hmem
  exact h.free f hf (List.mem_append_left ["postRender"] hk)

/-- Under each name there is what was written last, and what is not reserved is a prop. -/
theorem Orderly.after_fields (h : p.Orderly) : after {} (Fields.ofList p.fields) = p := by
  have hget : ∀ k, Fields.get? (Fields.ofList p.fields) k = _ := fun k =>
    (Fields.get?_ofList h.nodup_fields k).trans (get?_fields p k)
  have hprops : (after {} (Fields.ofList p.fields)).props = p.props := by
    refine Fields.Sorted.ext (Fields.sorted_foldl_insert _ List.Pairwise.nil) h.sorted fun k => ?_
    have hnodup : (((Fields.ofList p.fields).filter
        fun f => !reservedNames.contains f.1).map Prod.fst).Nodup :=
      (Fields.sorted_ofList p.fields).nodup.sublist (List.filter_sublist.map _)
    rw [after, Fields.get?_foldl_insert hnodup,
      Fields.get?_filter (fun k => !reservedNames.contains k), hget]
    by_cases hk : k ∈ reservedNames
    · simp [hk, h.get?_props hk, Fields.get?]
    · have hne : ∀ name ∈ reservedNames, k ≠ name := fun name hname he => hk (he ▸ hname)
      simp only [reservedNames, List.forall_mem_cons] at hne
      simp [hk, hne, Fields.get?]
  have hreserved : ∀ k ∈ reservedNames, Fields.get? p.props k = none := fun _ hk => h.get?_props hk
  simp only [reservedNames, List.forall_mem_cons] at hreserved
  have hview : (p.view.map Value.str).bind Value.asStr? = p.view := by
    cases p.view <;> rfl
  obtain ⟨view, when, data, whenData, className, props⟩ := p
  simp only [after, hget] at hprops ⊢
  simp only [hprops]
  simp [hreserved, hview]

/-- A config is read again as it was written. -/
theorem Orderly.ofFields_fields (h : p.Orderly) :
    (ofFields (Fields.ofList p.fields) : Config F) = p.config := by
  have hread : ∀ f ∈ Fields.ofList p.fields, Readable f.1 f.2 :=
    fun f hf => h.readable (Fields.mem_ofList hf)
  have hempty : ({} : Config F) = config {} := rfl
  rw [ofFields, hempty, addFields_eq_foldl hread,
    foldl_put (Fields.sorted_ofList p.fields).nodup fun f hf => (hread f hf).1, h.after_fields]

end Config.Written

/-! What is written of a config stands for that config alone. -/

namespace Config

variable {F : Type} {c : Config F} {source : Value}

/-- A config that was made of a source: in full, or as a failure that gives the source back. -/
def MadeOf (source : Value) (c : Config F) : Prop :=
  (∃ error, c = ofFailure error source) ∨ ∃ p : Written, p.Orderly ∧ c = p.config

theorem madeOf_addFields {p : Written} (h : p.Orderly) (source : Value) (fs : List (String × Value)) :
    MadeOf source (addFields source (p.config : Config F) fs) := by
  induction fs generalizing p with
  | nil => exact .inr ⟨p, h, rfl⟩
  | cons f fs ih =>
    by_cases hf : Written.Readable f.1 f.2
    · rw [Written.addFields_put hf]
      exact ih (h.put hf.1 f.2)
    · exact .inl (Written.addFields_of_not_readable hf source fs p.config)

/-- If the source stands for the config alone, so does what is written of the config. -/
theorem MadeOf.reread {engine : Engine} (h : c.MadeOf source)
    (hsource : (RawConfig.ofJson source : RawConfig F).normalize engine = [c]) :
    (RawConfig.ofJson c.toJson).normalize engine = [c] := by
  rcases h with ⟨error, rfl⟩ | ⟨p, hp, rfl⟩
  · exact hsource
  · rw [Written.toJson_config]
    exact congrArg (fun c => [c]) hp.ofFields_fields

end Config

namespace Shorthand

variable {F : Type}

open Config

theorem fieldQuery_eq (f : LiteralField) : ∃ v, (fieldQuery f : Query F) = .ofJson v := by
  unfold fieldQuery
  cases f.literal with
  | none => exact ⟨.str f.source, rfl⟩
  | some v =>
    cases v with
    | str s => exact ⟨.str f.source, rfl⟩
    | null => exact ⟨.null, rfl⟩
    | bool b => exact ⟨.bool b, rfl⟩
    | num n => exact ⟨.num n, rfl⟩
    | arr items => exact ⟨.arr items, rfl⟩
    | obj fields => exact ⟨.obj fields, rfl⟩

theorem fieldProp_eq (f : LiteralField) : ∃ v, (fieldProp f : PropValue F) = .json v := by
  unfold fieldProp
  split
  · exact ⟨_, rfl⟩
  · exact ⟨_, rfl⟩

theorem madeOf_addFields {p : Written} (h : p.Orderly) (whole : String) (fs : List LiteralField) :
    MadeOf (.str whole) (addFields whole (p.config : Config F) fs) := by
  induction fs generalizing p with
  | nil => exact .inr ⟨p, h, rfl⟩
  | cons f fs ih =>
    obtain ⟨q, hq⟩ := fieldQuery_eq (F := F) f
    obtain ⟨v, hv⟩ := fieldProp_eq (F := F) f
    simp only [addFields, hq, hv]
    split_ifs with hview hwhen hdata hwhenData hclass
    · exact .inl ⟨_, rfl⟩
    · exact ih (p := { p with when := some q }) ⟨h.sorted, h.free⟩
    · exact ih (p := { p with data := some q }) ⟨h.sorted, h.free⟩
    · exact ih (p := { p with whenData := some q }) ⟨h.sorted, h.free⟩
    · exact ih (p := { p with className := some v }) ⟨h.sorted, h.free⟩
    · rw [Written.withProp_config]
      apply ih
      apply h.insert
      simp_all [reservedNames]

theorem madeOf_read (engine : Engine) (whole : String) :
    MadeOf (.str whole) (read engine whole : Config F) := by
  have hname : ∀ name, (ofView name : Config F) = Written.config { view := some name } := fun _ => rfl
  have horderly : ∀ name, Written.Orderly { view := some name } :=
    fun _ => ⟨List.Pairwise.nil, nofun⟩
  unfold read
  split
  · exact .inr ⟨_, horderly _, hname _⟩
  · split
    · exact .inr ⟨{ view := some _, data := some (.str _) }, ⟨List.Pairwise.nil, nofun⟩, rfl⟩
    · split
      · exact .inl ⟨_, rfl⟩
      · exact madeOf_addFields (horderly (String.ofList _)) whole _

end Shorthand

namespace RawConfig

variable {F : Type}

open Config

theorem provides_reread (engine : Engine) : Provides engine (fun _ => True)
    fun c : Config F => (ofJson c.toJson).normalize engine = [c] where
  text s _ := (Shorthand.madeOf_read engine s).reread rfl
  object fields _ := (madeOf_addFields Written.orderly_empty (.obj fields) fields).reread rfl
  invalid _ hv := congrArg (RawConfig.normalize engine) hv
  item _ _ := trivial

/-- Configs that each stand for themselves when written stand for themselves together. -/
theorem normalizeAll_reread {engine : Engine} {cs : List (Config F)}
    (h : ∀ c ∈ cs, (ofJson c.toJson).normalize engine = [c]) :
    normalizeAll engine (ofItems (cs.map Config.toJson)) = cs := by
  induction cs with
  | nil => rfl
  | cons c cs ih =>
    obtain ⟨hc, hcs⟩ := List.forall_mem_cons.mp h
    simp only [List.map_cons, ofItems, normalizeAll, hc, ih hcs, List.singleton_append]

/-- The normal form of data, written and read again, is the same normal form: every config of it in its
place with its view or failure, its queries and its props. -/
theorem normalize_reread (engine : Engine) (v : Value) :
    (ofJson (.arr (((ofJson v : RawConfig F).normalize engine).map Config.toJson))).normalize engine =
      (ofJson v : RawConfig F).normalize engine :=
  normalizeAll_reread ((provides_reread engine).normalize v trivial)

end RawConfig

end Montage
