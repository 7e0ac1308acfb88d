import Montage.View.Call

/-!
Configs that are data. What is read from data, or written in shorthand, names no function of a host, and
neither do the configs among its props. Main statement: all configs that data stands for are such.
-/

namespace Montage

open Json (Value)

variable {F : Type}

theorem Fields.mem_insert {α : Type} {fs : Fields α} {k : String} {v : α} {f : String × α}
    (h : f ∈ Fields.insert fs k v) : f = (k, v) ∨ f ∈ fs := by
  induction fs with
  | nil => exact .inl (List.mem_singleton.mp h)
  | cons g fs ih =>
    simp only [Fields.insert] at h
    split at h
    · exact (List.mem_cons.mp h).imp_right fun h => List.mem_cons_of_mem _ h
    · split at h
      · exact List.mem_cons.mp h
      · rcases List.mem_cons.mp h with rfl | h
        · exact .inr List.mem_cons_self
        · exact (ih h).imp_right fun h => List.mem_cons_of_mem _ h

theorem Fields.mem_of_get? {α : Type} {fs : Fields α} {k : String} {v : α}
    (h : Fields.get? fs k = some v) : ∃ f ∈ fs, f.2 = v := by
  induction fs with
  | nil => cases h
  | cons g fs ih =>
    simp only [Fields.get?] at h
    split at h
    · exact ⟨g, List.mem_cons_self, Option.some.inj h⟩
    · obtain ⟨f, hf, hv⟩ := ih h
      exact ⟨f, List.mem_cons_of_mem _ hf, hv⟩

/-- A prop that is data, or a config that was read from data. -/
def PropValue.IsData (p : PropValue F) : Prop :=
  (∃ v, p = .json v) ∨ ∃ v, p = .config (.ofJson v)

theorem PropValue.isData_json (v : Value) : (PropValue.json v : PropValue F).IsData :=
  .inl ⟨v, rfl⟩

def Props.AreData (ps : List (String × PropValue F)) : Prop :=
  ∀ f ∈ ps, f.2.IsData

/-- A config among props that are data was read from data. -/
theorem Props.AreData.config {ps : Props F} {key : String} {raw : RawConfig F}
    (h : Props.AreData ps) (hraw : Props.config? ps key = some raw) : ∃ v, raw = .ofJson v := by
  unfold Props.config? at hraw
  split at hraw
  · exact ⟨_, (Option.some.inj hraw).symm⟩
  · rename_i hget
    obtain ⟨f, hf, hv⟩ := Fields.mem_of_get? hget
    rcases h f hf with ⟨v, hjson⟩ | ⟨v, hconfig⟩
    · rw [hv] at hjson
      cases hjson
    · rw [hv] at hconfig
      exact ⟨v, (Option.some.inj hraw).symm.trans (PropValue.config.inj hconfig)⟩
  · cases hraw

/-- A query that is not a function. -/
def Query.IsData : Query F → Prop
  | .function _ => False
  | _ => True

theorem Query.isData_ofJson (v : Value) : (Query.ofJson v : Query F).IsData := by
  cases v <;> trivial

/-- A config that names no function. -/
structure Config.IsData (c : Config F) : Prop where
  view : ∀ f, c.view ≠ some (.inline f)
  when : ∀ q, c.when = some q → q.IsData
  data : ∀ q, c.data = some q → q.IsData
  whenData : ∀ q, c.whenData = some q → q.IsData
  postRender : c.postRender = none
  props : Props.AreData c.props

namespace Config

variable {c : Config F} {offending : Value} {error : Error}

theorem isData_empty : IsData ({} : Config F) :=
  ⟨nofun, nofun, nofun, nofun, rfl, nofun⟩

theorem isData_ofView (name : String) : (ofView name : Config F).IsData :=
  ⟨nofun, nofun, nofun, nofun, rfl, nofun⟩

theorem isData_ofFailure (error : Error) (offending : Value) :
    (ofFailure error offending : Config F).IsData :=
  ⟨nofun, nofun, nofun, nofun, rfl, nofun⟩

namespace IsData

theorem withProp {key : String} {p : PropValue F} (h : c.IsData) (hp : p.IsData) :
    (c.withProp key p).IsData :=
  { h with
    props := fun _ hf => (Fields.mem_insert hf).elim (fun he => he ▸ hp) (h.props _) }

theorem withWhen {q : Query F} (h : c.IsData) (hq : q.IsData) :
    IsData { c with when := some q } :=
  { h with when := fun _ he => Option.some.inj he ▸ hq }

theorem withData {q : Query F} (h : c.IsData) (hq : q.IsData) :
    IsData { c with data := some q } :=
  { h with data := fun _ he => Option.some.inj he ▸ hq }

theorem withWhenData {q : Query F} (h : c.IsData) (hq : q.IsData) :
    IsData { c with whenData := some q } :=
  { h with whenData := fun _ he => Option.some.inj he ▸ hq }

theorem withClassName {p : Option (PropValue F)} (h : c.IsData) :
    IsData { c with className := p } :=
  { h with }

theorem withView {name : String} (h : c.IsData) : IsData { c with view := some (.named name) } :=
  { h with view := nofun }

/-- Fields of an object make no functions. -/
theorem addFields (h : c.IsData) (fields : List (String × Value)) :
    (addFields offending c fields).IsData := by
  induction fields generalizing c with
  | nil => exact h
  | cons f fields ih =>
    obtain ⟨key, value⟩ := f
    unfold Config.addFields
    split
    · split
      · exact ih h.withView
      · exact ih h
      · exact isData_ofFailure _ _
    · split
      · exact ih (h.withWhen (Query.isData_ofJson value))
      · split
        · exact ih (h.withData (Query.isData_ofJson value))
        · split
          · exact ih (h.withWhenData (Query.isData_ofJson value))
          · split
            · exact ih h.withClassName
            · split
              · exact isData_ofFailure _ _
              · exact ih (h.withProp (PropValue.isData_json value))

theorem ensureView (h : c.IsData) : c.ensureView.IsData := by
  unfold Config.ensureView
  split
  · exact h
  · exact isData_ofFailure _ _

end IsData

end Config

namespace Shorthand

theorem isData_fieldProp (f : LiteralField) : (fieldProp f : PropValue F).IsData := by
  unfold fieldProp
  split <;> exact PropValue.isData_json _

theorem isData_fieldQuery (f : LiteralField) : (fieldQuery f : Query F).IsData := by
  unfold fieldQuery
  split
  · split <;> trivial
  · trivial

/-- Fields of an object literal make no functions. -/
theorem isData_addFields {whole : String} {c : Config F} (h : c.IsData) (fields : List LiteralField) :
    (addFields whole c fields).IsData := by
  induction fields generalizing c with
  | nil => exact h
  | cons f fields ih =>
    unfold addFields
    split
    · exact Config.isData_ofFailure _ _
    · split
      · exact ih (h.withWhen (isData_fieldQuery f))
      · split
        · exact ih (h.withData (isData_fieldQuery f))
        · split
          · exact ih (h.withWhenData (isData_fieldQuery f))
          · split
            · exact ih h.withClassName
            · exact ih (h.withProp (isData_fieldProp f))

theorem isData_read (engine : Engine) (whole : String) : (read engine whole : Config F).IsData := by
  unfold read
  split
  · exact Config.isData_ofView _
  · split
    · exact (Config.isData_ofView _).withData trivial
    · split
      · exact Config.isData_ofFailure _ _
      · exact isData_addFields (Config.isData_ofView _) _

end Shorthand

/-- A raw config that was read from data, or is a config that names no function. -/
def RawConfig.IsData (raw : RawConfig F) : Prop :=
  (∃ v, raw = .ofJson v) ∨ ∃ c, raw = .object c ∧ Config.IsData c

/-- What holds of a value and of all elements below it gives something of each config that one of them
stands for. -/
structure RawConfig.Provides (engine : Engine) (Q : Value → Prop) (P : Config F → Prop) : Prop where
  text : ∀ s, Q (.str s) → P (Shorthand.read engine s)
  object : ∀ fields, Q (.obj fields) → P (Config.ofFields fields)
  invalid : ∀ v, (ofJson v : RawConfig F) = .invalid v →
    P (Config.ofFailure (.config ("unsupported config value: " ++ v.compact)) v)
  item : ∀ {items v}, Q (.arr items) → v ∈ items → Q v

mutual

/-- It gives the same of all configs that the value stands for. -/
theorem RawConfig.Provides.normalize {engine : Engine} {Q : Value → Prop} {P : Config F → Prop}
    (h : Provides engine Q P) (v : Value) (hv : Q v) :
    ∀ c ∈ (ofJson v : RawConfig F).normalize engine, P c := by
  intro c hc
  cases v with
  | null => cases hc
  | str s => exact List.mem_singleton.mp hc ▸ h.text s hv
  | arr items => exact h.normalizeAll items (fun _ hu => h.item hv hu) c hc
  | obj fields => exact List.mem_singleton.mp hc ▸ h.object fields hv
  | _ => exact List.mem_singleton.mp hc ▸ h.invalid _ rfl

theorem RawConfig.Provides.normalizeAll {engine : Engine} {Q : Value → Prop} {P : Config F → Prop}
    (h : Provides engine Q P) (items : List Value) (hitems : ∀ v ∈ items, Q v) :
    ∀ c ∈ RawConfig.normalizeAll engine (ofItems items : List (RawConfig F)), P c := by
  intro c hc
  match items with
  | [] => cases hc
  | v :: items =>
    obtain ⟨hv, hrest⟩ := List.forall_mem_cons.mp hitems
    exact (List.mem_append.mp hc).elim (h.normalize v hv c) (h.normalizeAll items hrest c)

end

theorem RawConfig.provides_isData (engine : Engine) :
    Provides engine (fun _ => True) (Config.IsData : Config F → Prop) where
  text s _ := Shorthand.isData_read engine s
  object fields _ := Config.isData_empty.addFields fields
  invalid _ _ := Config.isData_ofFailure _ _
  item _ _ := trivial

/-- All configs that data stands for name no function. -/
theorem RawConfig.IsData.normalize {raw : RawConfig F} (h : raw.IsData) (engine : Engine) :
    ∀ c ∈ raw.normalize engine, Config.IsData c := by
  rcases h with ⟨v, rfl⟩ | ⟨c, rfl, hc⟩
  · exact (provides_isData engine).normalize v trivial
  · exact fun c' hc' => List.mem_singleton.mp hc' ▸ hc

/-- The config of an item of a list whose props are data names no function. -/
theorem isData_itemConfig {props : Props F} (h : Props.AreData props) : (itemConfig props).IsData := by
  refine (Config.isData_ofView _).withProp (.inr ?_)
  cases hraw : Props.config? props "item" with
  | none => exact ⟨.str "text", rfl⟩
  | some raw =>
    obtain ⟨v, rfl⟩ := h.config hraw
    exact ⟨v, rfl⟩

end Montage
