import Montage.Config.Basic

/-!
Configs as data. Reading takes every value to a raw config; writing shows functions as `<fn>`, leaves
handlers out, and gives back what was offending where a config failed.
-/

namespace Montage

open Json (Value)

variable {F : Type}

/-- Stands for a function in written configs. -/
def functionText : Value := .str "<fn>"

namespace Config

/-- Takes over fields in order. The view must be a name and what runs after rendering cannot be
written as data; either fault makes a failure of the whole. -/
def addFields (offending : Value) (c : Config F) : List (String × Value) → Config F
  | [] => c
  | (key, value) :: r =>
    if key = "view" then
      match value with
      | .str name => addFields offending { c with view := some (.named name) } r
      | .null => addFields offending c r
      | other =>
        ofFailure (.config ("`view` must be a string, got " ++ other.compact)) offending
    else if key = "when" then addFields offending { c with when := some (.ofJson value) } r
    else if key = "data" then addFields offending { c with data := some (.ofJson value) } r
    else if key = "whenData" then addFields offending { c with whenData := some (.ofJson value) } r
    else if key = "className" then
      addFields offending { c with className := some (.json value) } r
    else if key = "postRender" then
      ofFailure (.config "`postRender` must be a function") offending
    else addFields offending (c.withProp key (.json value)) r

def ofFields (fields : Fields Value) : Config F :=
  addFields (.obj fields) {} fields

end Config

namespace RawConfig

mutual

def ofJson : Value → RawConfig F
  | .null => .null
  | .str s => .text s
  | .arr items => .list (ofItems items)
  | .obj fields => .object (Config.ofFields fields)
  | v => .invalid v

def ofItems : List Value → List (RawConfig F)
  | [] => []
  | v :: r => ofJson v :: ofItems r

end

end RawConfig

/-- The fields that a query gives under its key. -/
def queryField (key : String) : Option (Query F) → List (String × Value)
  | none => []
  | some q => [(key, q.toJson?.getD functionText)]

/-- A config in object shape as fields, of which a later one of the same name wins. -/
def ConfigShape.fields {P : Type} (c : ConfigShape F P) : List (String × Value) :=
  (match c.view with
    | some (.named name) => [("view", .str name)]
    | some (.inline _) => [("view", functionText)]
    | _ => []) ++
  queryField "when" c.when ++ queryField "data" c.data ++ queryField "whenData" c.whenData ++
  (if c.postRender.isSome then [("postRender", functionText)] else [])

mutual

def PropValue.toJson? : PropValue F → Option Value
  | .json v => some v
  | .config raw => some raw.toJson
  | .handler _ => none

def RawConfig.toJson : RawConfig F → Value
  | .null => .null
  | .text s => .str s
  | .inline _ => functionText
  | .object c => shapeToJson c
  | .list items => .arr (itemsToJson items)
  | .invalid v => v

def itemsToJson : List (RawConfig F) → List Value
  | [] => []
  | c :: r => c.toJson :: itemsToJson r

def shapeToJson : ConfigShape F (PropValue F) → Value
  | ⟨view, when, data, whenData, postRender, className, props⟩ =>
    match view with
    | some (.failure why) => why.offending
    | _ =>
      .obj (Fields.ofList
        (ConfigShape.fields (P := Unit) ⟨view, when, data, whenData, postRender, none, []⟩ ++
          classToJson className ++ propsToJson props))

def classToJson : Option (PropValue F) → List (String × Value)
  | none => []
  | some p =>
    match p.toJson? with
    | none => []
    | some v => [("className", v)]

def propsToJson : List (String × PropValue F) → List (String × Value)
  | [] => []
  | (key, p) :: r =>
    match p.toJson? with
    | none => propsToJson r
    | some v => (key, v) :: propsToJson r

end

def Config.toJson (c : Config F) : Value :=
  shapeToJson c

namespace Props

/-- Props as data, handlers left out. -/
def toJson (ps : Props F) : Value :=
  .obj (propsToJson ps)

def json? (ps : Props F) (key : String) : Option Value :=
  (Fields.get? ps key).bind PropValue.json?

def str? (ps : Props F) (key : String) : Option String :=
  (json? ps key).bind Value.asStr?

/-- A nested config, whether given as data or as a config. -/
def config? (ps : Props F) (key : String) : Option (RawConfig F) :=
  match Fields.get? ps key with
  | some (.json v) => some (.ofJson v)
  | some (.config raw) => some raw
  | _ => none

def handler? (ps : Props F) (key : String) : Option F :=
  match Fields.get? ps key with
  | some (.handler f) => some f
  | _ => none

end Props

end Montage
