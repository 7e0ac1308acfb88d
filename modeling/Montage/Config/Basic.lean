import Montage.Query.Basic

/-!
Configs say which view to show, of which data, and when. A raw config is any shape that a host may
write; the normal form is a list of configs in object shape. `F` names the functions of the host.
-/

namespace Montage

open Json (Value)

/-- Why a config cannot be used, and what was written there. -/
structure Failure where
  error : Error
  offending : Value

inductive ViewRef (F : Type) where
  | named (name : String)
  | inline (f : F)
  | failure (why : Failure)

/-- A config in object shape, over the values `P` that its props may take. -/
structure ConfigShape (F P : Type) where
  view : Option (ViewRef F) := none
  when : Option (Query F) := none
  data : Option (Query F) := none
  whenData : Option (Query F) := none
  postRender : Option F := none
  className : Option P := none
  props : List (String × P) := []

mutual

/-- A single prop. A string that starts with an equality sign is a query. -/
inductive PropValue (F : Type) where
  | json (v : Value)
  | config (raw : RawConfig F)
  | handler (f : F)

inductive RawConfig (F : Type) where
  | null
  | text (s : String)
  | inline (f : F)
  | object (c : ConfigShape F (PropValue F))
  | list (items : List (RawConfig F))
  | invalid (v : Value)

end

abbrev Config (F : Type) := ConfigShape F (PropValue F)

abbrev Props (F : Type) := Fields (PropValue F)

namespace Config

variable {F : Type}

def ofView (name : String) : Config F :=
  { view := some (.named name) }

def ofFunction (f : F) : Config F :=
  { view := some (.inline f) }

def ofFailure (error : Error) (offending : Value) : Config F :=
  { view := some (.failure ⟨error, offending⟩) }

/-- The name of the view, where it is looked up by name. -/
def viewName? (c : Config F) : Option String :=
  match c.view with
  | some (.named name) => some name
  | _ => none

def withProp (c : Config F) (key : String) (v : PropValue F) : Config F :=
  { c with props := Fields.insert c.props key v }

end Config

namespace PropValue

variable {F : Type}

def json? : PropValue F → Option Value
  | .json v => some v
  | _ => none

end PropValue

end Montage
