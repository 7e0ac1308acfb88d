import Montage.View.Call

/-!
Views by name. A view never changes once it is defined, and its name is never taken again.
-/

namespace Montage

structure View (F : Type) where
  name : String
  painter : Painter F
  options : Options F

/-- Views in order of definition. -/
structure Registry (F : Type) where
  views : List (View F)

namespace Registry

variable {F : Type}

def empty : Registry F := ⟨[]⟩

def get? (r : Registry F) (name : String) : Option (View F) :=
  r.views.find? (·.name == name)

def isDefined (r : Registry F) (name : String) : Bool :=
  (r.get? name).isSome

def names (r : Registry F) : List String :=
  r.views.map View.name

/-- A name must not be blank and must not be taken. -/
def define (r : Registry F) (v : View F) : Except Error (Registry F) :=
  if (Text.trim v.name.toList).isEmpty then .error (.definition "view name must not be empty")
  else if r.isDefined v.name then
    .error (.definition ("view `" ++ v.name ++ "` is already defined"))
  else .ok ⟨r.views ++ [v]⟩

/-- Defines views in order; one that fails does not stop the rest. -/
def defineAll (r : Registry F) : List (View F) → Registry F × List Error
  | [] => (r, [])
  | v :: vs =>
    match r.define v with
    | .ok r => r.defineAll vs
    | .error e =>
      let (r, es) := r.defineAll vs
      (r, e :: es)

/-- The views that a medium brings along. -/
def builtins (α : Type) [Medium α] : List (View F) :=
  (Medium.builtins α).map fun b => ⟨b.1, .builtin b.2.1, { shape := b.2.2 }⟩

end Registry

end Montage
