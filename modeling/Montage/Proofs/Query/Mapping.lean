import Mathlib.Data.List.Basic
import Montage.Query.Path

/-!
Names within arrays, and paths in parts. Main statement: a name applied to an array puts together what the values
within have under it, however deep the arrays, and a path is followed part by part.
-/

namespace Montage

open Json (Value)

namespace Text

variable {p : Char → Bool} {c : Char}

/-- A separator between two texts keeps their pieces apart. -/
theorem splitWhere_append (hc : p c) (s t : List Char) :
    splitWhere p (s ++ c :: t) = splitWhere p s ++ splitWhere p t := by
  induction s with
  | nil => simp [splitWhere, hc]
  | cons d s ih =>
    rw [List.cons_append, splitWhere, splitWhere, ih]
    split
    · rfl
    · cases hs : splitWhere p s with
      | nil => exact absurd hs (splitWhere_ne_nil p s)
      | cons w ws => rfl

end Text

namespace Json.Value

mutual

/-- The values other than arrays that are reached through arrays alone, in order. -/
def leaves : Value → List Value
  | .arr xs => leavesOf xs
  | v => [v]

def leavesOf : List Value → List Value
  | [] => []
  | x :: xs => leaves x ++ leavesOf xs

end

end Json.Value

namespace Path

/-- What a value that is no array has under a name: nothing, the elements of an array as they are, or one value. -/
def found (name : String) : Value → List Value
  | .obj fs =>
    match Fields.get? fs name with
    | none => []
    | some .null => []
    | some (.arr ys) => ys
    | some v => [v]
  | _ => []

/-- What an element adds to the result for its array. -/
def spread : Value → List Value
  | .null => []
  | .arr ys => ys
  | v => [v]

theorem properties_cons (name : String) (x : Value) (xs : List Value) :
    properties name (x :: xs) = spread (property name x) ++ properties name xs := by
  rw [properties]
  cases property name x <;> rfl

theorem spread_obj (name : String) (fs : List (String × Value)) :
    spread (property name (.obj fs)) = found name (.obj fs) := by
  rw [property, found]
  cases Fields.get? fs name with
  | none => rfl
  | some v => cases v <;> rfl

mutual

/-- The flattening at each array on the way up comes to one flattening of what the leaves have. -/
theorem spread_property (name : String) : ∀ v, spread (property name v) = v.leaves.flatMap (found name)
  | .arr xs => properties_eq name xs
  | .obj fs => (spread_obj name fs).trans (List.flatMap_singleton ..).symm
  | .null => rfl
  | .bool _ => rfl
  | .num _ => rfl
  | .str _ => rfl

theorem properties_eq (name : String) :
    ∀ xs, properties name xs = (Value.leavesOf xs).flatMap (found name)
  | [] => rfl
  | x :: xs => by
    rw [properties_cons, spread_property name x, properties_eq name xs, Value.leavesOf, List.flatMap_append]

end

/-- The pieces behind are followed from where those before lead. -/
theorem follow_append (a b : List (List Char)) (v : Value) :
    follow (a ++ b) v = (follow a v).bind (follow b) := by
  induction a generalizing v with
  | nil => rfl
  | cons s a ih =>
    rw [List.cons_append, follow, follow]
    cases readSegment s with
    | error e => rfl
    | ok g => exact ih (g.apply v)

/-- A name applied to an array puts together what the values within have under it, in order and with each array
that is found spread out once. Two paths joined by a point lead to where the second leads from where the first
leads, and an error of the first comes first. -/
theorem property_arr_and_resolve_append :
    (∀ name items, property name (.arr items) = .arr ((Value.arr items).leaves.flatMap (found name))) ∧
      ∀ p q root, resolve (p ++ '.' :: q) root = (resolve p root).bind (resolve q) := by
  constructor
  · intro name items
    rw [property, properties_eq, Value.leaves]
  · intro p q root
    rw [resolve, Text.splitWhere_append rfl, follow_append]
    rfl

/-- Nulls in an array that is found stay, and arrays in it are not spread out again. -/
example : property "k" (.arr [.arr [.obj [("k", .arr [.null, .arr [.null]])], .null], .obj [("k", .null)],
    .obj [("k", .str "v")]]) = .arr [.null, .arr [.null], .str "v"] := by
  rfl

end Path

end Montage
