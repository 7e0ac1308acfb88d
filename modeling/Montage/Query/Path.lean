import Montage.Query.Basic
import Montage.Text.Blank
import Montage.Text.Numeral

/-!
Paths into data: names joined by points, each with indexes in brackets. A name applied to an array
maps over its elements.
-/

namespace Montage.Path

open Json (Value)

mutual

/-- A field of an object; of an array, the fields of its elements put together. -/
def property (name : String) : Value → Value
  | .obj fs => (Fields.get? fs name).getD .null
  | .arr xs => .arr (properties name xs)
  | _ => .null

/-- Elements without the field give nothing, and an array that is found is spread out once. -/
def properties (name : String) : List Value → List Value
  | [] => []
  | x :: xs =>
    match property name x with
    | .null => properties name xs
    | .arr ys => ys ++ properties name xs
    | v => v :: properties name xs

end

/-- A name, which may be empty, and indexes applied after it. -/
structure Segment where
  name : String
  indexes : List Nat

/-- Indexes from an opening bracket on. -/
def readIndexes (segment : List Char) (s : List Char) : Except Error (List Nat) :=
  match s with
  | [] => .ok []
  | '[' :: r =>
    let inner := r.takeWhile (· != ']')
    if inner.length = r.length then
      .error (.query ("unclosed index in `" ++ String.ofList segment ++ "`"))
    else match Text.readCount (Text.trim inner) with
      | none => .error (.query ("bad index in `" ++ String.ofList segment ++ "`"))
      | some n =>
        match readIndexes segment (r.drop (inner.length + 1)) with
        | .error e => .error e
        | .ok ns => .ok (n :: ns)
  | _ =>
    .error (.query ("unexpected `" ++ String.ofList s ++ "` in `" ++ String.ofList segment ++ "`"))
termination_by s.length
decreasing_by
  simp only [List.length_drop, List.length_cons]
  omega

def readSegment (s : List Char) : Except Error Segment :=
  let name := s.takeWhile (· != '[')
  match readIndexes s (s.drop name.length) with
  | .error e => .error e
  | .ok ns => .ok ⟨String.ofList name, ns⟩

def Segment.apply (g : Segment) (v : Value) : Value :=
  let v := if g.name.isEmpty then v else property g.name v
  g.indexes.foldl Value.element v

def follow : List (List Char) → Value → Except Error Value
  | [], v => .ok v
  | s :: r, v =>
    match readSegment s with
    | .error e => .error e
    | .ok g => follow r (g.apply v)

/-- The value that a path leads to. -/
def resolve (path : List Char) (root : Value) : Except Error Value :=
  follow (Text.splitWhere (· == '.') path) root

end Montage.Path
