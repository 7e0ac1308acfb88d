import Montage.Fields
import Montage.Json.Number

/-!
Data values. An object's fields stand in order of their names, each name once.
-/

namespace Montage.Json

inductive Value where
  | null
  | bool (b : Bool)
  | num (n : Number)
  | str (s : String)
  | arr (items : List Value)
  | obj (fields : List (String × Value))
deriving Inhabited, Repr

namespace Value

mutual

/-- Equality of data; the two zeros of floating point are one number. -/
def same : Value → Value → Bool
  | .null, .null => true
  | .bool a, .bool b => a == b
  | .num a, .num b => a.same b
  | .str a, .str b => a == b
  | .arr xs, .arr ys => sameItems xs ys
  | .obj fs, .obj gs => sameFields fs gs
  | _, _ => false

def sameItems : List Value → List Value → Bool
  | [], [] => true
  | x :: xs, y :: ys => same x y && sameItems xs ys
  | _, _ => false

def sameFields : List (String × Value) → List (String × Value) → Bool
  | [], [] => true
  | (k, x) :: fs, (j, y) :: gs => k == j && same x y && sameFields fs gs
  | _, _ => false

end

instance : BEq Value := ⟨same⟩

def ofNat (n : Nat) : Value :=
  .num (.int n)

def isStr : Value → Bool
  | .str _ => true
  | _ => false

def asStr? : Value → Option String
  | .str s => some s
  | _ => none

/-- A field of an object; null where there is none. -/
def field (v : Value) (k : String) : Value :=
  match v with
  | .obj fs => (Fields.get? fs k).getD .null
  | _ => .null

def field? (v : Value) (k : String) : Option Value :=
  match v with
  | .obj fs => Fields.get? fs k
  | _ => none

/-- An element of an array; null where there is none. -/
def element (v : Value) (i : Nat) : Value :=
  match v with
  | .arr xs => (xs[i]?).getD .null
  | _ => .null

/-- Null, false, zero and everything empty count as false. -/
def truthy : Value → Bool
  | .null => false
  | .bool b => b
  | .num n => !n.isZero
  | .str s => !s.isEmpty
  | .arr xs => !xs.isEmpty
  | .obj fs => !fs.isEmpty

end Value

end Montage.Json
