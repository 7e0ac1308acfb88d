import Montage.Query.Path
import Montage.Query.Scan
import Montage.Json.Reader
import Montage.Text.Alphanumeric

/-!
A small query language: the data `$`, the context `#`, paths into either, values and single-quoted
text, negation by `!`, and equality by `=`, `==` and `!=`. Also its object literals, whose fields are
values or expressions.
-/

namespace Montage.Expression

open Json (Value)

/-- What stands between two single quotes at the ends of a text. -/
def singleQuoted? (s : List Char) : Option (List Char) :=
  match s with
  | '\'' :: r => if r.getLast? = some '\'' then some r.dropLast else none
  | _ => none

/-- The operand of a negation; an equality sign after the mark makes it none. -/
def negated? (s : List Char) : Option (List Char) :=
  match s with
  | '!' :: '=' :: _ => none
  | '!' :: r => some r
  | _ => none

theorem length_negated {s r : List Char} (h : negated? s = some r) : r.length < s.length := by
  unfold negated? at h
  split at h
  · cases h
  · cases h
    simp
  · cases h

/-- An expression without operators. -/
def atom (s : List Char) (data context : Value) : Except Error Value :=
  if s.isEmpty || s == ['$'] then .ok data
  else if s == ['#'] then .ok context
  else match singleQuoted? s with
    | some t => .ok (.str (String.ofList t))
    | none =>
      match Value.read s with
      | some v => .ok v
      | none =>
        match s with
        | '#' :: '.' :: path => Path.resolve path context
        | '$' :: '.' :: path => Path.resolve path data
        | _ => Path.resolve s data

/-- The value of an expression. An equality binds looser than a negation inside its sides, and both
sides are evaluated, the left first. -/
def evaluate (source : List Char) (data context : Value) : Except Error Value :=
  match _h : negated? (Text.trim source) with
  | some r =>
    match evaluate r data context with
    | .error e => .error e
    | .ok v => .ok (.bool (!v.truthy))
  | none =>
    match _h : Scan.equality? (Text.trim source) with
    | some e =>
      match evaluate e.left data context with
      | .error x => .error x
      | .ok l =>
        match evaluate e.right data context with
        | .error x => .error x
        | .ok r => .ok (.bool (l.same r != e.negate))
    | none => atom (Text.trim source) data context
termination_by source.length
decreasing_by
  all_goals
    have := Text.length_trim_le source
    first
      | have := length_negated _h; omega
      | have := Scan.length_equality_left _h; omega
      | have := Scan.length_equality_right _h; omega

def isIdentifier (s : List Char) : Bool :=
  !s.isEmpty && s.all (fun c => Text.isAlphanumeric c || c == '_' || c == '$')

/-- The name of a field: quoted either way, or an identifier. -/
def readKey (s : List Char) : Except Error String :=
  match singleQuoted? s with
  | some t => .ok (String.ofList t)
  | none =>
    if s.head? = some '"' then
      match Json.readString s with
      | .ok t => .ok (String.ofList t)
      | .error f =>
        .error (.query ("bad key " ++ String.ofList s ++ ": " ++ f.message s))
    else if isIdentifier s then .ok (String.ofList s)
    else .error (.query ("bad key `" ++ String.ofList s ++ "`"))

/-- The value that a field's source writes, if it is a plain value. -/
def literal? (source : List Char) : Option Value :=
  match singleQuoted? source with
  | some t => some (.str (String.ofList t))
  | none => Value.read source

/-- One entry of an object literal; a name alone stands for the field of that name. -/
def readEntry (entry : List Char) : Except Error LiteralField :=
  match Scan.cut ':' entry with
  | none =>
    if isIdentifier entry then .ok ⟨String.ofList entry, String.ofList entry, none⟩
    else .error (.query ("bad literal entry: " ++ String.ofList entry))
  | some (key, value) =>
    match readKey (Text.trim key) with
    | .error e => .error e
    | .ok key =>
      let source := Text.trim value
      if source.isEmpty then .error (.query ("missing value for `" ++ key ++ "`"))
      else .ok ⟨key, String.ofList source, literal? source⟩

/-- Entries in order, empty ones left out; the first bad one spoils all. -/
def readEntries : List (List Char) → Except Error (List LiteralField)
  | [] => .ok []
  | e :: r =>
    if (Text.trim e).isEmpty then readEntries r
    else match readEntry (Text.trim e) with
      | .error x => .error x
      | .ok f =>
        match readEntries r with
        | .error x => .error x
        | .ok fs => .ok (f :: fs)

/-- What stands between a pair of braces at the ends of a text. -/
def braced? (s : List Char) : Option (List Char) :=
  match s with
  | '\x7b' :: r => if r.getLast? = some '\x7d' then some r.dropLast else none
  | _ => none

/-- The fields of an object literal. -/
def parseLiteral (source : List Char) : Except Error (List LiteralField) :=
  match braced? (Text.trim source) with
  | none => .error (.query ("object literal expected: " ++ String.ofList (Text.trim source)))
  | some inner => readEntries (Scan.split ',' inner)

/-- The engine of this language; it never has to wait. -/
def engine : Engine where
  query source data context := .now (evaluate source.toList data context)
  parseLiteral source := parseLiteral source.toList
  truthy := Value.truthy

end Montage.Expression
