import Montage.Toml.Scalar

/-!
Reading TOML documents line by line. Values nest less than eighty levels deep, and a key has less
than eighty parts.
-/

namespace Montage.Toml

/-- Skips a comment, which ends before its line does. -/
def skipComment (s : List Char) : List Char :=
  match s with
  | '#' :: r => r.dropWhile isPrintable
  | _ => s

/-- Skips blanks, comments and line ends inside an array. -/
def skipGaps : Nat → List Char → List Char
  | 0, s => s
  | fuel + 1, s =>
    let r := skipComment (skipBlanks s)
    match dropLineEnd? r with
    | some r => skipGaps fuel r
    | none => r

def depthBound : Nat := 80

/-- A key, of fewer parts than the bound. -/
def readPath (s : List Char) : Option (List String × List Char) :=
  (readKey s.length s).filter fun found => found.1.length < depthBound

mutual

def readValue (fuel depth : Nat) (s : List Char) : Option (Item × List Char) :=
  match fuel with
  | 0 => none
  | fuel + 1 =>
    match s with
    | '"' :: _ => (readText s).map fun (t, r) => (.text (String.ofList t), r)
    | '\'' :: _ => (readText s).map fun (t, r) => (.text (String.ofList t), r)
    | 't' :: 'r' :: 'u' :: 'e' :: r => some (.bool true, r)
    | 'f' :: 'a' :: 'l' :: 's' :: 'e' :: r => some (.bool false, r)
    | '[' :: r =>
      if depth ≤ 1 then none
      else (readElements fuel (depth - 1) (skipGaps r.length r)).map fun (xs, r) => (.array xs, r)
    | '\x7b' :: r =>
      if depth ≤ 1 then none
      else match skipBlanks r with
        | '\x7d' :: r => some (.table .inPlace [], r)
        | r => (readPairs fuel (depth - 1) [] r).map fun (t, r) => (.table .inPlace t, r)
    | _ =>
      match readMoment s with
      | some found => some found
      | none => readNumber s

/-- The elements of an array up to and with its closing bracket. -/
def readElements (fuel depth : Nat) (s : List Char) : Option (List Item × List Char) :=
  match fuel with
  | 0 => none
  | fuel + 1 =>
    match s with
    | ']' :: r => some ([], r)
    | _ =>
      match readValue fuel depth s with
      | none => none
      | some (v, r) =>
        match skipGaps r.length r with
        | ',' :: r =>
          (readElements fuel depth (skipGaps r.length r)).map fun (vs, r) => (v :: vs, r)
        | ']' :: r => some ([v], r)
        | _ => none

/-- The pairs of a table written in place, up to and with its closing brace. -/
def readPairs (fuel depth : Nat) (t : Table) (s : List Char) : Option (Table × List Char) :=
  match fuel with
  | 0 => none
  | fuel + 1 =>
    match readPath s with
    | some (key, '=' :: r) =>
      match readValue fuel depth (skipBlanks r) with
      | none => none
      | some (v, r) =>
        match addDotted .inPlace key v t with
        | none => none
        | some t =>
          match skipBlanks r with
          | ',' :: r => readPairs fuel depth t r
          | '\x7d' :: r => some (t, r)
          | _ => none
    | _ => none

end

/-- What ends a line after its content. -/
def endLine? (s : List Char) : Option (List Char) :=
  match skipComment (skipBlanks s) with
  | [] => some []
  | r => dropLineEnd? r

/-- A document as far as it is read: all its tables, and the path of the table that pairs go to. -/
structure Draft where
  root : Table
  path : List String

def Draft.openHeader (d : Draft) (key : List String) (element : Bool) : Option Draft :=
  match key.getLast? with
  | none => none
  | some last =>
    let f := if element then openElement last else openTable last
    (under f key.dropLast d.root).map fun root => ⟨root, key⟩

def Draft.add (d : Draft) (key : List String) (v : Item) : Option Draft :=
  (under (addDotted .header key v) d.path d.root).map fun root => { d with root := root }

/-- A header and the rest of its line. -/
def readHeader (d : Draft) (s : List Char) : Option (Draft × List Char) :=
  match s with
  | '[' :: r =>
    match readPath r with
    | some (key, ']' :: ']' :: r) =>
      (d.openHeader key true).bind fun d => (endLine? r).map fun r => (d, r)
    | _ => none
  | _ =>
    match readPath s with
    | some (key, ']' :: r) =>
      (d.openHeader key false).bind fun d => (endLine? r).map fun r => (d, r)
    | _ => none

/-- A pair and the rest of its line. -/
def readPair (d : Draft) (s : List Char) : Option (Draft × List Char) :=
  match readPath s with
  | some (key, '=' :: r) =>
    match readValue (2 * r.length + 2) depthBound (skipBlanks r) with
    | some (v, r) => (d.add key v).bind fun d => (endLine? r).map fun r => (d, r)
    | none => none
  | _ => none

/-- The lines of a document. -/
def readLines : Nat → Draft → List Char → Option Draft
  | 0, _, _ => none
  | fuel + 1, d, s =>
    match skipBlanks s with
    | [] => some d
    | '[' :: r => (readHeader d r).bind fun (d, r) => readLines fuel d r
    | '#' :: r => (endLine? ('#' :: r)).bind fun r => readLines fuel d r
    | s =>
      match dropLineEnd? s with
      | some r => readLines fuel d r
      | none => (readPair d s).bind fun (d, r) => readLines fuel d r

def dropMark : List Char → List Char
  | '\uFEFF' :: r => r
  | s => s

/-- The tables of a document, or none if it is malformed. -/
def read (s : List Char) : Option Table :=
  (readLines (s.length + 1) ⟨[], []⟩ (dropMark s)).map Draft.root

end Montage.Toml
