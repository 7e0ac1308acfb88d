import Montage.Json.Quoted
import Montage.Json.Value

/-!
Reading data from text. Whole numbers that do not fit, and numbers with a fraction or an exponent,
become floating point: the digits that fit into 64 bits are rounded once and then multiplied or
divided by a power of ten. Values nest less than 128 levels deep.
-/

namespace Montage.Json

def isSpace (c : Char) : Bool :=
  c == ' ' || c == '\n' || c == '\t' || c == '\r'

def skipSpace (s : List Char) : List Char :=
  s.dropWhile isSpace

/-- A whole text that is one quoted string. -/
def readString (s : List Char) : Except Fault (List Char) :=
  match s with
  | [] => .error ⟨.openString, 0⟩
  | _ :: r =>
    match readBody r 1 with
    | .error e => .error e
    | .ok b =>
      let rest := skipSpace b.rest
      if rest.isEmpty then .ok b.value
      else .error ⟨.trailing, b.offset + (b.rest.length - rest.length) + 1⟩

namespace Number

def startsWithDigit : List Char → Bool
  | c :: _ => c.isDigit
  | [] => false

/-- Takes digits into a significand while it stays below 64 bits: the significand, the number of
digits taken, and the rest. -/
def absorb (sig count : Nat) : List Char → Nat × Nat × List Char
  | [] => (sig, count, [])
  | c :: r =>
    if c.isDigit && sig * 10 + Text.digitValue c < twoTo 64 then
      absorb (sig * 10 + Text.digitValue c) (count + 1) r
    else (sig, count, c :: r)

def powerOfTen (k : Nat) : Binary64 :=
  (Binary64.ofQuotient false (tenTo k) 1).getD (Binary64.zero false)

/-- Multiplies or divides by a power of ten, which is at most `10 ^ 308` at a time. -/
def scale : Nat → Binary64 → Int → Option Binary64
  | 0, x, _ => some x
  | fuel + 1, x, power =>
    if power.natAbs ≤ 308 then
      if 0 ≤ power then x.mul (powerOfTen power.natAbs) else x.div (powerOfTen power.natAbs)
    else if x.isZero then some x
    else if 0 ≤ power then none
    else (x.div (powerOfTen 308)).bind (scale fuel · (power + 308))

def ofParts (negative : Bool) (sig : Nat) (power : Int) : Option Number :=
  (Binary64.ofNat sig).bind fun x =>
    (scale 4 x power).map fun y => .float (if negative then y.negate else y)

/-- A whole number, unless it is too small to be one or is minus zero. -/
def ofInteger (negative : Bool) (sig : Nat) : Number :=
  if !negative then .int sig
  else if sig == 0 || twoTo 63 < sig then
    .float (((Binary64.ofNat sig).getD (Binary64.zero false)).negate)
  else .int (-(sig : Int))

def exponentBound : Nat := twoTo 31

/-- Digits of an exponent, or none once they pass 31 bits. -/
def absorbExponent (n : Nat) : List Char → Option (Nat × List Char)
  | [] => some (n, [])
  | c :: r =>
    if c.isDigit then
      if n * 10 + Text.digitValue c < exponentBound then
        absorbExponent (n * 10 + Text.digitValue c) r
      else none
    else some (n, c :: r)

def clampPower (p : Int) : Int :=
  max (-(exponentBound : Int)) (min ((exponentBound : Int) - 1) p)

/-- What follows the mark of an exponent. -/
def readExponent (negative : Bool) (sig : Nat) (power : Int) (s : List Char) :
    Option (Number × List Char) :=
  let (down, ds) := match s with
    | '-' :: r => (true, r)
    | '+' :: r => (false, r)
    | r => (false, r)
  if !startsWithDigit ds then none
  else match absorbExponent 0 ds with
    | some (n, rest) =>
      let power := clampPower (if down then power - n else power + n)
      (ofParts negative sig power).map (·, rest)
    | none =>
      if sig != 0 && !down then none
      else some (.float (Binary64.zero negative), ds.dropWhile Char.isDigit)

/-- What follows the digits: an exponent, or the end of the number. -/
def readTail (negative : Bool) (sig : Nat) (power : Int) (s : List Char) :
    Option (Number × List Char) :=
  match s with
  | c :: r =>
    if c == 'e' || c == 'E' then readExponent negative sig power r
    else (ofParts negative sig power).map (·, s)
  | [] => (ofParts negative sig power).map (·, s)

/-- What follows the point: at least one digit, unless the significand is full already. -/
def readFraction (negative : Bool) (sig : Nat) (power : Int) (s : List Char) :
    Option (Number × List Char) :=
  let (sig, count, rest) := absorb sig 0 s
  if startsWithDigit rest then
    readTail negative sig (power - count) (rest.dropWhile Char.isDigit)
  else if count == 0 then none
  else readTail negative sig (power - count) rest

/-- What follows the whole part. -/
def readRest (negative : Bool) (sig extra : Nat) (s : List Char) : Option (Number × List Char) :=
  match s with
  | '.' :: r => readFraction negative sig extra r
  | c :: _ =>
    if c == 'e' || c == 'E' || extra != 0 then readTail negative sig extra s
    else some (ofInteger negative sig, s)
  | [] => if extra != 0 then readTail negative sig extra s else some (ofInteger negative sig, s)

/-- A number after its sign. A leading zero stands alone. -/
def read (negative : Bool) (s : List Char) : Option (Number × List Char) :=
  match s with
  | '0' :: r => if startsWithDigit r then none else readRest negative 0 0 r
  | _ =>
    if !startsWithDigit s then none
    else
      let (sig, _, rest) := absorb 0 0 s
      let extra := rest.takeWhile Char.isDigit
      readRest negative sig extra.length (rest.drop extra.length)

end Number

namespace Value

def dropWord (word s : List Char) : Option (List Char) :=
  if word.isPrefixOf s then some (s.drop word.length) else none

/-- Values nest less than this many levels deep. -/
def depthBound : Nat := 128

mutual

/-- One value at the start of a text, and what follows it. -/
def readValue (fuel depth : Nat) (s : List Char) : Option (Value × List Char) :=
  match fuel with
  | 0 => none
  | fuel + 1 =>
    match skipSpace s with
    | [] => none
    | c :: r =>
      if c = '"' then
        match readBody r 0 with
        | .ok b => some (.str (String.ofList b.value), b.rest)
        | .error _ => none
      else if c = '[' then
        if depth ≤ 1 then none
        else match skipSpace r with
          | ']' :: r => some (.arr [], r)
          | r => (readItems fuel (depth - 1) r).map fun p => (.arr p.1, p.2)
      else if c = '\x7b' then
        if depth ≤ 1 then none
        else match skipSpace r with
          | '\x7d' :: r => some (.obj [], r)
          | r => (readFields fuel (depth - 1) r).map fun p => (.obj (Fields.ofList p.1), p.2)
      else if c = '-' then (Number.read true r).map fun p => (.num p.1, p.2)
      else if c.isDigit then (Number.read false (c :: r)).map fun p => (.num p.1, p.2)
      else if c = 'n' then (dropWord "null".toList (c :: r)).map fun r => (.null, r)
      else if c = 't' then (dropWord "true".toList (c :: r)).map fun r => (.bool true, r)
      else if c = 'f' then (dropWord "false".toList (c :: r)).map fun r => (.bool false, r)
      else none

/-- The elements of an array up to and with its closing bracket; there is at least one. -/
def readItems (fuel depth : Nat) (s : List Char) : Option (List Value × List Char) :=
  match fuel with
  | 0 => none
  | fuel + 1 =>
    match readValue fuel depth s with
    | none => none
    | some (v, r) =>
      match skipSpace r with
      | ',' :: r => (readItems fuel depth r).map fun p => (v :: p.1, p.2)
      | ']' :: r => some ([v], r)
      | _ => none

/-- The fields of an object up to and with its closing brace; there is at least one. -/
def readFields (fuel depth : Nat) (s : List Char) : Option (List (String × Value) × List Char) :=
  match fuel with
  | 0 => none
  | fuel + 1 =>
    match skipSpace s with
    | '"' :: r =>
      match readBody r 0 with
      | .error _ => none
      | .ok b =>
        match skipSpace b.rest with
        | ':' :: r =>
          match readValue fuel depth r with
          | none => none
          | some (v, r) =>
            match skipSpace r with
            | ',' :: r =>
              (readFields fuel depth r).map fun p => ((String.ofList b.value, v) :: p.1, p.2)
            | '\x7d' :: r => some ([(String.ofList b.value, v)], r)
            | _ => none
        | _ => none
    | _ => none

end

/-- A text that is one value, with blanks around it. -/
def read (s : List Char) : Option Value :=
  match readValue (2 * s.length + 2) depthBound s with
  | some (v, rest) => if (skipSpace rest).isEmpty then some v else none
  | none => none

end Value

end Montage.Json
