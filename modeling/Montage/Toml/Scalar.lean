import Montage.Text.Numeral
import Montage.Json.Quoted
import Montage.Toml.Document

/-!
The scalars of TOML: keys, strings, numbers, dates and times. Each reader takes a value from the
start of a text and tells what follows it.
-/

namespace Montage.Toml

abbrev Reader (α : Type) := List Char → Option (α × List Char)

def isBlank (c : Char) : Bool :=
  c == ' ' || c == '\t'

def skipBlanks (s : List Char) : List Char :=
  s.dropWhile isBlank

/-- Characters that may stand in comments and literal strings. -/
def isPrintable (c : Char) : Bool :=
  c == '\t' || (32 ≤ c.toNat && c.toNat != 127)

def isBareKey (c : Char) : Bool :=
  c.isAlphanum || c == '-' || c == '_'

/-- A line end: a line feed, or a carriage return and a line feed. -/
def dropLineEnd? : List Char → Option (List Char)
  | '\n' :: r => some r
  | '\r' :: '\n' :: r => some r
  | _ => none

def hexNumber? (ds : List Char) : Option Nat :=
  ds.foldl (fun n c => n.bind fun n => (Json.hexValue? c).map fun d => n * 16 + d) (some 0)

/-- A code point of so many hexadecimal digits; surrogates are none. -/
def readCode (digits : Nat) : Reader Char := fun s =>
  let ds := s.take digits
  if ds.length < digits then none
  else match hexNumber? ds with
    | none => none
    | some n =>
      if n < 0xD800 || (0xDFFF < n && n < 0x110000) then some (Char.ofNat n, s.drop digits) else none

def readEscape : Reader Char
  | 'b' :: r => some ('\x08', r)
  | 't' :: r => some ('\t', r)
  | 'n' :: r => some ('\n', r)
  | 'f' :: r => some ('\x0c', r)
  | 'r' :: r => some ('\r', r)
  | '"' :: r => some ('"', r)
  | '\\' :: r => some ('\\', r)
  | 'u' :: r => readCode 4 r
  | 'U' :: r => readCode 8 r
  | _ => none

/-- A string of one line after its opening quote. -/
def readBasic : Nat → Reader (List Char)
  | 0, _ => none
  | fuel + 1, s =>
    match s with
    | '"' :: r => some ([], r)
    | '\\' :: r => (readEscape r).bind fun (c, r) =>
        (readBasic fuel r).map fun (cs, r) => (c :: cs, r)
    | c :: r => if isPrintable c then (readBasic fuel r).map fun (cs, r) => (c :: cs, r) else none
    | [] => none

def readLiteral : Reader (List Char)
  | [] => none
  | c :: r =>
    if c = '\'' then some ([], r)
    else if isPrintable c then (readLiteral r).map fun (cs, r) => (c :: cs, r)
    else none

/-- The end of a string of several lines: three quotes, before which up to two more belong to it. -/
def closing? (q : Char) (s : List Char) : Option (List Char × List Char) :=
  let n := (s.takeWhile (· == q)).length
  if n < 3 then none
  else
    let own := min (n - 3) 2
    some (List.replicate own q, s.drop (own + 3))

/-- Skips blanks and line ends. -/
def skipLines : Nat → List Char → List Char
  | 0, s => s
  | fuel + 1, s =>
    match dropLineEnd? (skipBlanks s) with
    | some r => skipLines fuel r
    | none => skipBlanks s

/-- What follows a backslash that ends its line. -/
def joinedLine? (s : List Char) : Option (List Char) :=
  (dropLineEnd? (skipBlanks s)).map fun r => skipLines r.length r

/-- A string of several lines after its opening quotes. -/
def readLong (q : Char) (escapes : Bool) : Nat → Reader (List Char)
  | 0, _ => none
  | fuel + 1, s =>
    match closing? q s with
    | some found => some found
    | none =>
      match dropLineEnd? s with
      | some r => (readLong q escapes fuel r).map fun (cs, r) => ('\n' :: cs, r)
      | none =>
        match s with
        | [] => none
        | c :: r =>
          if c == '\\' && escapes then
            match joinedLine? r with
            | some r => readLong q escapes fuel r
            | none => (readEscape r).bind fun (c, r) =>
                (readLong q escapes fuel r).map fun (cs, r) => (c :: cs, r)
          else if isPrintable c then
            (readLong q escapes fuel r).map fun (cs, r) => (c :: cs, r)
          else none

def dropFirstLineEnd (s : List Char) : List Char :=
  (dropLineEnd? s).getD s

def readText : Reader (List Char)
  | '"' :: '"' :: '"' :: r => readLong '"' true (r.length + 1) (dropFirstLineEnd r)
  | '\'' :: '\'' :: '\'' :: r => readLong '\'' false (r.length + 1) (dropFirstLineEnd r)
  | '"' :: r => readBasic (r.length + 1) r
  | '\'' :: r => readLiteral r
  | _ => none

/-- A part of a key: bare or quoted on one line. -/
def readKeyPart : Reader String := fun s =>
  match s with
  | '"' :: r => (readBasic (r.length + 1) r).map fun (cs, r) => (String.ofList cs, r)
  | '\'' :: r => (readLiteral r).map fun (cs, r) => (String.ofList cs, r)
  | _ =>
    let key := s.takeWhile isBareKey
    if key.isEmpty then none else some (String.ofList key, s.drop key.length)

/-- The parts of a key with points between them, and blanks around each. -/
def readKey : Nat → Reader (List String)
  | 0, _ => none
  | fuel + 1, s =>
    (readKeyPart (skipBlanks s)).bind fun (part, r) =>
      match skipBlanks r with
      | '.' :: r => (readKey fuel r).map fun (parts, r) => (part :: parts, r)
      | r => some ([part], r)

/-- Digits of a base; a single underscore may stand between two. -/
def readDigits (isDigit : Char → Bool) : Reader (List Char)
  | [] => none
  | c :: r =>
    if !isDigit c then none
    else match r with
      | '_' :: d :: r' =>
        if isDigit d then (readDigits isDigit (d :: r')).map fun (ds, r) => (c :: ds, r)
        else some ([c], r)
      | d :: r' =>
        if isDigit d then (readDigits isDigit (d :: r')).map fun (ds, r) => (c :: ds, r)
        else some ([c], r)
      | [] => some ([c], [])

/-- Decimal digits without a leading zero, except zero itself. -/
def readWhole : Reader (List Char)
  | '0' :: r => some (['0'], r)
  | s => readDigits Char.isDigit s

def readSign : List Char → Bool × List Char
  | '-' :: r => (true, r)
  | '+' :: r => (false, r)
  | r => (false, r)

def wholeItem (negative : Bool) (n : Nat) : Option Item :=
  if n < twoTo 63 || (negative && n == twoTo 63) then
    some (.int (if negative then -(n : Int) else n))
  else none

def baseItem (isDigit : Char → Bool) (base : Nat) : Reader Item := fun s =>
  (readDigits isDigit s).bind fun (ds, r) =>
    let n := ds.foldl (fun n c => n * base + (Json.hexValue? c).getD 0) 0
    (wholeItem false n).map fun v => (v, r)

def isHexDigit (c : Char) : Bool := (Json.hexValue? c).isSome

def isOctalDigit (c : Char) : Bool := '0' ≤ c && c ≤ '7'

def isBinaryDigit (c : Char) : Bool := c == '0' || c == '1'

/-- The exponent of a number, if one follows. -/
def readPower (s : List Char) : Option (Int × List Char) :=
  let (negative, r) := readSign s
  (readDigits Char.isDigit r).map fun (ds, r) =>
    let n : Int := Text.digitsValue ds
    (if negative then -n else n, r)

/-- Powers of ten beyond this decide a number's size alone. -/
def powerBound : Int := 100000

/-- A number with a fraction or an exponent; one too great above is refused. -/
def floatItem (negative : Bool) (digits : List Char) (power : Int) : Option Item :=
  let n := Text.digitsValue digits
  if n == 0 then some (.float (some (Binary64.zero negative)))
  else
    let power := max (-powerBound) (min powerBound power)
    match Binary64.ofDecimal negative n power with
    | some x => some (.float (some x))
    | none => if negative then some (.float none) else none

/-- What follows the whole part of a number. -/
def readNumberRest (negative : Bool) (whole : List Char) (s : List Char) :
    Option (Item × List Char) :=
  let power := fun (digits : List Char) (scale : Int) (r : List Char) =>
    (readPower r).bind fun (p, r) => (floatItem negative digits (p - scale)).map fun v => (v, r)
  match s with
  | '.' :: r =>
    (readDigits Char.isDigit r).bind fun (ds, r) =>
      match r with
      | 'e' :: r => power (whole ++ ds) ds.length r
      | 'E' :: r => power (whole ++ ds) ds.length r
      | r => (floatItem negative (whole ++ ds) (-(ds.length : Int))).map fun v => (v, r)
  | 'e' :: r => power whole 0 r
  | 'E' :: r => power whole 0 r
  | r => (wholeItem negative (Text.digitsValue whole)).map fun v => (v, r)

def readNumber (s : List Char) : Option (Item × List Char) :=
  match s with
  | '0' :: 'x' :: r => baseItem isHexDigit 16 r
  | '0' :: 'o' :: r => baseItem isOctalDigit 8 r
  | '0' :: 'b' :: r => baseItem isBinaryDigit 2 r
  | _ =>
    let (negative, r) := readSign s
    match r with
    | 'i' :: 'n' :: 'f' :: r => some (.float none, r)
    | 'n' :: 'a' :: 'n' :: r => some (.float none, r)
    | r => (readWhole r).bind fun (whole, r) => readNumberRest negative whole r

/-- A number of exactly so many digits, within bounds. -/
def readFixed (digits low high : Nat) : Reader Nat := fun s =>
  let ds := s.take digits
  if ds.length < digits || !ds.all Char.isDigit then none
  else
    let n := Text.digitsValue ds
    if low ≤ n && n ≤ high then some (n, s.drop digits) else none

def expect (c : Char) : Reader Unit
  | d :: r => if c = d then some ((), r) else none
  | [] => none

def isLeapYear (y : Nat) : Bool :=
  y % 4 == 0 && (y % 100 != 0 || y % 400 == 0)

def daysIn (year month : Nat) : Nat :=
  if month == 2 then if isLeapYear year then 29 else 28
  else if month == 4 || month == 6 || month == 9 || month == 11 then 30
  else 31

/-- Drops a date. -/
def dropDate? (s : List Char) : Option (List Char) := do
  let (year, s) ← readFixed 4 0 9999 s
  let (_, s) ← expect '-' s
  let (month, s) ← readFixed 2 1 12 s
  let (_, s) ← expect '-' s
  let (_, s) ← readFixed 2 1 (daysIn year month) s
  return s

/-- Drops a time of day. -/
def dropTime? (s : List Char) : Option (List Char) := do
  let (_, s) ← readFixed 2 0 23 s
  let (_, s) ← expect ':' s
  let (_, s) ← readFixed 2 0 59 s
  let (_, s) ← expect ':' s
  let (_, s) ← readFixed 2 0 60 s
  match s with
  | '.' :: r =>
    let ds := r.takeWhile Char.isDigit
    if ds.isEmpty then none else return r.drop ds.length
  | r => return r

/-- Drops the offset of a time, if one follows. -/
def dropOffset? (s : List Char) : Option (List Char) :=
  match s with
  | 'Z' :: r => some r
  | 'z' :: r => some r
  | c :: r =>
    if c == '+' || c == '-' then do
      let (_, r) ← readFixed 2 0 23 r
      let (_, r) ← expect ':' r
      let (_, r) ← readFixed 2 0 59 r
      return r
    else some s
  | [] => some []

/-- Drops what may follow a date: a time of day, with or without an offset. -/
def dropDateRest? (s : List Char) : Option (List Char) :=
  match s with
  | c :: r =>
    if c == 'T' || c == 't' || c == ' ' then
      match dropTime? r with
      | some r => dropOffset? r
      | none => if c == ' ' then some s else none
    else some s
  | [] => some []

def readMoment (s : List Char) : Option (Item × List Char) :=
  match dropDate? s with
  | some r => (dropDateRest? r).map fun r => (.time, r)
  | none => (dropTime? s).map fun r => (.time, r)

end Montage.Toml
