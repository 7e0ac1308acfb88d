/-!
Reading a quoted string. A string that cannot be read has one flaw, at the number of bytes read when
it was found. Main statement: reading an escape leaves a rest no longer than what it was given.
-/

namespace Montage.Json

inductive Flaw where
  | openString
  | badEscape
  | controlCharacter
  | loneSurrogate
  | endedEscape
  | trailing
deriving DecidableEq, Repr

def Flaw.message : Flaw → String
  | .openString => "EOF while parsing a string"
  | .badEscape => "invalid escape"
  | .controlCharacter => "control character (\\u0000-\\u001F) found while parsing a string"
  | .loneSurrogate => "lone leading surrogate in hex escape"
  | .endedEscape => "unexpected end of hex escape"
  | .trailing => "trailing characters"

structure Fault where
  flaw : Flaw
  offset : Nat
deriving DecidableEq, Repr

def byteLength (s : List Char) : Nat :=
  s.foldl (fun n c => n + c.utf8Size) 0

/-- Line and column after a number of bytes; the column counts bytes since the line began. -/
def position (s : List Char) (offset : Nat) : Nat × Nat :=
  go s offset 1 0
where
  go : List Char → Nat → Nat → Nat → Nat × Nat
    | [], _, line, column => (line, column)
    | c :: r, left, line, column =>
      if left < c.utf8Size then (line, column + left)
      else if c = '\n' then go r (left - 1) (line + 1) 0
      else go r (left - c.utf8Size) line (column + c.utf8Size)

def Fault.message (fault : Fault) (source : List Char) : String :=
  let (line, column) := position source fault.offset
  fault.flaw.message ++ " at line " ++ toString line ++ " column " ++ toString column

def hexValue? (c : Char) : Option Nat :=
  if c.isDigit then some (c.toNat - '0'.toNat)
  else if 'a' ≤ c && c ≤ 'f' then some (c.toNat - 'a'.toNat + 10)
  else if 'A' ≤ c && c ≤ 'F' then some (c.toNat - 'A'.toNat + 10)
  else none

/-- Four hexadecimal digits as one number. -/
def hexFour? (a b c d : Char) : Option Nat :=
  match hexValue? a, hexValue? b, hexValue? c, hexValue? d with
  | some a, some b, some c, some d => some (((a * 16 + b) * 16 + c) * 16 + d)
  | _, _, _, _ => none

/-- What a reading step found, and the text and byte count where it stopped. -/
structure Found (α : Type) where
  value : α
  rest : List Char
  offset : Nat

/-- A code unit written by four hexadecimal digits; the digits are looked for in four bytes. -/
def readUnit (s : List Char) (offset : Nat) : Except Fault (Found Nat) :=
  let flawed : Except Fault (Found Nat) :=
    if byteLength s < 4 then .error ⟨.openString, offset + byteLength s⟩
    else .error ⟨.badEscape, offset + 4⟩
  match s with
  | a :: b :: c :: d :: r =>
    match hexFour? a b c d with
    | some n => .ok ⟨n, r, offset + 4⟩
    | none => flawed
  | _ => flawed

def isLeading (n : Nat) : Bool :=
  0xD800 ≤ n && n ≤ 0xDBFF

def isTrailing (n : Nat) : Bool :=
  0xDC00 ≤ n && n ≤ 0xDFFF

/-- The second half of a pair of code units, after its leading one. -/
def readTrailing (lead : Nat) (s : List Char) (offset : Nat) : Except Fault (Found Char) :=
  match s with
  | [] => .error ⟨.openString, offset⟩
  | a :: r =>
    if a ≠ '\\' then .error ⟨.endedEscape, offset + 1⟩
    else match r with
      | [] => .error ⟨.openString, offset + 1⟩
      | b :: r =>
        if b ≠ 'u' then .error ⟨.endedEscape, offset + 2⟩
        else match readUnit r (offset + 2) with
          | .error e => .error e
          | .ok low =>
            if isTrailing low.value then
              .ok ⟨Char.ofNat ((lead - 0xD800) * 1024 + (low.value - 0xDC00) + 0x10000),
                low.rest, low.offset⟩
            else .error ⟨.loneSurrogate, low.offset⟩

/-- A code point written by one code unit or by a pair. -/
def readCodePoint (s : List Char) (offset : Nat) : Except Fault (Found Char) :=
  match readUnit s offset with
  | .error e => .error e
  | .ok u =>
    if isTrailing u.value then .error ⟨.loneSurrogate, u.offset⟩
    else if isLeading u.value then readTrailing u.value u.rest u.offset
    else .ok ⟨Char.ofNat u.value, u.rest, u.offset⟩

def simpleEscape? (c : Char) : Option Char :=
  if c = '"' || c = '\\' || c = '/' then some c
  else if c = 'b' then some '\x08'
  else if c = 'f' then some '\x0c'
  else if c = 'n' then some '\n'
  else if c = 'r' then some '\r'
  else if c = 't' then some '\t'
  else none

/-- The character written after a backslash. -/
def readEscape (s : List Char) (offset : Nat) : Except Fault (Found Char) :=
  match s with
  | [] => .error ⟨.openString, offset⟩
  | c :: r =>
    match simpleEscape? c with
    | some d => .ok ⟨d, r, offset + 1⟩
    | none => if c = 'u' then readCodePoint r (offset + 1) else .error ⟨.badEscape, offset + 1⟩

theorem length_readUnit {s : List Char} {n : Nat} {f : Found Nat} (h : readUnit s n = .ok f) :
    f.rest.length ≤ s.length := by
  unfold readUnit at h
  dsimp only at h
  split at h
  · split at h
    · cases h
      simp only [List.length_cons]
      omega
    · split at h <;> cases h
  · split at h <;> cases h

theorem length_readTrailing {lead : Nat} {s : List Char} {n : Nat} {f : Found Char}
    (h : readTrailing lead s n = .ok f) : f.rest.length ≤ s.length := by
  unfold readTrailing at h
  split at h
  · cases h
  · split at h
    · cases h
    · split at h
      · cases h
      · split at h
        · cases h
        · split at h
          · cases h
          · next hu =>
            have := length_readUnit hu
            split at h
            · injection h with h
              subst h
              simp only [List.length_cons]
              omega
            · injection h

theorem length_readCodePoint {s : List Char} {n : Nat} {f : Found Char}
    (h : readCodePoint s n = .ok f) : f.rest.length ≤ s.length := by
  unfold readCodePoint at h
  split at h
  · cases h
  · next hu =>
    have hl := length_readUnit hu
    split at h
    · cases h
    · split at h
      · exact Nat.le_trans (length_readTrailing h) hl
      · cases h
        exact hl

theorem length_readEscape {s : List Char} {n : Nat} {f : Found Char}
    (h : readEscape s n = .ok f) : f.rest.length ≤ s.length := by
  unfold readEscape at h
  split at h
  · cases h
  · split at h
    · cases h
      simp
    · split at h
      · have := length_readCodePoint h
        simp only [List.length_cons]
        omega
      · cases h

/-- A string after its opening quote, up to and with its closing quote. -/
def readBody (s : List Char) (offset : Nat) : Except Fault (Found (List Char)) :=
  match s with
  | [] => .error ⟨.openString, offset⟩
  | c :: r =>
    if c = '"' then .ok ⟨[], r, offset + 1⟩
    else if c = '\\' then
      match _h : readEscape r (offset + 1) with
      | .error e => .error e
      | .ok f =>
        match readBody f.rest f.offset with
        | .error e => .error e
        | .ok b => .ok { b with value := f.value :: b.value }
    else if c.toNat < 32 then .error ⟨.controlCharacter, offset + 1⟩
    else
      match readBody r (offset + c.utf8Size) with
      | .error e => .error e
      | .ok b => .ok { b with value := c :: b.value }
termination_by s.length
decreasing_by
  · have := length_readEscape _h
    simp only [List.length_cons]
    omega
  · simp

end Montage.Json
