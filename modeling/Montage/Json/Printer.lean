import Montage.Json.Value

/-!
Written forms of data: compact, without any blank, and indented by two spaces a level. Strings
escape quotes, backslashes and control characters below the space, and nothing else.
-/

namespace Montage.Json

def hexDigit (n : Nat) : Char :=
  if n < 10 then Char.ofNat ('0'.toNat + n) else Char.ofNat ('a'.toNat + (n - 10))

def escapeChar (c : Char) : List Char :=
  if c = '"' then ['\\', '"']
  else if c = '\\' then ['\\', '\\']
  else if c = '\n' then ['\\', 'n']
  else if c = '\r' then ['\\', 'r']
  else if c = '\t' then ['\\', 't']
  else if c = '\x08' then ['\\', 'b']
  else if c = '\x0c' then ['\\', 'f']
  else if c.toNat < 32 then ['\\', 'u', '0', '0', hexDigit (c.toNat / 16), hexDigit (c.toNat % 16)]
  else [c]

def quoted (s : List Char) : List Char :=
  '"' :: (s.flatMap escapeChar ++ ['"'])

def quotedString (s : String) : List Char :=
  quoted s.toList

namespace Value

mutual

def compactChars : Value → List Char
  | .null => "null".toList
  | .bool b => if b then "true".toList else "false".toList
  | .num n => n.text
  | .str s => quotedString s
  | .arr xs => '[' :: (compactItems xs ++ [']'])
  | .obj fs => '\x7b' :: (compactFields fs ++ ['\x7d'])

def compactItems : List Value → List Char
  | [] => []
  | x :: xs => compactChars x ++ compactMore xs

def compactMore : List Value → List Char
  | [] => []
  | x :: xs => ',' :: (compactChars x ++ compactMore xs)

def compactFields : List (String × Value) → List Char
  | [] => []
  | (k, v) :: fs => quotedString k ++ ':' :: (compactChars v ++ compactMoreFields fs)

def compactMoreFields : List (String × Value) → List Char
  | [] => []
  | (k, v) :: fs => ',' :: (quotedString k ++ ':' :: (compactChars v ++ compactMoreFields fs))

end

def compact (v : Value) : String :=
  String.ofList v.compactChars

/-- Ends a line and indents the next. -/
def newLine (level : Nat) : List Char :=
  '\n' :: List.replicate (2 * level) ' '

mutual

def indentedChars (level : Nat) : Value → List Char
  | .arr [] => ['[', ']']
  | .arr (x :: xs) =>
    '[' :: (newLine (level + 1) ++ indentedChars (level + 1) x ++ indentedMore (level + 1) xs ++
      newLine level ++ [']'])
  | .obj [] => ['\x7b', '\x7d']
  | .obj ((k, v) :: fs) =>
    '\x7b' :: (newLine (level + 1) ++ quotedString k ++ [':', ' '] ++
      indentedChars (level + 1) v ++ indentedMoreFields (level + 1) fs ++ newLine level ++ ['\x7d'])
  | .null => "null".toList
  | .bool b => if b then "true".toList else "false".toList
  | .num n => n.text
  | .str s => quotedString s

def indentedMore (level : Nat) : List Value → List Char
  | [] => []
  | x :: xs => ',' :: (newLine level ++ indentedChars level x ++ indentedMore level xs)

def indentedMoreFields (level : Nat) : List (String × Value) → List Char
  | [] => []
  | (k, v) :: fs =>
    ',' :: (newLine level ++ quotedString k ++ [':', ' '] ++ indentedChars level v ++
      indentedMoreFields level fs)

end

def indented (v : Value) : String :=
  String.ofList (v.indentedChars 0)

/-- What a value shows: a string itself, null nothing, anything else its written form. -/
def display : Value → String
  | .null => ""
  | .str s => s
  | v => v.compact

end Value

end Montage.Json
