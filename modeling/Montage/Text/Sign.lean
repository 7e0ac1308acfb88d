import Montage.Text.EmojiTable

/-!
How a text begins, as far as the character before it can tell. Some characters are shown together
with what follows them as one sign: letters in a ligature, a pictograph with its selector, skin tone
and joiner, flag letters, tags. A text is therefore read from its end, and for each place it is
enough to remember its `Ahead`.
-/

namespace Montage.Text

/-- What a text begins with, so far as characters before it may still join it. -/
inductive Sign where
  | ordinary
  | lineFeed
  | pictograph
  | skinTone
  | flagLetter
  | flagLetters
  /-- A joiner, with a pictograph after it. -/
  | joined
  | joinedKeycap
  /-- One flag letter before `joined`. -/
  | joinedFlagLetter
  /-- An even number of flag letters before `joined`. -/
  | evenJoinedFlags
  /-- An odd number of flag letters, three or more, before `joined`. -/
  | oddJoinedFlags
  /-- So many tag letters before the end of a tag that a joiner follows. -/
  | tagLetters (count : Nat)
  /-- So many tag digits before `tagLetters`. -/
  | tagDigits (count : Nat)
  | alef
  | lamed (joined : Bool)
  | bugineseYa (joined : Bool)
  | bugineseVowelYa
  | tifinagh (joined : Bool)
  | tifinaghStack
  | lisuTone
  | orkhonI (joined : Bool)
  | khmerSubscript
  | kiratE
  | kiratAi
deriving DecidableEq

/-- The sign that a text begins with, and the forms that selectors in front of it ask of the
character before them. -/
structure Ahead where
  sign : Sign := .ordinary
  colour : Bool := false
  plain : Bool := false
  wide : Bool := false
deriving DecidableEq

namespace Sign

def ahead (s : Sign) : Ahead :=
  { sign := s }

/-- Letters that form a ligature across a joiner or selector. -/
def crossesSelector : Sign → Bool
  | .lamed _ | .bugineseYa _ | .bugineseVowelYa | .tifinagh _ | .tifinaghStack | .lisuTone
  | .orkhonI _ | .khmerSubscript | .kiratE | .kiratAi => true
  | _ => false

/-- Letters that a selector before them leaves in mind. -/
def outlastsSelector (s : Sign) : Bool :=
  s == .alef || s.crossesSelector

def isJoined (s : Sign) : Bool :=
  s == .joined || s == .joinedKeycap

/-- A joiner before the letter. -/
def join : Sign → Sign
  | .lamed _ => .lamed true
  | .bugineseYa _ => .bugineseYa true
  | .tifinagh _ => .tifinagh true
  | .orkhonI _ => .orkhonI true
  | s => s

end Sign

namespace Ahead

/-- A selector of the coloured form, before `a`. -/
def askColour (a : Ahead) : Ahead :=
  if a.sign.outlastsSelector || a.sign.isJoined then { a with colour := true }
  else { colour := true }

/-- A selector of the plain form, before `a`. -/
def askPlain (a : Ahead) : Ahead :=
  if a.sign.outlastsSelector then { a with plain := true } else { plain := true }

/-- A selector of the wide form, before `a`. -/
def askWide (a : Ahead) : Ahead :=
  if a.sign.outlastsSelector then { a with wide := true } else { wide := true }

/-- What is left when the character before a colour selector has no coloured form. -/
def dropColour (a : Ahead) : Ahead :=
  if a.sign.outlastsSelector then { a with colour := false } else {}

end Ahead

def between (c : Char) (lo hi : Nat) : Bool :=
  lo ≤ c.toNat && c.toNat ≤ hi

def isFlagLetter (c : Char) : Bool :=
  between c 0x1F1E6 0x1F1FF

def isSkinTone (c : Char) : Bool :=
  between c 0x1F3FB 0x1F3FF

def isTifinagh (c : Char) : Bool :=
  between c 0x2D31 0x2D65 || c == '\u2D6F'

def isAlef (c : Char) : Bool :=
  between c 0x622 0x623 || c == '\u0625' || c == '\u0627' || between c 0x671 0x673 ||
    c == '\u0675' || between c 0x773 0x774 || between c 0x870 0x882

def isLam (c : Char) : Bool :=
  c == '\u0644' || between c 0x6B5 0x6B8 || c == '\u076A' || c == '\u08A6' || c == '\u08C7'

/-- Khmer letters that are written below another one after a subscript sign. -/
def hasSubscriptForm (c : Char) : Bool :=
  between c 0x1780 0x1782 || between c 0x1784 0x1787 || between c 0x1789 0x178C ||
    between c 0x178E 0x1793 || between c 0x1795 0x1798 || between c 0x179B 0x179D ||
    c == '\u17A0' || c == '\u17A2' || c == '\u17A7' || between c 0x17AB 0x17AC || c == '\u17AF'

/-- What a character alone is to those before it. -/
def aheadOf (c : Char) : Ahead :=
  if c.toNat < 0x5D0 then {}
  else if c == '\uFE0F' then { colour := true }
  else if c == '\uFE0E' then { plain := true }
  else if c == '\uFE01' then { wide := true }
  else if isFlagLetter c then Sign.flagLetter.ahead
  else if isSkinTone c then Sign.skinTone.ahead
  else if inRanges emojiPresentationRanges c then Sign.pictograph.ahead
  else if isAlef c then Sign.alef.ahead
  else if c == '\u05DC' then (Sign.lamed false).ahead
  else if hasSubscriptForm c then Sign.khmerSubscript.ahead
  else if c == '\u1A10' then (Sign.bugineseYa false).ahead
  else if isTifinagh c then (Sign.tifinagh false).ahead
  else if between c 0xA4FC 0xA4FD then Sign.lisuTone.ahead
  else if c.toNat == 0x10C03 then (Sign.orkhonI false).ahead
  else if c.toNat == 0x16D67 then Sign.kiratE.ahead
  else if c.toNat == 0x16D68 then Sign.kiratAi.ahead
  else {}

end Montage.Text
