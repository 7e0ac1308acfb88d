import Montage.Text.WidthTable
import Montage.Text.Sign

/-!
Columns that a text takes on a terminal. The text is read from its end: each character takes its
columns by itself, or joins the sign that follows it and changes what that takes. Main statement: a
text of printable ASCII has one column a character.
-/

namespace Montage.Text

def isControl (c : Char) : Bool :=
  c.toNat < 32 || between c 127 159

/-- Columns of a character by itself; control characters have none to give. -/
def charWidth (c : Char) : Option Nat :=
  if isControl c then none
  else if c.toNat < 127 then some 1
  else if inRanges zeroWidthRanges c then some 0
  else if c.toNat == 0x17D8 then some 3
  else if inRanges wideRanges c then some 2
  else some 1

/-- A character that joins nothing. -/
def alone (c : Char) : Int × Ahead :=
  (((charWidth c).getD 1 : Nat), aheadOf c)

def colourSelector : Char := '\uFE0F'

def plainSelector : Char := '\uFE0E'

def wideSelector : Char := '\uFE01'

def joiner : Char := '\u200D'

def isQuotationMark (c : Char) : Bool :=
  between c 0x2018 0x2019 || between c 0x201C 0x201D

/-- Marks that ligatures of letters form across. -/
def isLigatureTransparent (c : Char) : Bool :=
  c == '\u034F' || between c 0x17B4 0x17B5 || between c 0x180B 0x180D || c == '\u180F' ||
    between c 0xFE00 0xFE0F || between c 0xE0100 0xE01EF

/-- Marks on a letter, across which lam and alef still join. -/
def isJoiningTransparent (c : Char) : Bool :=
  inRanges zeroWidthRanges c && !inRanges joiningBreakRanges c

def isTagLetter (c : Char) : Bool :=
  between c 0xE0061 0xE007A

def isTagDigit (c : Char) : Bool :=
  between c 0xE0030 0xE0039

def isBlackFlag (c : Char) : Bool :=
  c.toNat == 0x1F3F4

/-- What tag letters and digits, so many of each, become with `c` before them. -/
def tagged? (c : Char) (letters digits : Nat) : Option (Int × Sign) :=
  if isBlackFlag c && (digits == 3 || (digits == 0 && 3 ≤ letters)) then some (0, .pictograph)
  else if isTagLetter c && digits == 0 && letters < 6 then some (0, .tagLetters (letters + 1))
  else if isTagDigit c && digits < 3 && (digits != 0 || letters ≤ 4) then
    some (0, .tagDigits (digits + 1))
  else none

/-- What a joiner and pictograph become with `c` before them. -/
def joined? (c : Char) : Option (Int × Sign) :=
  if c == '\u20E3' then some (0, .joinedKeycap)
  else if isFlagLetter c then some (1, .joinedFlagLetter)
  else if isSkinTone c then some (0, .skinTone)
  else if c.toNat == 0xE007F then some (0, .tagLetters 0)
  else if inRanges emojiPresentationRanges c then some (0, .pictograph)
  else none

/-- What a letter of a script with ligatures becomes with `c` before it. -/
def ligature? (c : Char) : Sign → Option (Int × Sign)
  | .alef =>
    if isLam c then some (0, .ordinary)
    else if isJoiningTransparent c then some (0, .alef)
    else none
  | .lamed true => if c == '\u05D0' then some (0, .ordinary) else none
  | .khmerSubscript => if c == '\u17D2' then some (-1, .ordinary) else none
  | .bugineseYa true => if c == '\u1A17' then some (0, .bugineseVowelYa) else none
  | .bugineseVowelYa => if c == '\u1A15' then some (0, .ordinary) else none
  | .tifinagh isJoined =>
    if c == '\u2D7F' then some (1, .tifinaghStack)
    else if isJoined && isTifinagh c then some (0, .ordinary)
    else none
  | .tifinaghStack => if isTifinagh c then some (-1, .ordinary) else none
  | .lisuTone => if between c 0xA4F8 0xA4FB then some (0, .ordinary) else none
  | .orkhonI true => if c.toNat == 0x10C32 then some (0, .ordinary) else none
  | .kiratE =>
    if c.toNat == 0x16D63 || c.toNat == 0x16D69 then some (0, .ordinary)
    else if c.toNat == 0x16D67 then some (0, .kiratAi)
    else if c.toNat == 0x16D68 then some (1, .kiratE)
    else none
  | .kiratAi => if c.toNat == 0x16D63 then some (0, .ordinary) else none
  | _ => none

/-- What a pictograph, or a part of one, becomes with `c` before it. -/
def pictograph? (c : Char) : Sign → Option (Int × Sign)
  | .pictograph => if c == joiner then some (0, .joined) else none
  | .skinTone =>
    if inRanges skinToneBaseRanges c then some (0, .pictograph)
    else if c == joiner then some (0, .joined)
    else none
  | .flagLetter => if isFlagLetter c then some (1, .flagLetters) else none
  | .flagLetters =>
    if isFlagLetter c then some (1, .flagLetters)
    else if c == joiner then some (0, .joined)
    else none
  | .joined => joined? c
  | .joinedFlagLetter => if isFlagLetter c then some (-1, .evenJoinedFlags) else none
  | .oddJoinedFlags =>
    if isFlagLetter c then some (-1, .evenJoinedFlags)
    else if c == joiner then some (0, .joined)
    else none
  | .evenJoinedFlags =>
    if isFlagLetter c then some (3, .oddJoinedFlags)
    else if c == joiner then some (0, .joined)
    else none
  | .tagLetters n => tagged? c n 0
  | .tagDigits n => tagged? c 0 n
  | _ => none

/-- Columns that `c` adds before the sign `s`. -/
def beforeSign (c : Char) (s : Sign) : Int × Ahead :=
  if s.crossesSelector && c == joiner then (0, s.join.ahead)
  else if s.crossesSelector && isLigatureTransparent c then (0, s.ahead)
  else match (ligature? c s).or (pictograph? c s) with
    | some (columns, t) => (columns, t.ahead)
    | none => alone c

/-- Columns that `c` adds, where no colour selector speaks to it. -/
def beforeUncoloured (c : Char) (a : Ahead) : Int × Ahead :=
  if c == '\n' then (1, Sign.lineFeed.ahead)
  else if c == '\r' && a.sign == .lineFeed then (0, {})
  else if c.toNat ≤ 0xA0 then (1, {})
  else if c == colourSelector then (0, a.askColour)
  else if c == plainSelector then (0, a.askPlain)
  else if a.plain && inRanges plainableRanges c then (1, {})
  else if c == wideSelector then (0, { a with plain := false }.askWide)
  else if a.wide && isQuotationMark c then (2, {})
  else beforeSign c a.sign

/-- Columns that `c` adds before a text, and how the text begins then. -/
def before (c : Char) (a : Ahead) : Int × Ahead :=
  if a.colour then
    if inRanges colourableRanges c then (if a.sign.isJoined then 0 else 2, Sign.pictograph.ahead)
    else beforeUncoloured c a.dropColour
  else beforeUncoloured c a

/-- Columns of a text, and how it begins. -/
def measure (s : List Char) : Int × Ahead :=
  s.foldr (fun c t => let r := before c t.2; (r.1 + t.1, r.2)) (0, {})

theorem measure_cons (c : Char) (s : List Char) :
    measure (c :: s) =
      ((before c (measure s).2).1 + (measure s).1, (before c (measure s).2).2) := rfl

/-- Columns of a text. -/
def width (s : List Char) : Nat :=
  (measure s).1.toNat

theorem before_of_ascii {c : Char} (lo : 32 ≤ c.toNat) (hi : c.toNat < 127) :
    before c {} = (1, {}) := by
  have hn : (c == '\n') = false := by
    rw [beq_eq_false_iff_ne]
    rintro rfl
    exact absurd lo (by decide)
  have hs : (({} : Ahead).sign == Sign.lineFeed) = false := by decide
  have ha : c.toNat ≤ 0xA0 := by omega
  simp only [before, beforeUncoloured, hn, hs, ha, Bool.and_false, Bool.false_eq_true, if_false,
    if_true]

theorem measure_of_ascii {s : List Char} (h : ∀ c ∈ s, 32 ≤ c.toNat ∧ c.toNat < 127) :
    measure s = ((s.length : Int), {}) := by
  induction s with
  | nil => rfl
  | cons c r ih =>
    obtain ⟨hc, hr⟩ := List.forall_mem_cons.1 h
    rw [measure_cons, ih hr, before_of_ascii hc.1 hc.2]
    simp only [List.length_cons, Prod.mk.injEq, and_true]
    omega

theorem width_of_ascii {s : List Char} (h : ∀ c ∈ s, 32 ≤ c.toNat ∧ c.toNat < 127) :
    width s = s.length := by
  simp [width, measure_of_ascii h]

end Montage.Text
