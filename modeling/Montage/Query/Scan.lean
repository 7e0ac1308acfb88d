/-!
Finding separators at the top level of a text: outside quotes and outside brackets. Main statements:
the pieces of a cut are shorter than the text.
-/

namespace Montage.Scan

/-- Where a scan stands: how deep in brackets, and in which quote. Brackets of all kinds count
alike, and inside a quote only its own end counts. -/
structure Place where
  depth : Int
  quote : Option Char
deriving DecidableEq, Repr

def start : Place := ⟨0, none⟩

def isQuote (c : Char) : Bool :=
  c == '"' || c == '\''

def isOpening (c : Char) : Bool :=
  c == '[' || c == '\x7b' || c == '('

def isClosing (c : Char) : Bool :=
  c == ']' || c == '\x7d' || c == ')'

def Place.isTop (p : Place) : Bool :=
  p.depth == 0 && p.quote.isNone

def Place.next (p : Place) (c : Char) : Place :=
  match p.quote with
  | some q => if c = q then { p with quote := none } else p
  | none =>
    if isQuote c then { p with quote := some c }
    else if isOpening c then { p with depth := p.depth + 1 }
    else if isClosing c then { p with depth := p.depth - 1 }
    else p

/-- The pieces between the separators at the top level. -/
def splitFrom (sep : Char) (p : Place) : List Char → List (List Char)
  | [] => [[]]
  | c :: r =>
    if p.isTop && c == sep then [] :: splitFrom sep p r
    else match splitFrom sep (p.next c) r with
      | [] => [[c]]
      | w :: ws => (c :: w) :: ws

def split (sep : Char) (s : List Char) : List (List Char) :=
  splitFrom sep start s

/-- Cuts at the first separator at the top level. -/
def cutFrom (sep : Char) (p : Place) : List Char → Option (List Char × List Char)
  | [] => none
  | c :: r =>
    if p.isTop && c == sep then some ([], r)
    else (cutFrom sep (p.next c) r).map fun q => (c :: q.1, q.2)

def cut (sep : Char) (s : List Char) : Option (List Char × List Char) :=
  cutFrom sep start s

/-- The two sides of an equality sign, and whether it denies. -/
structure Equality where
  left : List Char
  negate : Bool
  right : List Char

/-- The right side follows one equality sign or two. -/
def afterSign : List Char → List Char
  | '=' :: r => r
  | r => r

/-- Looks for the first equality sign at the top level that is not the first character; `seen` holds
the characters before it, last first. An exclamation mark before the sign denies. -/
def equalityFrom (p : Place) (seen : List Char) : List Char → Option Equality
  | [] => none
  | c :: r =>
    if p.isTop && c == '=' && !seen.isEmpty then
      match seen with
      | '!' :: before => some ⟨before.reverse, true, afterSign r⟩
      | _ => some ⟨seen.reverse, false, afterSign r⟩
    else equalityFrom (p.next c) (c :: seen) r

def equality? (s : List Char) : Option Equality :=
  equalityFrom start [] s

theorem length_afterSign_le (r : List Char) : (afterSign r).length ≤ r.length := by
  unfold afterSign
  split <;> simp

theorem length_equalityFrom {p : Place} {seen s : List Char} {e : Equality}
    (h : equalityFrom p seen s = some e) :
    e.left.length < seen.length + s.length ∧ e.right.length < seen.length + s.length := by
  induction s generalizing p seen with
  | nil => simp [equalityFrom] at h
  | cons c r ih =>
    have hr := length_afterSign_le r
    simp only [equalityFrom] at h
    split at h
    · split at h
      · injection h with h
        subst h
        simp only [List.length_reverse, List.length_cons]
        omega
      · injection h with h
        subst h
        simp only [List.length_reverse, List.length_cons]
        omega
    · have := ih h
      simp only [List.length_cons] at this ⊢
      omega

theorem length_equality_left {s : List Char} {e : Equality} (h : equality? s = some e) :
    e.left.length < s.length := by
  simpa using (length_equalityFrom h).1

theorem length_equality_right {s : List Char} {e : Equality} (h : equality? s = some e) :
    e.right.length < s.length := by
  simpa using (length_equalityFrom h).2

end Montage.Scan
