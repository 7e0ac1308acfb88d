import Montage.Text.Width
import Montage.Text.Numeral

/-!
Borders around lines of text. Content is padded to its widest line and each side to its widest piece,
so that all rows between the edges are equally wide. Edges span the whole width.
-/

namespace Montage.Box

open Text (width)

/-- What stands beside the lines; a function takes the index of a line and the number of lines. -/
inductive Side where
  | text (s : List Char)
  | perLine (f : Nat → Nat → List Char)

/-- What stands above or below; a function takes the widths of content, left and right side. -/
inductive Edge where
  | fill (pattern : List Char)
  | perWidth (f : Nat → Nat → Nat → List Char)

structure Border where
  left : Option Side := none
  right : Option Side := none
  top : Option Edge := none
  bottom : Option Edge := none

def spaces (n : Nat) : List Char :=
  List.replicate n ' '

def pad (s : List Char) (columns : Nat) : List Char :=
  s ++ spaces (columns - width s)

/-- Columns that a character takes in a pattern. -/
def cells (c : Char) : Nat :=
  (Text.charWidth c).getD 0

/-- An edge that is being drawn: what comes next of its pattern, what is drawn, last first, and how many
columns that fills. -/
structure Filling where
  rest : List Char
  drawn : List Char
  filled : Nat

/-- The next character of the pattern, which begins again at its end. It ends the edge if it would pass
`total` columns, with blanks in its place, or if it fills the last of them. -/
def Filling.step (pattern : List Char) (total : Nat) (s : Filling) : Filling ⊕ List Char :=
  match s.rest with
  | [] => .inl { s with rest := pattern }
  | c :: r =>
    if total < s.filled + cells c then .inr (s.drawn.reverse ++ spaces (total - s.filled))
    else if s.filled + cells c == total then .inr (c :: s.drawn).reverse
    else .inl ⟨r, c :: s.drawn, s.filled + cells c⟩

/-- Repeats a pattern over so many columns; without width it draws nothing. The repetition need not end. -/
def fillColumns (pattern : List Char) (total : Nat) : List Char :=
  if width pattern == 0 then []
  else Id.run (repeatM (fun s => pure (s.step pattern total)) (⟨pattern, [], 0⟩ : Filling))

def Side.at (s : Side) (index total : Nat) : List Char :=
  match s with
  | .text t => t
  | .perLine f => f index total

def Edge.across (e : Edge) (content left right : Nat) : List Char :=
  match e with
  | .fill pattern => fillColumns pattern (content + left + right)
  | .perWidth f => f content left right

/-- The pieces of a side, one for each line. -/
def sidePieces (s : Option Side) (total : Nat) : List (List Char) :=
  (List.range total).map fun i => (s.map fun s => s.at i total).getD []

def maxWidth (lines : List (List Char)) : Nat :=
  lines.foldl (fun w l => max w (width l)) 0

/-- The lines with the border around them; no lines get no border. -/
def Border.apply (b : Border) (content : List (List Char)) : List (List Char) :=
  if content.isEmpty then []
  else
    let lefts := sidePieces b.left content.length
    let rights := sidePieces b.right content.length
    let w := maxWidth content
    let l := maxWidth lefts
    let r := maxWidth rights
    let row := fun (piece : List Char × List Char × List Char) =>
      pad piece.1 l ++ pad piece.2.1 w ++ pad piece.2.2 r
    (b.top.map fun e => e.across w l r).toList ++
      (lefts.zip (content.zip rights)).map row ++
      (b.bottom.map fun e => e.across w l r).toList

def frameEdge (content left right : Nat) : List Char :=
  '+' :: (List.replicate (content + left + right - 2) '-' ++ ['+'])

/-- A frame of bars and dashes. -/
def Border.frame : Border where
  left := some (.text ['|', ' '])
  right := some (.text [' ', '|'])
  top := some (.perWidth frameEdge)
  bottom := some (.perWidth frameEdge)

/-- One text beside the first line and another beside the rest. -/
def Side.bullet (first rest : List Char) : Side :=
  .perLine fun index _ => if index = 0 then first else rest

end Montage.Box
