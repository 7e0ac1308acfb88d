import Montage.Arena.Tree
import Montage.Box.Border
import Montage.Text.Blank

/-!
Boxes of text and the lines that they give. Inline boxes flow on the current line, line boxes end it,
blocks keep a blank line between themselves and their neighbours, and inline blocks are rectangles at
the current column. Reserved places and empty boxes leave no trace.
-/

namespace Montage.Box

open Text (width)

inductive Kind where
  | inline
  | inlineBlock
  | block
  | line
deriving DecidableEq, Repr

def Kind.name : Kind → String
  | .inline => "inline"
  | .inlineBlock => "inline-block"
  | .block => "block"
  | .line => "line"

inductive Item where
  | box (kind : Kind) (border : Option Border)
  | text (s : String)
  | reserved (skipped : Bool)

/-- A box tree of which only text and boxes around text are left. -/
inductive Layout where
  | text (s : List Char)
  | box (kind : Kind) (border : Option Border) (children : List Layout)

/-- A box of one child is dropped around it when it adds nothing: an inline box without border, or a
box without border of the kind of its child. -/
def Layout.wrap (kind : Kind) (border : Option Border) (children : List Layout) : Layout :=
  match children with
  | [child] =>
    if border.isSome then .box kind border children
    else if kind = .inline then child
    else match child with
      | .box k _ _ => if k = kind then child else .box kind border children
      | .text _ => .box kind border children
  | _ => .box kind border children

mutual

/-- What is left of a tree without reserved places, empty texts and boxes with nothing in them. -/
def clean : Rose Item → Option Layout
  | .node (.text s) _ => if s.isEmpty then none else some (.text s.toList)
  | .node (.reserved _) _ => none
  | .node (.box kind border) children =>
    match cleanAll children with
    | [] => none
    | cs => some (Layout.wrap kind border cs)

def cleanAll : List (Rose Item) → List Layout
  | [] => []
  | r :: rs =>
    match clean r with
    | none => cleanAll rs
    | some l => l :: cleanAll rs

end

/-- Separation asked for before the next piece of content. -/
inductive Break where
  | none
  | line
  | blank
deriving DecidableEq, Repr

def Break.rank : Break → Nat
  | .none => 0
  | .line => 1
  | .blank => 2

/-- Lines written so far: those above the current one, last first, and the current one. -/
structure Writer where
  above : List (List Char)
  current : List Char
  pending : Break

namespace Writer

def start : Writer := ⟨[], [], .none⟩

def hasContent (w : Writer) : Bool :=
  !w.above.isEmpty || !w.current.isEmpty

/-- Asks for a break; nothing is asked before the first content. -/
def request (w : Writer) (b : Break) : Writer :=
  if w.hasContent && w.pending.rank < b.rank then { w with pending := b } else w

def newLine (w : Writer) (line : List Char) : Writer :=
  { w with above := w.current :: w.above, current := line }

/-- Makes the break that is due. -/
def flush (w : Writer) : Writer :=
  let due := w.pending
  let w := { w with pending := .none }
  if due = .none then w
  else
    let w := if w.current.isEmpty then w else w.newLine []
    if due = .blank then
      match w.above with
      | last :: _ => if last.isEmpty then w else w.newLine []
      | [] => w
    else w

def push (w : Writer) (s : List Char) : Writer :=
  { w with current := w.current ++ s }

/-- Text at the current place; its line ends continue at the left margin. -/
def text (w : Writer) (s : List Char) : Writer :=
  match Text.splitWhere (· == '\n') s with
  | [] => w.flush
  | first :: rest => rest.foldl newLine (w.flush.push first)

/-- A rectangle at the current column. -/
def place (w : Writer) (rows : List (List Char)) : Writer :=
  match rows with
  | [] => w
  | first :: rest =>
    let w := w.flush
    let indent := spaces (width w.current)
    rest.foldl (fun w row => w.newLine (indent ++ row)) (w.push first)

/-- Rows on lines of their own. -/
def rows (w : Writer) (rs : List (List Char)) : Writer :=
  match rs with
  | [] => w
  | first :: rest => (rest.foldl newLine ((w.request .line).flush.push first)).request .line

/-- The lines, without empty ones at the end. -/
def finish (w : Writer) : List (List Char) :=
  ((w.current :: w.above).dropWhile List.isEmpty).reverse

end Writer

def bordered (border : Option Border) (rows : List (List Char)) : List (List Char) :=
  match border with
  | some b => b.apply rows
  | none => rows

mutual

def emit (w : Writer) : Layout → Writer
  | .text s => w.text s
  | .box kind border children =>
    let rectangle := fun (_ : Unit) => bordered border (emitAll .start children).finish
    match kind, border with
    | .inline, none => emitAll w children
    | .block, none => (emitAll (w.request .blank) children).request .blank
    | .line, none => (emitAll w children).request .line
    | .inline, some _ => w.place (rectangle ())
    | .inlineBlock, _ => w.place (rectangle ())
    | .block, some _ => ((w.request .blank).rows (rectangle ())).request .blank
    | .line, some _ => (w.place (rectangle ())).request .line

def emitAll (w : Writer) : List Layout → Writer
  | [] => w
  | l :: ls => emitAll (emit w l) ls

end

/-- The lines of a box tree. -/
def lines (r : Rose Item) : List (List Char) :=
  match clean r with
  | none => []
  | some l => (emit .start l).finish

end Montage.Box
