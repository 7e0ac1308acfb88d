import Montage.Box.Layout
import Montage.View.Medium

/-!
Boxes of text as a medium. Every view paints into a box, and nothing here carries classes or
tooltips.
-/

namespace Montage.Box

open Json (Value)

inductive Mark where
  | setKind (k : Kind)
  | setBorder (b : Border)

def Mark.on : Mark → Item → Item
  | .setKind k, .box _ border => .box k border
  | .setBorder b, .box kind _ => .box kind (some b)
  | _, item => item

def leaf (s : String) : Rose Item := .node (.text s) []

def failure (error : Error) (offending : Option Value) : Rose Item :=
  let source := match offending with
    | none => ""
    | some v => " in " ++ v.compact
  .node (.box .line none) [leaf ("[" ++ error.kind.name ++ "] " ++ error.message ++ source)]

/-- The box of a shape; an inline box with a border becomes an inline block. -/
def output (shape : Shape) : Item :=
  if shape.kind = .inline && shape.border.isSome then .box .inlineBlock shape.border
  else .box shape.kind shape.border

def bulletBorder : Border :=
  { left := some (.bullet ['-', ' '] [' ', ' ']) }

def kindShape (kind : Kind) : Shape := { kind := kind }

instance : Medium Item where
  Mark := Mark
  mark := Mark.on
  text := .text
  reserved := .reserved false
  skip item :=
    match item with
    | .reserved _ => .reserved true
    | item => item
  output := output
  isFragment _ := false
  takesTooltip _ := false
  addClass _ item := item
  failure := failure
  value _ marker v := leaf ((marker.map Marker.title).getD v.display)
  more _ _ remaining :=
    { wrapper := .box .line none
      label := some (.text ("(" ++ toString remaining ++ " more…)"))
      buttons := [] }
  problems shape :=
    if shape.kind = .inline && shape.border.isSome then
      ["border on an inline view; laid out as inline-block"]
    else []
  builtins := [
    ("text", .text, kindShape .inline),
    ("block", .content, kindShape .block),
    ("line", .content, kindShape .line),
    ("list", .list, kindShape .block),
    ("list-item", .content, { kind := .line, border := some bulletBorder }),
    ("value", .value, kindShape .inline)]

end Montage.Box
