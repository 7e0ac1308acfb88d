import Montage.Html.Item
import Montage.View.Medium

/-!
Documents as a medium. Held places are comments, views paint into elements or fragments, and only
elements carry classes and tooltips.
-/

namespace Montage.Html

open Json (Value)

inductive Mark where
  | addClass (c : String)
  | setAttribute (name value : String)
  | removeAttribute (name : String)
  | setText (s : String)

def Mark.on : Mark → Item → Item
  | .addClass c => Item.addClass c
  | .setAttribute name value => Item.setAttribute name value
  | .removeAttribute name => Item.removeAttribute name
  | .setText s => Item.setText s

def leaf (item : Item) : Rose Item := .node item []

def failure (error : Error) (offending : Option Value) : Rose Item :=
  let source := match offending with
    | none => []
    | some v => [.node (.ofTag "pre") [leaf (.text v.indented)]]
  .node (.element "div" ["render-error"] [("data-kind", error.kind.name)])
    (leaf (.text error.message) :: source)

/-- A known value is a link to it, and any other is its text. -/
def value (settings : Settings) (marker : Option Marker) (v : Value) : Rose Item :=
  match marker with
  | none => leaf (.text v.display)
  | some m =>
    let attributes := Fields.insert [] "data-type" m.kind
    let attributes := match m.href with
      | none => attributes
      | some href => Fields.insert attributes "href" href
    .node ((Item.element "a" [] attributes).addClass (settings.classPrefix ++ "marker"))
      [leaf (.text m.title)]

/-- A button for the next page, unless that is all that is left, and one for all. -/
def more (settings : Settings) (limit : Option Nat) (remaining : Nat) : Affordance Item :=
  let next := nextPage limit remaining
  let button := fun (all : Bool) (label : String) =>
    (⟨all, .ofTag "button", .text label⟩ : Button Item)
  { wrapper := (Item.ofTag "div").addClass (settings.classPrefix ++ "more-buttons")
    label := none
    buttons :=
      (if next < remaining then [button false ("Show " ++ toString next ++ " more…")] else []) ++
        [button true ("Show all " ++ toString remaining ++ " remaining…")] }

def problems (shape : Shape) : List String :=
  match shape.tag with
  | .fragment => []
  | .element tag =>
    if tag.isEmpty then ["empty tag name"]
    else if tag.toList.any Text.isBlank then ["tag `" ++ tag ++ "` contains whitespace"]
    else []

def tagShape (tag : String) : Shape := { tag := .element tag }

def fragmentShape : Shape := { tag := .fragment }

instance : Medium Item where
  Mark := Mark
  mark := Mark.on
  text := .text
  reserved := .comment "view"
  skip := Item.setText "skipped"
  output shape :=
    match shape.tag with
    | .element tag => .ofTag tag
    | .fragment => .fragment
  isFragment := Item.isFragment
  takesTooltip := Item.isElement
  addClass := Item.addClass
  failure := failure
  value := value
  more := more
  problems := problems
  builtins := [
    ("text", .text, fragmentShape),
    ("block", .content, tagShape "div"),
    ("line", .content, tagShape "div"),
    ("list", .list, tagShape "ul"),
    ("list-item", .content, tagShape "li"),
    ("value", .value, fragmentShape),
    ("button", .button, tagShape "button")]

end Montage.Html
