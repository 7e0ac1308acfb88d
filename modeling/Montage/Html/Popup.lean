import Montage.Html.Medium
import Montage.Render.World

/-!
The tooltip popup of a document: one element, made at the first hover and shared by all tooltips. A
hover clears it and renders the tooltip of the nearest node that has one.
-/

namespace Montage.Html

variable {F : Type}

/-- The nearest tooltip of a node, its own or an ancestor's, and the node that has it. -/
def tooltipOf? (s : Scene F Item) (node : NodeId) : Option (NodeId × Tooltip F) :=
  (s.tree.lineage node).findSome? fun id => (s.tooltips.get? id).map fun tip => (id, tip)

/-- The first node of a document. -/
def body : NodeId := 1

/-- A scene with an empty document. -/
def newScene : Scene F Item :=
  { (Scene.empty : Scene F Item) with tree := (Tree.empty.create (.ofTag "body")).1 }

def clearPopup (s : Scene F Item) (popup : NodeId) : Scene F Item :=
  (s.tree.children popup).foldl Scene.discard s

def modify (s : Scene F Item) (id : NodeId) (f : Item → Item) : Scene F Item :=
  { s with tree := s.tree.modify id f }

/-- Empties and hides the popup, if there is one. -/
def unhover (s : Scene F Item) : Scene F Item :=
  match s.popup with
  | none => s
  | some popup => modify (clearPopup s popup) popup (Item.setAttribute "hidden" "")

/-- The popup, which is made if there is none. -/
def ensurePopup (s : Scene F Item) (settings : Settings) : Scene F Item × NodeId :=
  match s.popup with
  | some popup => (s, popup)
  | none =>
    let (tree, popup) := s.tree.attach body
      ((Item.ofTag "div").addClass (settings.classPrefix ++ "tooltip"))
    ({ s with tree := tree, popup := some popup }, popup)

/-- Shows where the popup belongs: beside the pointer, or at the node that has the tooltip. -/
def anchorAt (anchor : Anchor) (trigger : NodeId) (x y : Int) (item : Item) : Item :=
  let item := item.removeAttribute "hidden"
  match anchor with
  | .pointer =>
    let style := "left: " ++ toString x ++ "px; top: " ++ toString y ++ "px"
    ((item.setAttribute "data-position" "pointer").setAttribute "style" style).removeAttribute
      "data-anchor"
  | .trigger =>
    ((item.setAttribute "data-position" "trigger").setAttribute "data-anchor"
      (toString trigger)).removeAttribute "style"

/-- Shows the tooltip of a node in the popup, or hides the popup when there is none. -/
def hover (w : World F Item) (s : Setup F Item) (node : NodeId) (x y : Int) :
    World F Item × World.Ticket × Option NodeId :=
  match tooltipOf? w.scene node with
  | none =>
    let (w, t) := { w with scene := unhover w.scene }.openErrands [] []
    (w, t, none)
  | some (trigger, tip) =>
    let (scene, popup) := ensurePopup w.scene s.settings
    let scene := modify (clearPopup scene popup) popup (anchorAt tip.anchor trigger x y)
    let (w, t) := { w with scene := scene }.render s popup tip.content tip.data tip.context
    (w, t, some popup)

end Montage.Html
