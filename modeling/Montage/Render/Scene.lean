import Montage.Render.Preparation

/-!
The nodes that views are painted with, and what is known about each: whether it holds a place, which
config it came from, what a click on it does, and which tooltip it shows. A place is reserved when a
config is taken up, and is later left as a trace or given to the finished output.
-/

namespace Montage

open Json (Value)

/-- How the rendering of one config ended. -/
inductive Outcome where
  | skipped
  | rendered
  | renderedError
  | error
deriving DecidableEq, Repr

/-- A reserved place: the view it is for, and whether that view was skipped. -/
structure Place where
  view : Option String
  skipped : Bool
deriving DecidableEq, Repr

structure Provenance (F : Type) where
  view : Option String
  config : Config F
  props : Props F

/-- A part of a list that is still to be shown. -/
structure Page (F : Type) where
  item : RawConfig F
  items : List Value
  context : Value
  /-- The first item not yet shown. -/
  offset : Nat
  limit : Option Nat
  /-- Where the buttons for the rest go, if not at the end of the list. -/
  more : Option NodeId

/-- What remains to be done for a click, in order. -/
inductive Errand (F : Type) where
  | wait (g : Gate)
  | report (e : Event)
  /-- Discards the buttons and renders a page, or all that is left, in their place. -/
  | turn (wrapper container : NodeId) (page : Page F) (all : Bool)

/-- What a click reports at once, and what it does after that. -/
structure Click (F : Type) where
  events : List Event
  errands : List (Errand F)

inductive Anchor where
  | pointer
  | trigger
deriving DecidableEq, Repr

structure Tooltip (F : Type) where
  content : RawConfig F
  data : Value
  context : Value
  anchor : Anchor

structure Scene (F α : Type) where
  tree : Tree α
  places : Table Place
  provenance : Table (Provenance F)
  clicks : Table (Click F)
  tooltips : Table (Tooltip F)
  popup : Option NodeId

variable {F α : Type} [Medium α]

namespace Tooltip

/-- The tooltip that a prop declares: a config, or an object that says content and position. -/
def ofProp (p : PropValue F) (data context : Value) : Option (Tooltip F) :=
  match p with
  | .handler _ => none
  | .config raw => some ⟨raw, data, context, .pointer⟩
  | .json .null => none
  | .json (.bool false) => none
  | .json v =>
    match v.field? "content", v.field? "view" with
    | some content, none =>
      let anchor := if (v.field "position").asStr? = some "trigger" then .trigger else .pointer
      some ⟨.ofJson content, data, context, anchor⟩
    | _, _ => some ⟨.ofJson v, data, context, .pointer⟩

end Tooltip

namespace Scene

def empty : Scene F α := ⟨.empty, .empty, .empty, .empty, .empty, none⟩

/-- Removes a subtree with its clicks and tooltips. -/
def remove (s : Scene F α) (id : NodeId) : Scene F α × List NodeId :=
  let (tree, removed) := s.tree.remove id
  ({ s with
      tree := tree
      clicks := s.clicks.forget removed
      tooltips := s.tooltips.forget removed
      popup := s.popup.filter fun p => !removed.contains p }, removed)

/-- Removes a subtree with all that is known about its nodes. -/
def discard (s : Scene F α) (id : NodeId) : Scene F α :=
  let (s, removed) := s.remove id
  { s with places := s.places.forget removed, provenance := s.provenance.forget removed }

/-- Holds a place at the end of a container. -/
def reserve (s : Scene F α) (container : NodeId) (view : Option String) : Scene F α × NodeId :=
  let (tree, id) := s.tree.attach container Medium.reserved
  ({ s with tree := tree, places := s.places.insert id ⟨view, false⟩ }, id)

def skip (s : Scene F α) (place : NodeId) : Scene F α :=
  { s with
    tree := s.tree.modify place Medium.skip
    places := s.places.modify place fun p => { p with skipped := true } }

def isFragment (s : Scene F α) (id : NodeId) : Bool :=
  ((s.tree.get? id).map Medium.isFragment).getD false

/-- The nodes that an output puts in its place: itself, or the children of a fragment. -/
def placed (s : Scene F α) (output : NodeId) : List NodeId :=
  if s.isFragment output then s.tree.children output else [output]

/-- Puts an output in the place held for it, and tells which nodes stand there now. An output whose
place is gone is removed. -/
def splice (s : Scene F α) (place output : NodeId) : Scene F α × List NodeId :=
  let ids := s.placed output
  let (tree, found) := s.tree.replace place ids
  let s := { s with tree := tree }
  if found then
    let s := (s.remove place).1
    (if s.isFragment output then (s.remove output).1 else s, ids)
  else ((s.remove output).1, [])

/-- Puts an error in a place. -/
def fillWithError (s : Scene F α) (place : NodeId) (e : Error) (offending : Option Value) :
    Scene F α :=
  let (tree, output) := s.tree.grow (Medium.failure e offending)
  let s := ({ s with tree := tree }.splice place output).1
  { s with places := s.places.erase place }

/-- Puts classes on an output, unless it is a fragment. -/
def addClasses (s : Scene F α) (output : NodeId) (classes : List String) : Scene F α :=
  if s.isFragment output then s
  else { s with tree := classes.foldl (fun t c => t.modify output (Medium.addClass c)) s.tree }

/-- Binds a tooltip to the nodes an output will place, as far as they take one. -/
def bindTooltip (s : Scene F α) (output : NodeId) (tip : Tooltip F) : Scene F α :=
  let targets := (s.placed output).filter fun id =>
    ((s.tree.get? id).map Medium.takesTooltip).getD false
  { s with tooltips := targets.foldl (fun t id => t.insert id tip) s.tooltips }

/-- The class of a view, and the classes of its config. -/
def classesOf (settings : Settings) (view : Option String) (classes : List String) : List String :=
  (view.map fun v => settings.classPrefix ++ v).toList ++ classes

def decorate (s : Scene F α) (settings : Settings) (view : Option String) (output : NodeId)
    (p : Prepared F) (context : Value) : Scene F α :=
  let s := s.addClasses output (classesOf settings view p.classes)
  match (Fields.get? p.props "tooltip").bind (Tooltip.ofProp · p.data context) with
  | none => s
  | some tip => s.bindTooltip output tip

/-- Puts a finished output in its place and records where it came from. -/
def finish (s : Scene F α) (place output : NodeId) (p : Provenance F) : Scene F α :=
  let (s, ids) := s.splice place output
  { s with
    places := s.places.erase place
    provenance := ids.foldl (fun t id => t.insert id p) s.provenance }

/-- The nearest provenance of a node, its own or an ancestor's. -/
def provenanceOf? (s : Scene F α) (id : NodeId) : Option (Provenance F) :=
  (s.tree.lineage id).findSome? s.provenance.get?

/-- How many places are held for views that have not settled. -/
def pendingPlaces (s : Scene F α) : Nat :=
  (s.places.values.filter fun p => !p.skipped).length

/-- Makes a button of an affordance, and says what a click on it does. -/
def addButton (s : Scene F α) (wrapper container : NodeId) (page : Page F) (b : Button α) :
    Scene F α :=
  let (tree, id) := s.tree.attach wrapper b.node
  let (tree, _) := tree.attach id b.label
  { s with
    tree := tree
    clicks := s.clicks.insert id ⟨[], [.turn wrapper container page b.all]⟩ }

/-- Shows that a list goes on: with its rest `page`, which is not empty. -/
def showMore (s : Scene F α) (settings : Settings) (container : NodeId) (page : Page F) :
    Scene F α :=
  let more := Medium.more (α := α) settings page.limit (page.items.length - page.offset)
  let (tree, wrapper) := s.tree.attach (page.more.getD container) more.wrapper
  let tree := match more.label with
    | none => tree
    | some label => (tree.attach wrapper label).1
  more.buttons.foldl (fun s b => s.addButton wrapper container page b) { s with tree := tree }

end Scene

end Montage
