import Montage.Config.Normal
import Montage.View.Medium

/-!
What a way of painting is given, and what it answers: a list of steps on the node it was given. Steps
are carried out in order, and a nested render is waited for before the next step.
-/

namespace Montage

open Json (Value)

/-- The place of an item in a list, of which the part from `start` to `stop` is shown. -/
structure ListItem where
  items : List Value
  start : Nat
  stop : Nat
  index : Nat

namespace ListItem

def sliceIndex (i : ListItem) : Nat :=
  i.index - i.start

def slice (i : ListItem) : List Value :=
  (i.items.drop i.start).take (i.stop - i.start)

/-- The context of an item: besides the fields of the list's context, where the item stands. -/
def context (i : ListItem) (outer : Value) : Value :=
  let fields := match outer with
    | .obj fields => fields
    | _ => []
  .obj (Fields.insert (Fields.insert fields "index" (.ofNat i.index)) "sliceIndex"
    (.ofNat i.sliceIndex))

end ListItem

structure Call (F : Type) where
  props : Props F
  data : Value
  context : Value
  item : Option ListItem
  settings : Settings
  lookup : Value → Option Marker

inductive Step (F α : Type) [Medium α] where
  /-- Puts a tree of nodes at the end of the own node. -/
  | plant (r : Rose α)
  /-- Changes the own node. -/
  | mark (m : Medium.Mark α)
  /-- Renders a config at the end of the own node, and waits. -/
  | render (raw : RawConfig F) (data context : Value) (item : Option ListItem)
  /-- Reserves the places of a config that is then never rendered. -/
  | start (raw : RawConfig F) (data context : Value) (item : Option ListItem)
  /-- Renders a part of a list at the end of the own node, and waits. -/
  | list (raw : RawConfig F) (items : List Value) (context : Value) (limit : Option Nat)
      (offset : Nat)
  | wait (g : Gate)
  | report (e : Event)
  /-- What a click on the own node reports. -/
  | onClick (events : List Event)
  | fail (e : Error)
  /-- Breaks off; a text may say why. -/
  | panic (message : Option String)

/-- The functions of a host by their names. -/
structure Host (F α : Type) [Medium α] where
  paint : F → Call F → List (Step F α)
  query : F → Value → Value → Answer
  /-- New props from data, props and context, or none to keep them. -/
  transform : F → Value → Props F → Value → Option (Props F)
  handle : F → Value → Value → List Event

inductive Painter (F : Type) where
  | builtin (b : Builtin)
  | host (f : F)

/-- What does not change while a renderer lives. -/
structure Setup (F α : Type) [Medium α] where
  host : Host F α
  engine : Engine
  settings : Settings
  lookup : Value → Option Marker

variable {F α : Type} [Medium α]

namespace Call

/-- The text of a view: its `text` prop, or else its data. -/
def label (c : Call F) : String :=
  match Props.json? c.props "text" with
  | some v => v.display
  | none => c.data.display

end Call

/-- The config of one item of a list. -/
def itemConfig (props : Props F) : Config F :=
  (Config.ofView "list-item").withProp "content"
    (.config ((Props.config? props "item").getD (.text "text")))

namespace Builtin

def labelSteps (c : Call F) : List (Step F α) :=
  [.plant (.node (Medium.text c.label) [])]

def steps (handle : F → Value → Value → List Event) (b : Builtin) (c : Call F) :
    List (Step F α) :=
  match b with
  | .text => labelSteps c
  | .value => [.plant (Medium.value c.settings (c.lookup c.data) c.data)]
  | .content =>
    match Props.config? c.props "content" with
    | some raw => [.render raw c.data c.context c.item]
    | none => []
  | .list =>
    match c.data with
    | .arr items =>
      [.list (.object (itemConfig c.props)) items c.context
        (listLimit (Props.json? c.props "limit") c.settings.listLimit) 0]
    | _ => []
  | .button =>
    match Props.handler? c.props "onClick" with
    | some f => labelSteps c ++ [.onClick (handle f c.data c.context)]
    | none => labelSteps c

end Builtin

namespace Setup

def paint (s : Setup F α) (p : Painter F) (c : Call F) : List (Step F α) :=
  match p with
  | .builtin b => b.steps s.host.handle c
  | .host f => s.host.paint f c

/-- Asks a query about data in a context. -/
def ask (s : Setup F α) (q : Query F) (data context : Value) : Answer :=
  match q with
  | .text expression => s.engine.query expression data context
  | .value v => .now (.ok v)
  | .function f => s.host.query f data context

end Setup

end Montage
