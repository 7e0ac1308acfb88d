import Montage.View.Registry

/-!
Computing what a view is given: queries among the props are asked all at once, in the order of their
names, and then awaited together; the view's transform reshapes the result. Class names come from a
text, a list of texts, or a query for either.
-/

namespace Montage

open Json (Value)

variable {F α : Type} [Medium α]

/-- A prop as it stands, or the answer it waits for. -/
inductive AskedProp (F : Type) where
  | given (p : PropValue F)
  | asked (a : Answer)

/-- The text of a query written as a string that starts with an equality sign. -/
def queryText? (s : String) : Option String :=
  match s.toList with
  | '=' :: r => some (String.ofList r)
  | _ => none

/-- The query of a prop, if it is one. -/
def PropValue.query? : PropValue F → Option String
  | .json (.str s) => queryText? s
  | _ => none

def askProp (engine : Engine) (data context : Value) (p : PropValue F) : AskedProp F :=
  match p.query? with
  | some q => .asked (engine.query q data context)
  | none => .given p

def askProps (engine : Engine) (data context : Value) (props : Props F) : Fields (AskedProp F) :=
  props.map fun f => (f.1, askProp engine data context f.2)

namespace AskedProp

def events : AskedProp F → List Event
  | .given _ => []
  | .asked a => a.events

/-- The prop once its answer may be looked at. -/
def ready? (opened : List Gate) : AskedProp F → Option (Except Error (PropValue F))
  | .given p => some (.ok p)
  | .asked a => if a.isReady opened then some (a.result.map .json) else none

def blockedOn? (opened : List Gate) : AskedProp F → Option Gate
  | .given _ => none
  | .asked a => a.blockedOn? opened

end AskedProp

/-- The first error among the answers that are ready. -/
def firstError? (opened : List Gate) : List (String × AskedProp F) → Option Error
  | [] => none
  | (_, p) :: r =>
    match p.ready? opened with
    | some (.error e) => some e
    | _ => firstError? opened r

/-- All props, when every answer is ready and good. -/
def allReady? (opened : List Gate) : List (String × AskedProp F) → Option (Props F)
  | [] => some []
  | (key, p) :: r =>
    match p.ready? opened, allReady? opened r with
    | some (.ok v), some ps => some ((key, v) :: ps)
    | _, _ => none

/-- How many things can be awaited together without being a crowd. They are looked over in order each
time one of them may be ready; of a crowd only those are looked at that may be. -/
def crowdBound : Nat := 30

/-- The first error among the answers, if all answers before it are ready. -/
def errorInTurn? (opened : List Gate) : List (String × AskedProp F) → Option Error
  | [] => none
  | (_, p) :: r =>
    match p.ready? opened with
    | none => none
    | some (.error e) => some e
    | some (.ok _) => errorInTurn? opened r

/-- Answers are awaited together. An error ends the waiting at once; among a crowd, which is gone
through in order, it does so only when all answers before it are ready. -/
def gather? (opened : List Gate) (asked : Fields (AskedProp F)) : Option (Except Error (Props F)) :=
  let error :=
    if asked.length ≤ crowdBound then firstError? opened asked else errorInTurn? opened asked
  match error with
  | some e => some (.error e)
  | none => (allReady? opened asked).map .ok

/-- The gates of the answers before the first error. -/
def gatesBeforeError (opened : List Gate) : List (String × AskedProp F) → List Gate
  | [] => []
  | (_, p) :: r =>
    match p.ready? opened with
    | some (.error _) => []
    | _ => (p.blockedOn? opened).toList ++ gatesBeforeError opened r

/-- What a query transform sees as its context. -/
def transformContext (props : Props F) (context : Value) : Value :=
  .obj [("context", context), ("props", Props.toJson props)]

/-- Handlers that the reshaped props do not mention stay. -/
def keepHandlers (reshaped : Props F) : List (String × PropValue F) → Props F
  | [] => reshaped
  | (key, .handler f) :: r =>
    if Fields.contains reshaped key then keepHandlers reshaped r
    else keepHandlers (Fields.insert reshaped key (.handler f)) r
  | _ :: r => keepHandlers reshaped r

/-- An object replaces the props, and any other answer leaves them. -/
def reshape (props : Props F) (answer : Value) : Props F :=
  match answer with
  | .obj fields => keepHandlers (fields.map fun f => (f.1, .json f.2)) props
  | _ => props

/-- Class names written with blanks between them, or as a list of such texts. -/
def classWords : Value → List String
  | .str s => (Text.words s.toList).map String.ofList
  | .arr items =>
    (items.filterMap Value.asStr?).flatMap fun s => (Text.words s.toList).map String.ofList
  | _ => []

/-- How class names are had: at once, or from a query. -/
inductive ClassSource where
  | words (ws : List String)
  | query (q : String)

def classSource (className : Option (PropValue F)) : ClassSource :=
  match className.bind PropValue.json? with
  | none => .words []
  | some (.str s) =>
    match queryText? s with
    | some q => .query q
    | none => .words (classWords (.str s))
  | some v => .words (classWords v)

end Montage
