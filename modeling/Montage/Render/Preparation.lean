import Montage.Render.Props

/-!
What comes before a view is painted: `when` on the incoming data, `data`, then on its value
`whenData`, the props, their transform, and the class names. Each stage asks at most once and is
awaited before the next.
-/

namespace Montage

open Json (Value)

variable {F α : Type} [Medium α]

/-- Where a preparation stands: which answer it waits for, and what it has computed. -/
inductive Preparation (F : Type) where
  | fresh
  | condition (a : Answer)
  | selection (a : Answer)
  | dataCondition (data : Value) (a : Answer)
  | gathering (data : Value) (asked : Fields (AskedProp F))
  | reshaping (data : Value) (props : Props F) (a : Answer)
  | naming (data : Value) (props : Props F) (a : Answer)

/-- All that painting needs. -/
structure Prepared (F : Type) where
  data : Value
  props : Props F
  classes : List String

/-- How a preparation goes on. -/
inductive Progress (F : Type) where
  | awaits (events : List Event) (p : Preparation F)
  | skipped
  | failed (e : Error)
  | prepared (r : Prepared F)

/-- What a preparation is about. -/
structure Subject (F : Type) where
  config : Config F
  transform : Option (Transform F)
  data : Value
  context : Value

namespace Subject

variable (s : Subject F) (setup : Setup F α)

def askClasses (data : Value) (props : Props F) : Progress F :=
  match classSource s.config.className with
  | .words ws => .prepared ⟨data, props, ws⟩
  | .query q =>
    let a := setup.engine.query q data s.context
    .awaits a.events (.naming data props a)

def askTransform (data : Value) (props : Props F) : Progress F :=
  match s.transform with
  | none => s.askClasses setup data props
  | some (.map f) =>
    s.askClasses setup data ((setup.host.transform f data props s.context).getD props)
  | some (.query q) =>
    let a := setup.ask q data (transformContext props s.context)
    .awaits a.events (.reshaping data props a)

def askProps (data : Value) : Progress F :=
  let asked := Montage.askProps setup.engine data s.context s.config.props
  .awaits (asked.flatMap fun f => f.2.events) (.gathering data asked)

def askDataCondition (data : Value) : Progress F :=
  match s.config.whenData with
  | none => s.askProps setup data
  | some q =>
    let a := setup.ask q data s.context
    .awaits a.events (.dataCondition data a)

def askSelection : Progress F :=
  match s.config.data with
  | none => s.askDataCondition setup s.data
  | some q =>
    let a := setup.ask q s.data s.context
    .awaits a.events (.selection a)

def askCondition : Progress F :=
  match s.config.when with
  | none => s.askSelection setup
  | some q =>
    let a := setup.ask q s.data s.context
    .awaits a.events (.condition a)

/-- Goes on with the value of an answer, once its gates are open. -/
def withAnswer (opened : List Gate) (a : Answer) (k : Value → Progress F) : Option (Progress F) :=
  if a.isReady opened then
    match a.result with
    | .error e => some (.failed e)
    | .ok v => some (k v)
  else none

/-- The next move of a preparation; none while it has to wait. -/
def advance (opened : List Gate) (p : Preparation F) : Option (Progress F) :=
  match p with
  | .fresh => some (s.askCondition setup)
  | .condition a =>
    withAnswer opened a fun v =>
      if setup.engine.truthy v then s.askSelection setup else .skipped
  | .selection a => withAnswer opened a fun v => s.askDataCondition setup v
  | .dataCondition data a =>
    withAnswer opened a fun v => if setup.engine.truthy v then s.askProps setup data else .skipped
  | .gathering data asked =>
    (gather? opened asked).map fun r =>
      match r with
      | .error e => .failed e
      | .ok props => s.askTransform setup data props
  | .reshaping data props a =>
    withAnswer opened a fun v => s.askClasses setup data (reshape props v)
  | .naming data props a =>
    withAnswer opened a fun v => .prepared ⟨data, props, classWords v⟩

end Subject

/-- The gates that a preparation waits for, each the first that its answer needs. -/
def Preparation.blockedOn (opened : List Gate) : Preparation F → List Gate
  | .fresh => []
  | .condition a => (a.blockedOn? opened).toList
  | .selection a => (a.blockedOn? opened).toList
  | .dataCondition _ a => (a.blockedOn? opened).toList
  | .gathering _ asked => asked.filterMap fun f => f.2.blockedOn? opened
  | .reshaping _ _ a => (a.blockedOn? opened).toList
  | .naming _ _ a => (a.blockedOn? opened).toList

end Montage
