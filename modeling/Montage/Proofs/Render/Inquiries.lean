import Mathlib.Data.List.Basic
import Montage.Proofs.Render.Turns

/-!
The stages that come before a view is painted. For every config, data and context, and whatever the
queries answer, each stage asks certain questions, and its answers tell whether the run goes on to the
next stage. Main statement: a preparation that waits for a stage waits for its questions alone, and its
next move is what the answers of the stage say.
-/

namespace Montage

open Json (Value)

variable {F α : Type} [Medium α]

inductive Stage where
  | condition
  | selection
  | dataCondition
  | props
  | transform
  | classes
deriving DecidableEq, Repr

namespace Stage

def order : List Stage :=
  [.condition, .selection, .dataCondition, .props, .transform, .classes]

/-- Whether a falsy answer skips the view. -/
def isCondition : Stage → Bool
  | .condition | .dataCondition => true
  | _ => false

/-- The stages before one. -/
def before : Stage → List Stage
  | .condition => []
  | .selection => [.condition]
  | .dataCondition => [.condition, .selection]
  | .props => [.condition, .selection, .dataCondition]
  | .transform => [.condition, .selection, .dataCondition, .props]
  | .classes => [.condition, .selection, .dataCondition, .props, .transform]

/-- The stages after one. -/
def after : Stage → List Stage
  | .condition => [.selection, .dataCondition, .props, .transform, .classes]
  | .selection => [.dataCondition, .props, .transform, .classes]
  | .dataCondition => [.props, .transform, .classes]
  | .props => [.transform, .classes]
  | .transform => [.classes]
  | .classes => []

theorem order_eq (st : Stage) : order = st.before ++ st :: st.after := by
  cases st <;> rfl

theorem mem_order (st : Stage) : st ∈ order := by
  cases st <;> decide

/-- Of two stages, one comes before the other. -/
theorem before_cases (st st' : Stage) : st = st' ∨ st ∈ st'.before ∨ st' ∈ st.before := by
  cases st <;> cases st' <;> decide

/-- A stage stands in the order once. -/
theorem before_of_order {st : Stage} {l l' : List Stage} (h : order = l ++ st :: l') :
    st.before = l := by
  have hnodup : order.Nodup := by decide
  have heq := (order_eq st).symm.trans h
  rw [order_eq st] at hnodup
  have hbefore : st ∉ st.before := by cases st <;> decide
  have hafter : st ∉ st.after := by cases st <;> decide
  exact ((List.append_cons_inj_of_notMem hbefore hafter).mp heq).1

end Stage

/-- A question that is asked for a stage, or for one prop of it. -/
structure Inquiry (F : Type) where
  key : Option String
  query : Query F
  data : Value
  context : Value

def Inquiry.answer (s : Setup F α) (i : Inquiry F) : Answer :=
  s.ask i.query i.data i.context

/-- The value of an answer; null for one that is an error. -/
def Answer.value (a : Answer) : Value :=
  match a.result with
  | .ok v => v
  | .error _ => .null

namespace Subject

variable (sub : Subject F) (s : Setup F α)

/-- The data of the view: what its query makes of the incoming data. -/
def produced : Value :=
  match sub.config.data with
  | none => sub.data
  | some q => (s.ask q sub.data sub.context).value

/-- A prop with its answer in place of its query. -/
def answered (p : PropValue F) : PropValue F :=
  match p.query? with
  | none => p
  | some q => .json (s.engine.query q (sub.produced s) sub.context).value

/-- The props of the config. -/
def given : Props F :=
  sub.config.props.map fun f => (f.1, sub.answered s f.2)

/-- The props of the view, reshaped by its transform. -/
def reshaped : Props F :=
  match sub.transform with
  | none => sub.given s
  | some (.map f) => (s.host.transform f (sub.produced s) (sub.given s) sub.context).getD (sub.given s)
  | some (.query q) =>
    reshape (sub.given s)
      (s.ask q (sub.produced s) (transformContext (sub.given s) sub.context)).value

def named : List String :=
  match classSource sub.config.className with
  | .words ws => ws
  | .query q => classWords (s.engine.query q (sub.produced s) sub.context).value

/-- What the view is painted with if every stage is passed. -/
def prepared : Prepared F :=
  ⟨sub.produced s, sub.reshaped s, sub.named s⟩

/-- The one question of a stage other than the props, if it asks: `when` and `data` about the incoming
data, and all else about the data of the view, the transform with the props in its context. -/
def question? : Stage → Option (Inquiry F)
  | .condition => sub.config.when.map fun q => ⟨none, q, sub.data, sub.context⟩
  | .selection => sub.config.data.map fun q => ⟨none, q, sub.data, sub.context⟩
  | .dataCondition => sub.config.whenData.map fun q => ⟨none, q, sub.produced s, sub.context⟩
  | .props => none
  | .transform =>
    match sub.transform with
    | some (.query q) => some ⟨none, q, sub.produced s, transformContext (sub.given s) sub.context⟩
    | _ => none
  | .classes =>
    match classSource sub.config.className with
    | .query q => some ⟨none, .text q, sub.produced s, sub.context⟩
    | .words _ => none

/-- What a stage asks, in order. -/
def inquiries : Stage → List (Inquiry F)
  | .props => sub.config.props.filterMap fun f =>
      f.2.query?.map fun q => ⟨some f.1, .text q, sub.produced s, sub.context⟩
  | st => (sub.question? s st).toList

/-- All answers of the stage are values, and no condition among them is falsy. -/
def Passes (stage : Stage) : Prop :=
  ∀ i ∈ sub.inquiries s stage, ∃ v, (i.answer s).result = .ok v ∧
    (stage.isCondition → s.engine.truthy v)

/-- The stage is a condition, and its answer is falsy. -/
def Skips (stage : Stage) : Prop :=
  stage.isCondition ∧ ∃ i ∈ sub.inquiries s stage, ∃ v, (i.answer s).result = .ok v ∧
    s.engine.truthy v = false

/-- An answer of the stage is this error. -/
def Fails (stage : Stage) (e : Error) : Prop :=
  ∃ i ∈ sub.inquiries s stage, (i.answer s).result = .error e

/-- A stage that is passed is neither skipped nor failed. -/
theorem Passes.not_skips {sub : Subject F} {s : Setup F α} {st : Stage} (h : sub.Passes s st) :
    ¬sub.Skips s st := by
  rintro ⟨hcond, i, hi, v, hv, hfalsy⟩
  obtain ⟨v', hv', htruthy⟩ := h i hi
  rw [hv] at hv'
  cases hv'
  rw [htruthy hcond] at hfalsy
  cases hfalsy

theorem Passes.not_fails {sub : Subject F} {s : Setup F α} {st : Stage} {e : Error}
    (h : sub.Passes s st) : ¬sub.Fails s st e := by
  rintro ⟨i, hi, he⟩
  obtain ⟨v, hv, _⟩ := h i hi
  rw [hv] at he
  cases he

end Subject

/-- The answers that a preparation waits for, each with its stage and the prop it is for. -/
def Preparation.awaited : Preparation F → List (Stage × Option String × Answer)
  | .fresh => []
  | .condition a => [(.condition, none, a)]
  | .selection a => [(.selection, none, a)]
  | .dataCondition _ a => [(.dataCondition, none, a)]
  | .gathering _ asked => asked.filterMap fun f =>
      match f.2 with
      | .given _ => none
      | .asked a => some (.props, some f.1, a)
  | .reshaping _ _ a => [(.transform, none, a)]
  | .naming _ _ a => [(.classes, none, a)]

/-- The stage that a preparation is at, once it has begun. -/
def Preparation.stage? : Preparation F → Option Stage
  | .fresh => none
  | .condition _ => some .condition
  | .selection _ => some .selection
  | .dataCondition _ _ => some .dataCondition
  | .gathering _ _ => some .props
  | .reshaping _ _ _ => some .transform
  | .naming _ _ _ => some .classes

/-- How many stages a preparation has before it, its own and those that it has yet to begin. -/
def Preparation.rank (p : Preparation F) : Nat :=
  match p.stage? with
  | none => 7
  | some st => st.after.length + 1

theorem Preparation.rank_pos (p : Preparation F) : 0 < p.rank := by
  unfold rank
  split <;> simp

namespace Subject

variable (sub : Subject F) (s : Setup F α)

/-- The preparation that waits for the answer of a stage. -/
def waiting (a : Answer) : Stage → Preparation F
  | .condition => .condition a
  | .selection => .selection a
  | .dataCondition => .dataCondition (sub.produced s) a
  | .props => .gathering (sub.produced s)
      (Montage.askProps s.engine (sub.produced s) sub.context sub.config.props)
  | .transform => .reshaping (sub.produced s) (sub.given s) a
  | .classes => .naming (sub.produced s) (sub.reshaped s) a

/-- The preparation that waits for a stage, if the stage has to be waited for. -/
def waitingAt : Stage → Option (Preparation F)
  | .props => some (sub.waiting s (.now (.ok .null)) .props)
  | st => (sub.question? s st).map fun i => sub.waiting s (i.answer s) st

/-- Goes on to the first of these stages that has to be waited for. -/
def enter : List Stage → Progress F
  | [] => .prepared (sub.prepared s)
  | st :: sts =>
    match sub.waitingAt s st with
    | none => enter sts
    | some p => .awaits (p.awaited.flatMap fun a => a.2.2.events) p

variable {sub : Subject F} {s : Setup F α} {st : Stage} {p : Preparation F} {opened : List Gate}

theorem waitingAt_of_ne (hst : st ≠ .props) :
    sub.waitingAt s st = (sub.question? s st).map fun i => sub.waiting s (i.answer s) st := by
  cases st <;> first | rfl | exact absurd rfl hst

theorem inquiries_of_ne (hst : st ≠ .props) : sub.inquiries s st = (sub.question? s st).toList := by
  cases st <;> first | rfl | exact absurd rfl hst

theorem stage_of_waitingAt (h : sub.waitingAt s st = some p) : p.stage? = some st := by
  by_cases hst : st = .props
  · subst hst
    cases h
    rfl
  · rw [waitingAt_of_ne hst] at h
    obtain ⟨i, _, rfl⟩ := Option.map_eq_some_iff.mp h
    cases st <;> rfl

/-- Only the props are asked for by their keys. -/
theorem key_of_ne {i : Inquiry F} (hst : st ≠ .props) (hi : i ∈ sub.inquiries s st) :
    i.key = none := by
  rw [inquiries_of_ne hst, Option.mem_toList] at hi
  cases st with
  | condition | selection | dataCondition =>
    obtain ⟨q, _, rfl⟩ := Option.map_eq_some_iff.mp hi
    rfl
  | props => exact absurd rfl hst
  | transform | classes =>
    simp only [question?] at hi
    split at hi
    · cases hi; rfl
    · cases hi

/-- A preparation waits for what its stage asks. -/
theorem awaited_of_waitingAt (h : sub.waitingAt s st = some p) :
    p.awaited = (sub.inquiries s st).map fun i => (st, i.key, i.answer s) := by
  by_cases hst : st = .props
  · subst hst
    cases h
    simp only [waiting, Preparation.awaited, Montage.askProps, inquiries, List.filterMap_map,
      List.map_filterMap]
    refine List.filterMap_congr fun f _ => ?_
    simp only [Function.comp, askProp]
    cases f.2.query? <;> rfl
  · rw [waitingAt_of_ne hst] at h
    obtain ⟨i, hi, rfl⟩ := Option.map_eq_some_iff.mp h
    have hmem : i ∈ sub.inquiries s st := by
      rw [inquiries_of_ne hst, hi]
      exact List.mem_singleton_self i
    have hkey := key_of_ne hst hmem
    rw [inquiries_of_ne hst, hi]
    cases st <;> simp_all [waiting, Preparation.awaited]

/-- A stage that need not be waited for asks nothing. -/
theorem inquiries_of_waitingAt (h : sub.waitingAt s st = none) : sub.inquiries s st = [] := by
  by_cases hst : st = .props
  · subst hst
    cases h
  · rw [waitingAt_of_ne hst] at h
    rw [inquiries_of_ne hst, Option.map_eq_none_iff.mp h]
    rfl

theorem passes_of_waitingAt (h : sub.waitingAt s st = none) : sub.Passes s st := by
  intro i hi
  rw [inquiries_of_waitingAt h] at hi
  cases hi

/-! What is asked after each stage. -/

theorem enter_of_none {sts : List Stage} (hst : st ≠ .props) (h : sub.question? s st = none) :
    sub.enter s (st :: sts) = sub.enter s sts := by
  simp [enter, waitingAt_of_ne hst, h]

theorem enter_of_some {sts : List Stage} {i : Inquiry F} (hst : st ≠ .props)
    (h : sub.question? s st = some i) :
    sub.enter s (st :: sts) = .awaits (i.answer s).events (sub.waiting s (i.answer s) st) := by
  have hawaits : ∀ a : Answer, (sub.waiting s a st).awaited.flatMap (fun a => a.2.2.events) = a.events := by
    intro a
    cases st <;> simp_all [waiting, Preparation.awaited]
  simp [enter, waitingAt_of_ne hst, h, hawaits]

theorem askClasses_eq :
    sub.askClasses s (sub.produced s) (sub.reshaped s) = sub.enter s Stage.transform.after := by
  unfold askClasses
  cases hc : classSource sub.config.className with
  | words ws =>
    rw [Stage.after, enter_of_none (by decide) (by simp [question?, hc])]
    simp [enter, prepared, named, hc]
  | query q =>
    rw [Stage.after, enter_of_some (by decide) (by rw [question?, hc])]
    rfl

theorem askTransform_eq :
    sub.askTransform s (sub.produced s) (sub.given s) = sub.enter s Stage.props.after := by
  unfold askTransform
  cases ht : sub.transform with
  | none =>
    have hre : sub.reshaped s = sub.given s := by simp [reshaped, ht]
    rw [Stage.after, enter_of_none (by decide) (by simp [question?, ht])]
    exact hre ▸ askClasses_eq
  | some f =>
    cases f with
    | map f =>
      have hre : (s.host.transform f (sub.produced s) (sub.given s) sub.context).getD (sub.given s) =
          sub.reshaped s := by simp [reshaped, ht]
      rw [Stage.after, enter_of_none (by decide) (by simp [question?, ht])]
      simp only [hre]
      exact askClasses_eq
    | query q =>
      rw [Stage.after, enter_of_some (by decide) (by rw [question?, ht])]
      rfl

theorem events_askProps (engine : Engine) (data context : Value) (props : Props F) :
    (Montage.askProps engine data context props).flatMap (fun f => f.2.events) =
      (Preparation.gathering data (Montage.askProps engine data context props)).awaited.flatMap
        fun a => a.2.2.events := by
  induction props with
  | nil => rfl
  | cons f props ih =>
    obtain ⟨key, p⟩ := f
    cases hq : p.query? with
    | none =>
      have hgiven : askProp engine data context p = .given p := by simp [askProp, hq]
      have hrest : Montage.askProps engine data context ((key, p) :: props) =
          (key, .given p) :: Montage.askProps engine data context props := by
        rw [← hgiven]
        rfl
      rw [hrest]
      exact ih
    | some q =>
      have hasked : askProp engine data context p = .asked (engine.query q data context) := by
        simp [askProp, hq]
      have hrest : Montage.askProps engine data context ((key, p) :: props) =
          (key, .asked (engine.query q data context)) ::
            Montage.askProps engine data context props := by
        rw [← hasked]
        rfl
      rw [hrest]
      exact congrArg ((engine.query q data context).events ++ ·) ih

theorem askProps_eq : sub.askProps s (sub.produced s) = sub.enter s Stage.dataCondition.after :=
  congrArg (Progress.awaits · _) (events_askProps ..)

theorem askDataCondition_eq :
    sub.askDataCondition s (sub.produced s) = sub.enter s Stage.selection.after := by
  unfold askDataCondition
  cases hq : sub.config.whenData with
  | none =>
    rw [Stage.after, enter_of_none (by decide) (by simp [question?, hq])]
    exact askProps_eq
  | some q =>
    rw [Stage.after, enter_of_some (by decide) (by rw [question?, hq]; rfl)]
    rfl

theorem askSelection_eq : sub.askSelection s = sub.enter s Stage.condition.after := by
  unfold askSelection
  cases hq : sub.config.data with
  | none =>
    have hdata : sub.produced s = sub.data := by simp [produced, hq]
    rw [Stage.after, enter_of_none (by decide) (by simp [question?, hq])]
    exact hdata ▸ askDataCondition_eq
  | some q =>
    rw [Stage.after, enter_of_some (by decide) (by rw [question?, hq]; rfl)]
    rfl

theorem askCondition_eq : sub.askCondition s = sub.enter s Stage.order := by
  unfold askCondition
  cases hq : sub.config.when with
  | none =>
    rw [Stage.order, enter_of_none (by decide) (by simp [question?, hq])]
    exact askSelection_eq
  | some q =>
    rw [Stage.order, enter_of_some (by decide) (by rw [question?, hq]; rfl)]
    rfl

/-! What the answers of a stage say. -/

/-- What comes of a stage, by its answers. -/
inductive Verdict (sub : Subject F) (s : Setup F α) (st : Stage) : Progress F → Prop
  | skips (falsy : sub.Skips s st) : Verdict sub s st .skipped
  | fails {e : Error} (wrong : sub.Fails s st e) : Verdict sub s st (.failed e)
  | passes (passed : sub.Passes s st) : Verdict sub s st (sub.enter s st.after)

theorem withAnswer_cases {a : Answer} {k : Value → Progress F} {progress : Progress F}
    (h : withAnswer opened a k = some progress) :
    (∃ e, a.result = .error e ∧ progress = .failed e) ∨
      ∃ v, a.result = .ok v ∧ a.value = v ∧ progress = k v := by
  unfold withAnswer at h
  split at h
  · split at h
    · rename_i e he
      exact .inl ⟨e, he, (Option.some.inj h).symm⟩
    · rename_i v hv
      exact .inr ⟨v, hv, by simp [Answer.value, hv], (Option.some.inj h).symm⟩
  · cases h

/-- A stage with one question goes by its answer. -/
theorem Verdict.of_answer {i : Inquiry F} (hst : st ≠ .props) (hi : sub.question? s st = some i) {k : Value → Progress F}
    {progress : Progress F} (h : withAnswer opened (i.answer s) k = some progress)
    (hk : ∀ v, (i.answer s).value = v →
      k v = (if st.isCondition && !s.engine.truthy v then .skipped else sub.enter s st.after)) :
    Verdict sub s st progress := by
  have hi : sub.inquiries s st = [i] := by rw [inquiries_of_ne hst, hi]; rfl
  rcases withAnswer_cases h with ⟨e, he, rfl⟩ | ⟨v, hv, hvalue, rfl⟩
  · exact .fails ⟨i, hi ▸ List.mem_singleton_self i, he⟩
  · rw [hk v hvalue]
    split
    · rename_i hfalsy
      simp only [Bool.and_eq_true, Bool.not_eq_true'] at hfalsy
      exact .skips ⟨hfalsy.1, i, hi ▸ List.mem_singleton_self i, v, hv, hfalsy.2⟩
    · rename_i htruthy
      refine .passes fun j hj => ?_
      rw [hi, List.mem_singleton] at hj
      subst hj
      exact ⟨v, hv, fun hcond => by simpa [hcond] using htruthy⟩

/-- An error that ends the waiting is that of one of the answers. -/
theorem error_of_asked {asked : List (String × AskedProp F)} {e : Error}
    (h : firstError? opened asked = some e ∨ errorInTurn? opened asked = some e) :
    ∃ f ∈ asked, ∃ a, f.2 = .asked a ∧ a.result = .error e := by
  have hone : ∀ {p : AskedProp F} {e : Error}, p.ready? opened = some (.error e) →
      ∃ a, p = .asked a ∧ a.result = .error e := by
    intro p e hp
    cases p with
    | given v => cases hp
    | asked a =>
      simp only [AskedProp.ready?] at hp
      split at hp
      · refine ⟨a, rfl, ?_⟩
        cases ha : a.result with
        | error e' => rw [ha] at hp; cases hp; rfl
        | ok v => rw [ha] at hp; cases hp
      · cases hp
  induction asked with
  | nil => rcases h with h | h <;> cases h
  | cons f asked ih =>
    obtain ⟨key, p⟩ := f
    simp only [firstError?, errorInTurn?] at h
    rcases h with h | h <;> split at h
    · rename_i e' hp
      cases h
      obtain ⟨a, ha, he⟩ := hone hp
      exact ⟨_, List.mem_cons_self, a, ha, he⟩
    · obtain ⟨f, hf, hfa⟩ := ih (.inl h)
      exact ⟨f, List.mem_cons_of_mem _ hf, hfa⟩
    · cases h
    · rename_i e' hp
      cases h
      obtain ⟨a, ha, he⟩ := hone hp
      exact ⟨_, List.mem_cons_self, a, ha, he⟩
    · obtain ⟨f, hf, hfa⟩ := ih (.inr h)
      exact ⟨f, List.mem_cons_of_mem _ hf, hfa⟩

/-- When all props are had, each is the given one or the value of its answer. -/
theorem allReady_askProps {props ps : Props F}
    (h : allReady? opened (Montage.askProps s.engine (sub.produced s) sub.context props) = some ps) :
    (∀ f ∈ props, ∀ q, f.2.query? = some q →
        ∃ v, (s.engine.query q (sub.produced s) sub.context).result = .ok v) ∧
      ps = props.map fun f => (f.1, sub.answered s f.2) := by
  induction props generalizing ps with
  | nil =>
    cases h
    exact ⟨nofun, rfl⟩
  | cons f props ih =>
    obtain ⟨key, p⟩ := f
    simp only [Montage.askProps, List.map_cons, allReady?] at h
    split at h
    · rename_i v rest hv hrest
      cases h
      obtain ⟨hall, rfl⟩ := ih hrest
      unfold askProp at hv
      cases hq : p.query? with
      | none =>
        simp only [hq, AskedProp.ready?] at hv
        cases hv
        refine ⟨?_, by simp [answered, hq]⟩
        intro f hf q hfq
        rcases List.mem_cons.mp hf with rfl | hf
        · rw [hq] at hfq
          cases hfq
        · exact hall f hf q hfq
      | some q =>
        simp only [hq, AskedProp.ready?] at hv
        split at hv
        · cases ha : (s.engine.query q (sub.produced s) sub.context).result with
          | error e => rw [ha] at hv; cases hv
          | ok u =>
            rw [ha] at hv
            cases hv
            refine ⟨?_, by simp [answered, hq, Answer.value, ha]⟩
            intro f hf q' hfq
            rcases List.mem_cons.mp hf with rfl | hf
            · rw [hq] at hfq
              cases hfq
              exact ⟨u, ha⟩
            · exact hall f hf q' hfq
        · cases hv
    · cases h

/-- Props that are not had for an error have it from one of their answers. -/
theorem fails_of_gathered {e : Error}
    (h : gather? opened (Montage.askProps s.engine (sub.produced s) sub.context sub.config.props) =
      some (.error e)) : sub.Fails s .props e := by
  have herror : ∃ f ∈ Montage.askProps s.engine (sub.produced s) sub.context sub.config.props,
      ∃ a, f.2 = .asked a ∧ a.result = .error e := by
    apply error_of_asked
    unfold gather? at h
    simp only at h
    split at h
    · rename_i e' he
      cases h
      split at he
      · exact .inl he
      · exact .inr he
    · obtain ⟨ps, _, hps⟩ := Option.map_eq_some_iff.mp h
      cases hps
  obtain ⟨f, hf, a, ha, hea⟩ := herror
  obtain ⟨g, hg, rfl⟩ := List.mem_map.mp hf
  simp only [askProp] at ha
  cases hq : g.2.query? with
  | none => simp [hq] at ha
  | some q =>
    simp only [hq, AskedProp.asked.injEq] at ha
    refine ⟨⟨some g.1, .text q, sub.produced s, sub.context⟩, ?_, ?_⟩
    · exact List.mem_filterMap.mpr ⟨g, hg, by simp [hq]⟩
    · simpa [Inquiry.answer, Setup.ask, ha] using hea

/-- Props that are had are the given ones. -/
theorem passes_of_gathered {ps : Props F}
    (h : gather? opened (Montage.askProps s.engine (sub.produced s) sub.context sub.config.props) =
      some (.ok ps)) : sub.Passes s .props ∧ ps = sub.given s := by
  unfold gather? at h
  simp only at h
  split at h
  · cases h
  · obtain ⟨ps', hps, heq⟩ := Option.map_eq_some_iff.mp h
    cases heq
    obtain ⟨hall, hgiven⟩ := allReady_askProps hps
    refine ⟨fun i hi => ?_, hgiven⟩
    obtain ⟨f, hf, hfi⟩ := List.mem_filterMap.mp hi
    obtain ⟨q, hq, rfl⟩ := Option.map_eq_some_iff.mp hfi
    obtain ⟨v, hv⟩ := hall f hf q hq
    exact ⟨v, hv, fun hcond => by cases hcond⟩

/-- The move of a preparation that waits for a stage is what the stage comes to. -/
theorem verdict_of_advance {progress : Progress F} (h : sub.waitingAt s st = some p)
    (hp : sub.advance s opened p = some progress) : Verdict sub s st progress := by
  by_cases hst : st = .props
  · subst hst
    cases h
    obtain ⟨r, hr, rfl⟩ := Option.map_eq_some_iff.mp hp
    cases r with
    | error e => exact .fails (fails_of_gathered hr)
    | ok ps =>
      obtain ⟨hpassed, rfl⟩ := passes_of_gathered hr
      simp only [askTransform_eq]
      exact .passes hpassed
  rw [waitingAt_of_ne hst] at h
  obtain ⟨i, hi, rfl⟩ := Option.map_eq_some_iff.mp h
  cases st with
  | condition =>
    refine Verdict.of_answer hst hi hp fun v _ => ?_
    cases ht : s.engine.truthy v <;> simp [Stage.isCondition, askSelection_eq]
  | selection =>
    refine Verdict.of_answer hst hi hp fun v hv => ?_
    obtain ⟨q, hq, rfl⟩ := Option.map_eq_some_iff.mp hi
    have hdata : v = sub.produced s := by
      simp only [produced, hq]
      exact hv.symm
    simp [Stage.isCondition, hdata, askDataCondition_eq]
  | dataCondition =>
    refine Verdict.of_answer hst hi hp fun v _ => ?_
    cases ht : s.engine.truthy v <;> simp [Stage.isCondition, askProps_eq]
  | props => exact absurd rfl hst
  | transform =>
    refine Verdict.of_answer hst hi hp fun v hv => ?_
    simp only [question?] at hi
    split at hi
    · rename_i q hq
      cases hi
      have hprops : reshape (sub.given s) v = sub.reshaped s := by
        simp only [reshaped, hq]
        exact congrArg _ hv.symm
      simp [Stage.isCondition, hprops, askClasses_eq]
    · cases hi
  | classes =>
    refine Verdict.of_answer hst hi hp fun v hv => ?_
    simp only [question?] at hi
    split at hi
    · rename_i q hq
      cases hi
      have hnamed : classWords v = sub.named s := by
        simp only [named, hq]
        exact congrArg _ hv.symm
      simp [Stage.isCondition, Stage.after, enter, prepared, hnamed]
    · cases hi

variable (sub s) in
/-- A preparation that has come past some stages goes on to the next one that it has to wait for, past
stages that ask nothing, or there is no such stage. -/
theorem enter_cases {done sts : List Stage} (h : Stage.order = done ++ sts) :
    (sub.enter s sts = .prepared (sub.prepared s) ∧ ∀ x ∈ sts, sub.waitingAt s x = none) ∨
      ∃ passed st p, st.before = done ++ passed ∧ (∀ x ∈ passed, sub.waitingAt s x = none) ∧
        sub.waitingAt s st = some p ∧ st ∈ sts ∧
        sub.enter s sts = .awaits (p.awaited.flatMap fun a => a.2.2.events) p := by
  induction sts generalizing done with
  | nil => exact .inl ⟨rfl, nofun⟩
  | cons st sts ih =>
    cases hst : sub.waitingAt s st with
    | some p =>
      have hbefore := Stage.before_of_order h
      exact .inr ⟨[], st, p, by simpa using hbefore, nofun, hst, List.mem_cons_self,
        by simp [enter, hst]⟩
    | none =>
      have henter : sub.enter s (st :: sts) = sub.enter s sts := by simp [enter, hst]
      have horder : Stage.order = (done ++ [st]) ++ sts := by simpa using h
      rcases ih horder with
        ⟨hall, hnone⟩ | ⟨passed, st', p, hbefore, hnone, hp, hmem, hall⟩
      · exact .inl ⟨henter.trans hall, List.forall_mem_cons.mpr ⟨hst, hnone⟩⟩
      · exact .inr ⟨st :: passed, st', p, by simpa using hbefore,
          List.forall_mem_cons.mpr ⟨hst, hnone⟩, hp, List.mem_cons_of_mem _ hmem, henter.trans hall⟩

/-- A preparation has begun for this subject. -/
def Meets (sub : Subject F) (s : Setup F α) (p : Preparation F) : Prop :=
  p = .fresh ∨ ∃ st, sub.waitingAt s st = some p

/-- The stages that are left to a preparation. -/
theorem enter_of_advance {progress : Progress F} (hmeets : sub.Meets s p)
    (hp : sub.advance s opened p = some progress) : progress = .skipped ∨ (∃ e, progress = .failed e) ∨
      ∃ done left, Stage.order = done ++ left ∧ left.length < p.rank ∧
        progress = sub.enter s left := by
  rcases hmeets with rfl | ⟨st, hst⟩
  · refine .inr (.inr ⟨[], Stage.order, rfl, Nat.lt_succ_self 6, ?_⟩)
    exact (Option.some.inj hp).symm.trans askCondition_eq
  · cases verdict_of_advance hst hp with
    | skips falsy => exact .inl rfl
    | fails wrong => exact .inr (.inl ⟨_, rfl⟩)
    | passes passed =>
      refine .inr (.inr ⟨st.before ++ [st], st.after, by simpa using Stage.order_eq st, ?_, rfl⟩)
      rw [Preparation.rank, stage_of_waitingAt hst]
      exact Nat.lt_succ_self _

/-- A preparation that waits again waits for a later stage, and reports what it asks. -/
theorem awaits_of_advance {events : List Event} {p' : Preparation F} (hmeets : sub.Meets s p)
    (hp : sub.advance s opened p = some (.awaits events p')) :
    events = p'.awaited.flatMap (fun a => a.2.2.events) ∧ p'.rank < p.rank := by
  rcases enter_of_advance hmeets hp with h | ⟨e, h⟩ | ⟨done, left, horder, hleft, h⟩
  · cases h
  · cases h
  · rcases enter_cases sub s horder with
      ⟨henter, _⟩ | ⟨passed, st, q, hbefore, _, hq, hmem, henter⟩
    · rw [henter] at h
      cases h
    · rw [henter] at h
      cases h
      refine ⟨rfl, Nat.lt_of_le_of_lt ?_ hleft⟩
      have hlength := congrArg List.length (horder.symm.trans (Stage.order_eq st))
      rw [hbefore] at hlength
      rw [Preparation.rank, stage_of_waitingAt hq]
      change st.after.length + 1 ≤ left.length
      simp only [List.length_append, List.length_cons] at hlength
      omega

/-- A preparation that is done has computed what the answers say. -/
theorem prepared_of_advance {ready : Prepared F} (hmeets : sub.Meets s p)
    (hp : sub.advance s opened p = some (.prepared ready)) : ready = sub.prepared s := by
  rcases enter_of_advance hmeets hp with h | ⟨e, h⟩ | ⟨done, left, horder, _, h⟩
  · cases h
  · cases h
  · rcases enter_cases sub s horder with
      ⟨henter, _⟩ | ⟨passed, st, q, _, _, _, _, henter⟩
    · rw [henter] at h
      cases h
      rfl
    · rw [henter] at h
      cases h

/-! The first stage that is not passed. -/

/-- A condition has one answer. -/
theorem Skips.not_fails {e : Error} (h : sub.Skips s st) : ¬sub.Fails s st e := by
  rintro ⟨j, hj, he⟩
  obtain ⟨hcond, i, hi, v, hv, _⟩ := h
  have hst : st ≠ .props := by
    rintro rfl
    cases hcond
  rw [inquiries_of_ne hst] at hi hj
  rw [Option.mem_toList] at hi hj
  rw [hi] at hj
  cases hj
  rw [hv] at he
  cases he

/-- At most one stage is not passed after all before it are. -/
theorem first_unique {st st' : Stage} (h : ∀ x ∈ st.before, sub.Passes s x)
    (h' : ∀ x ∈ st'.before, sub.Passes s x) (hn : ¬sub.Passes s st) (hn' : ¬sub.Passes s st') :
    st = st' := by
  rcases Stage.before_cases st st' with heq | hlt | hgt
  · exact heq
  · exact absurd (h' st hlt) hn
  · exact absurd (h st' hgt) hn'

end Subject

end Montage
