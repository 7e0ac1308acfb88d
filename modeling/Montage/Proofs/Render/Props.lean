import Mathlib
import Montage.Box.Medium
import Montage.Proofs.Config.Fields
import Montage.Proofs.Render.Inquiries
import Montage.Proofs.Render.Tasks

/-!
Computing the props of a view. Main statement: in whatever order the answers come, the computation comes to an
end when they are there, and it fails just if a query among the props fails or, once all of these are answered,
the query of the transform does. Otherwise the transform is given the props of the config with the answers in
place of the queries, and an object that its query answers replaces them, but for the handlers whose names the
object lacks.
-/

namespace Montage

open Json (Value)

variable {F α : Type} [Medium α]

/-! Reshaping. -/

section Reshaping

variable {props reshaped : Props F} {key : String}

omit [Medium α] in
theorem handler?_cons_of_ne {k : String} (h : key ≠ k) (p : PropValue F) (props : Props F) :
    Props.handler? ((k, p) :: props) key = Props.handler? props key := by
  rw [Props.handler?, Fields.get?, if_neg h, Props.handler?]

/-- Handlers come behind the fields of an answer. -/
theorem get?_keepHandlers (h : (props.map Prod.fst).Nodup) (reshaped : Props F) (key : String) :
    Fields.get? (keepHandlers reshaped props) key =
      (Fields.get? reshaped key).or ((Props.handler? props key).map .handler) := by
  induction props generalizing reshaped with
  | nil => exact Option.or_none.symm
  | cons f props ih =>
    obtain ⟨k, p⟩ := f
    obtain ⟨hnot, hprops⟩ := List.nodup_cons.mp h
    have hnone : Fields.get? props k = none := Fields.get?_eq_none hnot
    by_cases hkey : key = k
    · subst hkey
      cases p with
      | json v => simp [keepHandlers, ih hprops, hnone, Props.handler?, Fields.get?]
      | config raw => simp [keepHandlers, ih hprops, hnone, Props.handler?, Fields.get?]
      | handler f =>
        cases hget : Fields.get? reshaped key with
        | none =>
          simp [keepHandlers, Fields.contains, hget, ih hprops, Fields.get?_insert, Props.handler?, Fields.get?]
        | some v => simp [keepHandlers, Fields.contains, hget, ih hprops]
    · rw [handler?_cons_of_ne hkey]
      cases p with
      | json v => exact ih hprops reshaped
      | config raw => exact ih hprops reshaped
      | handler f =>
        rw [keepHandlers]
        split_ifs
        · exact ih hprops reshaped
        · rw [ih hprops, Fields.get?_insert, if_neg hkey]

theorem sorted_keepHandlers (h : Fields.Sorted reshaped) (props : Props F) :
    Fields.Sorted (keepHandlers reshaped props) := by
  induction props generalizing reshaped with
  | nil => exact h
  | cons f props ih =>
    obtain ⟨k, p⟩ := f
    cases p with
    | json v => exact ih h
    | config raw => exact ih h
    | handler f =>
      rw [keepHandlers]
      split_ifs
      · exact ih h
      · exact ih (Fields.sorted_insert h k _)

end Reshaping

/-! What the props become. -/

/-- A query gives way to the value of its answer, and anything else stays. -/
def PropValue.Becomes (engine : Engine) (data context : Value) (p p' : PropValue F) : Prop :=
  match p.query? with
  | none => p' = p
  | some q => ∃ v, (engine.query q data context).result = .ok v ∧ p' = .json v

namespace Props

/-- Each prop keeps its name, and becomes what it is to become. -/
def Become (engine : Engine) (data context : Value) (props computed : Props F) : Prop :=
  List.Forall₂ (fun f f' => f'.1 = f.1 ∧ f.2.Becomes engine data context f'.2) props computed

/-- One of the queries among the props gives this error. -/
def Fail (engine : Engine) (data context : Value) (props : Props F) (e : Error) : Prop :=
  ∃ f ∈ props, ∃ q, f.2.query? = some q ∧ (engine.query q data context).result = .error e

variable {engine : Engine} {data context : Value} {props computed : Props F} {e : Error}

omit [Medium α] in
/-- Handlers stay, and nothing becomes a handler. -/
theorem Become.handler?_eq (h : Become engine data context props computed) (key : String) :
    handler? computed key = handler? props key := by
  induction h with
  | nil => rfl
  | @cons f f' props computed hf _ ih =>
    obtain ⟨k, p⟩ := f
    obtain ⟨k', p'⟩ := f'
    obtain ⟨rfl, hp⟩ := hf
    by_cases hkey : key = k'
    · subst hkey
      simp only [PropValue.Becomes] at hp
      split at hp
      · simp [handler?, Fields.get?, hp]
      · rename_i q hq
        obtain ⟨v, -, rfl⟩ := hp
        cases p with
        | json u => simp [handler?, Fields.get?]
        | config raw => cases hq
        | handler f => cases hq
    · rw [handler?_cons_of_ne hkey, handler?_cons_of_ne hkey, ih]

end Props

namespace Setup

/-- What a transform makes of computed props. A query is asked with them in its context, and its answer is a
value; an object replaces the props, but for the handlers whose names it lacks. -/
def Transforms (s : Setup F α) (data context : Value) (computed props : Props F) :
    Option (Transform F) → Prop
  | none => props = computed
  | some (.map f) => props = (s.host.transform f data computed context).getD computed
  | some (.query q) => ∃ v, (s.ask q data (transformContext computed context)).result = .ok v ∧
      ((∀ fields, v ≠ .obj fields) → props = computed) ∧
      ∀ fields, v = .obj fields → (Fields.Sorted fields → Fields.Sorted props) ∧
        ∀ key, Fields.get? props key =
          ((Fields.get? fields key).map .json).or ((Props.handler? computed key).map .handler)

/-- The query of a transform, asked with the computed props in its context, gives this error. -/
def TransformFails (s : Setup F α) (transform : Option (Transform F)) (data context : Value)
    (computed : Props F) (e : Error) : Prop :=
  ∃ q, transform = some (.query q) ∧ (s.ask q data (transformContext computed context)).result = .error e

end Setup

namespace Subject

/-- The props of a config alone. -/
def ofProps (props : Props F) (transform : Option (Transform F)) (data context : Value) : Subject F :=
  ⟨{ props := props }, transform, data, context⟩

variable {s : Setup F α} {props computed : Props F} {transform : Option (Transform F)} {data context : Value}
  {e : Error}

/-- All queries among the props are answered with values. -/
theorem passes_props_iff : (ofProps props transform data context).Passes s .props ↔
    ∀ f ∈ props, ∀ q, f.2.query? = some q → ∃ v, (s.engine.query q data context).result = .ok v := by
  constructor
  · intro h f hf q hq
    obtain ⟨v, hv, -⟩ := h ⟨some f.1, .text q, data, context⟩
      (List.mem_filterMap.mpr ⟨f, hf, by rw [hq]; rfl⟩)
    exact ⟨v, hv⟩
  · intro h i hi
    obtain ⟨f, hf, hi⟩ := List.mem_filterMap.mp hi
    obtain ⟨q, hq, rfl⟩ := Option.map_eq_some_iff.mp hi
    obtain ⟨v, hv⟩ := h f hf q hq
    exact ⟨v, hv, fun hcond => by cases hcond⟩

variable (props transform) in
theorem becomes_iff {p p' : PropValue F} : p.Becomes s.engine data context p' ↔
    (∀ q, p.query? = some q → ∃ v, (s.engine.query q data context).result = .ok v) ∧
      p' = (ofProps props transform data context).answered s p := by
  cases hq : p.query? with
  | none => simp [PropValue.Becomes, answered, hq]
  | some q =>
    have hanswered : (ofProps props transform data context).answered s p =
        .json (s.engine.query q data context).value := by
      rw [answered, hq]
      rfl
    rw [PropValue.Becomes, hq, hanswered]
    constructor
    · rintro ⟨v, hv, rfl⟩
      refine ⟨fun q' hq' => ?_, by rw [Answer.value, hv]⟩
      cases hq'
      exact ⟨v, hv⟩
    · rintro ⟨h, rfl⟩
      obtain ⟨v, hv⟩ := h q rfl
      exact ⟨v, hv, by rw [Answer.value, hv]⟩

variable (transform) in
/-- What the props become is what the answers of their queries make of them, if all of these are values. -/
theorem become_iff : props.Become s.engine data context computed ↔
    (ofProps props transform data context).Passes s .props ∧
      computed = (ofProps props transform data context).given s := by
  have hall : ∀ rest computed : Props F, Props.Become s.engine data context rest computed ↔
      (∀ f ∈ rest, ∀ q, f.2.query? = some q → ∃ v, (s.engine.query q data context).result = .ok v) ∧
        computed = rest.map fun f => (f.1, (ofProps props transform data context).answered s f.2) := by
    intro rest
    induction rest with
    | nil => simp [Props.Become]
    | cons f rest ih =>
      intro computed
      rw [Props.Become, List.forall₂_cons_left_iff]
      constructor
      · rintro ⟨⟨k, p⟩, computed, ⟨rfl, hp⟩, hrest, rfl⟩
        obtain ⟨hf, rfl⟩ := (becomes_iff props transform).mp hp
        obtain ⟨hall, rfl⟩ := (ih computed).mp hrest
        exact ⟨List.forall_mem_cons.mpr ⟨hf, hall⟩, rfl⟩
      · rintro ⟨h, rfl⟩
        obtain ⟨hf, hrest⟩ := List.forall_mem_cons.mp h
        exact ⟨(f.1, (ofProps props transform data context).answered s f.2), _,
          ⟨rfl, (becomes_iff props transform).mpr ⟨hf, rfl⟩⟩, (ih _).mpr ⟨hrest, rfl⟩, rfl⟩
  rw [passes_props_iff, hall]
  rfl

theorem fail_iff : props.Fail s.engine data context e ↔
    (ofProps props transform data context).Fails s .props e := by
  constructor
  · rintro ⟨f, hf, q, hq, he⟩
    exact ⟨⟨some f.1, .text q, data, context⟩, List.mem_filterMap.mpr ⟨f, hf, by rw [hq]; rfl⟩, he⟩
  · rintro ⟨i, hi, he⟩
    obtain ⟨f, hf, hi⟩ := List.mem_filterMap.mp hi
    obtain ⟨q, hq, rfl⟩ := Option.map_eq_some_iff.mp hi
    exact ⟨f, hf, q, hq, he⟩

theorem transformFails_iff :
    s.TransformFails transform data context ((ofProps props transform data context).given s) e ↔
      (ofProps props transform data context).Fails s .transform e := by
  have hdata : (ofProps props transform data context).produced s = data := rfl
  have hcontext : (ofProps props transform data context).context = context := rfl
  have htransform : (ofProps props transform data context).transform = transform := rfl
  simp only [Setup.TransformFails, Fails, inquiries, question?, hdata, hcontext, htransform]
  cases transform with
  | none => simp
  | some t =>
    cases t with
    | map f => simp
    | query q => simp [Inquiry.answer]

/-- An answer replaces props if it is an object. -/
theorem reshape_answer (h : (props.map Prod.fst).Nodup) (v : Value) :
    ((∀ fields, v ≠ .obj fields) → reshape props v = props) ∧
      ∀ fields, v = .obj fields → (Fields.Sorted fields → Fields.Sorted (reshape props v)) ∧
        ∀ key, Fields.get? (reshape props v) key =
          ((Fields.get? fields key).map .json).or ((Props.handler? props key).map .handler) := by
  constructor
  · intro hother
    cases v with
    | obj fields => exact absurd rfl (hother fields)
    | _ => rfl
  · rintro fields rfl
    refine ⟨fun hsorted => ?_, fun key => ?_⟩
    · refine sorted_keepHandlers ?_ props
      exact List.pairwise_map.mpr hsorted
    · rw [reshape, get?_keepHandlers h, Fields.get?_map]

/-- A transform that is passed has reshaped the props. -/
theorem transforms_reshaped (hprops : (props.map Prod.fst).Nodup)
    (h : (ofProps props transform data context).Passes s .transform) :
    s.Transforms data context ((ofProps props transform data context).given s)
      ((ofProps props transform data context).reshaped s) transform := by
  have hgiven : ((ofProps props transform data context).given s).map Prod.fst = props.map Prod.fst := by
    rw [given, List.map_map]
    rfl
  cases transform with
  | none => rfl
  | some t =>
    cases t with
    | map f => rfl
    | query q =>
      obtain ⟨v, hv, -⟩ := h _ (List.mem_singleton_self _)
      have hvalue : (ofProps props (some (.query q)) data context).reshaped s =
          reshape ((ofProps props (some (.query q)) data context).given s)
            (s.ask q data (transformContext ((ofProps props (some (.query q)) data context).given s)
              context)).value := rfl
      have hanswer : (s.ask q data (transformContext
          ((ofProps props (some (.query q)) data context).given s) context)).result = .ok v := hv
      rw [Answer.value, hanswer] at hvalue
      rw [hvalue]
      exact ⟨v, hv, reshape_answer (hgiven ▸ hprops) v⟩

/-! The course of the computation. -/

/-- Where a computation stands: it waits for the queries among the props, or for the transform once these are
passed, or it has come to an end. -/
inductive Computing (sub : Subject F) (s : Setup F α) : Progress F → Prop
  | props {q : Preparation F} (events : List Event) (h : sub.waitingAt s .props = some q) :
      Computing sub s (.awaits events q)
  | transform {q : Preparation F} (events : List Event) (passed : sub.Passes s .props)
      (h : sub.waitingAt s .transform = some q) : Computing sub s (.awaits events q)
  | failed {e : Error} (h : sub.Fails s .props e ∨ sub.Passes s .props ∧ sub.Fails s .transform e) :
      Computing sub s (.failed e)
  | prepared (passed : sub.Passes s .props) (reshaped : sub.Passes s .transform) :
      Computing sub s (.prepared (sub.prepared s))

/-- A look at a computation while these gates are open: it goes one move further if the answers are there. -/
def look (sub : Subject F) (s : Setup F α) (p : Progress F) (opened : List Gate) : Progress F :=
  match p with
  | .awaits _ q => (sub.advance s opened q).getD p
  | p => p

section

variable {sub : Subject F} {p : Progress F}

theorem computing_after_transform (hclasses : sub.waitingAt s .classes = none) (passed : sub.Passes s .props)
    (reshaped : sub.Passes s .transform) : Computing sub s (sub.enter s Stage.transform.after) := by
  rw [Stage.after, enter, hclasses]
  exact .prepared passed reshaped

theorem computing_after_props (hclasses : sub.waitingAt s .classes = none) (passed : sub.Passes s .props) :
    Computing sub s (sub.enter s Stage.props.after) := by
  rw [Stage.after, enter]
  cases h : sub.waitingAt s .transform with
  | none => exact computing_after_transform hclasses passed (passes_of_waitingAt h)
  | some q => exact .transform _ passed h

/-- A look leaves a computation where it is, or brings it further. -/
theorem Computing.look (h : Computing sub s p) (hclasses : sub.waitingAt s .classes = none)
    (opened : List Gate) : Computing sub s (sub.look s p opened) := by
  cases h with
  | @props q events hwaiting =>
    cases hadvance : sub.advance s opened q with
    | none =>
      rw [Subject.look, hadvance]
      exact .props events hwaiting
    | some p' =>
      rw [Subject.look, hadvance]
      cases verdict_of_advance hwaiting hadvance with
      | skips falsy => exact absurd falsy.1 (by decide)
      | fails wrong => exact .failed (.inl wrong)
      | passes passed => exact computing_after_props hclasses passed
  | @transform q events passed hwaiting =>
    cases hadvance : sub.advance s opened q with
    | none =>
      rw [Subject.look, hadvance]
      exact .transform events passed hwaiting
    | some p' =>
      rw [Subject.look, hadvance]
      cases verdict_of_advance hwaiting hadvance with
      | skips falsy => exact absurd falsy.1 (by decide)
      | fails wrong => exact .failed (.inr ⟨passed, wrong⟩)
      | passes reshaped => exact computing_after_transform hclasses passed reshaped
  | failed h => exact .failed h
  | prepared passed reshaped => exact .prepared passed reshaped

theorem Computing.looks (h : Computing sub s p) (hclasses : sub.waitingAt s .classes = none)
    (moments : List (List Gate)) : Computing sub s (moments.foldl (sub.look s) p) := by
  induction moments generalizing p with
  | nil => exact h
  | cons opened moments ih => exact ih (h.look hclasses opened)

/-- Nothing is awaited any more. -/
def Ended (p : Progress F) : Prop :=
  ∀ events q, p ≠ .awaits events q

theorem Ended.look (h : Ended p) (opened : List Gate) : sub.look s p opened = p := by
  cases p with
  | awaits events q => exact absurd rfl (h events q)
  | _ => rfl

/-- A look while nothing blocks brings a computation to what its stage comes to. -/
theorem verdict_of_look {st : Stage} {q : Preparation F} {opened : List Gate} (h : sub.waitingAt s st = some q)
    (hopen : q.blockedOn opened = []) (events : List Event) :
    Verdict sub s st (sub.look s (.awaits events q) opened) := by
  cases hadvance : sub.advance s opened q with
  | none => exact absurd hopen (World.blocked_of_advance hadvance)
  | some p' =>
    rw [Subject.look, hadvance]
    exact verdict_of_advance h hadvance

theorem ended_of_transform {q : Preparation F} {opened : List Gate}
    (hclasses : sub.waitingAt s .classes = none) (h : sub.waitingAt s .transform = some q)
    (hopen : q.blockedOn opened = []) (events : List Event) :
    Ended (sub.look s (.awaits events q) opened) := by
  have hverdict := verdict_of_look h hopen events
  have hend : ∀ p', Verdict sub s .transform p' → Ended p' := by
    intro p' hp' events q hwaits
    cases hp' with
    | skips falsy => cases hwaits
    | fails wrong => cases hwaits
    | passes passed =>
      rw [Stage.after, enter, hclasses] at hwaits
      cases hwaits
  exact hend _ hverdict

/-- Two looks while nothing blocks bring a computation to its end. -/
theorem Computing.ended (h : Computing sub s p) (hclasses : sub.waitingAt s .classes = none)
    {opened opened' : List Gate} (hprops : ∀ q, sub.waitingAt s .props = some q → q.blockedOn opened = [])
    (htransform : ∀ q, sub.Passes s .props → sub.waitingAt s .transform = some q →
      q.blockedOn opened = [] ∧ q.blockedOn opened' = []) :
    Ended (sub.look s (sub.look s p opened) opened') := by
  cases h with
  | @props q events hwaiting =>
    have hverdict := verdict_of_look hwaiting (hprops q hwaiting) events
    have hend : ∀ p', Verdict sub s .props p' → Ended (sub.look s p' opened') := by
      intro p' hp' events' q' hwaits
      cases hp' with
      | skips falsy => cases hwaits
      | fails wrong => cases hwaits
      | passes passed =>
        cases hnext : sub.waitingAt s .transform with
        | none =>
          rw [Stage.after, enter, hnext, enter, hclasses] at hwaits
          cases hwaits
        | some q =>
          rw [Stage.after, enter, hnext] at hwaits
          exact ended_of_transform hclasses hnext (htransform q passed hnext).2 _ _ _ hwaits
    exact hend _ hverdict
  | @transform q events passed hwaiting =>
    have hended := ended_of_transform hclasses hwaiting (htransform q passed hwaiting).1 events
    rwa [hended.look]
  | failed h =>
    intro _ _ hwaits
    cases hwaits
  | prepared passed reshaped =>
    intro _ _ hwaits
    cases hwaits

end

end Subject

/-! What comes of it. -/

/-- The props of a config as they are computed, looked at again and again while gates open. -/
def Setup.computation (s : Setup F α) (c : Config F) (transform : Option (Transform F)) (data context : Value)
    (moments : List (List Gate)) : Progress F :=
  moments.foldl ((Subject.ofProps c.props transform data context).look s)
    ((Subject.ofProps c.props transform data context).askProps s data)

/-- The answers that a computation needs are there while these gates are open. -/
structure Setup.Answered (s : Setup F α) (c : Config F) (transform : Option (Transform F))
    (data context : Value) (opened : List Gate) : Prop where
  props : ∀ f ∈ c.props, ∀ q, f.2.query? = some q → (s.engine.query q data context).isReady opened = true
  transform : ∀ computed q, Props.Become s.engine data context c.props computed →
    transform = some (.query q) → (s.ask q data (transformContext computed context)).isReady opened = true

/-- A computation fails with an error of a query among the props, or of the transform after them. -/
def Setup.ComputationFails (s : Setup F α) (c : Config F) (transform : Option (Transform F))
    (data context : Value) (e : Error) : Prop :=
  Props.Fail s.engine data context c.props e ∨
    ∃ computed, Props.Become s.engine data context c.props computed ∧
      s.TransformFails transform data context computed e

section

variable {s : Setup F α} {c : Config F} {transform : Option (Transform F)} {data context : Value} {e : Error}

theorem computation_computing (s : Setup F α) (c : Config F) (transform : Option (Transform F))
    (data context : Value) (moments : List (List Gate)) :
    Subject.Computing (Subject.ofProps c.props transform data context) s
      (s.computation c transform data context moments) :=
  Subject.Computing.looks (.props _ rfl) rfl moments

theorem computationFails_iff : s.ComputationFails c transform data context e ↔
    (Subject.ofProps c.props transform data context).Fails s .props e ∨
      (Subject.ofProps c.props transform data context).Passes s .props ∧
        (Subject.ofProps c.props transform data context).Fails s .transform e := by
  refine or_congr Subject.fail_iff ⟨?_, ?_⟩
  · rintro ⟨computed, hcomputed, hfails⟩
    obtain ⟨hpassed, rfl⟩ := (Subject.become_iff transform).mp hcomputed
    exact ⟨hpassed, Subject.transformFails_iff.mp hfails⟩
  · rintro ⟨hpassed, hfails⟩
    exact ⟨_, (Subject.become_iff _).mpr ⟨hpassed, rfl⟩, Subject.transformFails_iff.mpr hfails⟩

theorem blockedOn?_of_isReady {a : Answer} {opened : List Gate} (h : a.isReady opened = true) :
    a.blockedOn? opened = none := by
  apply List.find?_eq_none.mpr
  intro g hg
  simpa using List.all_eq_true.mp h g hg

theorem Setup.Answered.blockedOn_props {opened : List Gate} (h : s.Answered c transform data context opened)
    {q : Preparation F} (hq : (Subject.ofProps c.props transform data context).waitingAt s .props = some q) :
    q.blockedOn opened = [] := by
  cases hq
  refine List.filterMap_eq_nil_iff.mpr (List.forall_mem_map.mpr fun f hf => ?_)
  simp only [askProp]
  split
  · rename_i q hq
    exact blockedOn?_of_isReady (h.props f hf q hq)
  · rfl

theorem Setup.Answered.blockedOn_transform {opened : List Gate} (h : s.Answered c transform data context opened)
    (hpassed : (Subject.ofProps c.props transform data context).Passes s .props) {q : Preparation F}
    (hq : (Subject.ofProps c.props transform data context).waitingAt s .transform = some q) :
    q.blockedOn opened = [] := by
  have hgiven := (Subject.become_iff _).mpr ⟨hpassed, rfl⟩
  cases transform with
  | none => cases hq
  | some t =>
    cases t with
    | map f => cases hq
    | query q =>
      cases hq
      exact congrArg Option.toList (blockedOn?_of_isReady (h.transform _ q hgiven rfl))

/-- A query takes no handlers but those whose names are in its answer. -/
theorem Setup.Transforms.keeps {computed props : Props F} {q : Query F}
    (h : s.Transforms data context computed props (some (.query q))) {key : String} {f : F}
    (hf : Props.handler? computed key = some f) :
    Props.handler? props key = some f ∨
      ∃ fields v, (s.ask q data (transformContext computed context)).result = .ok (.obj fields) ∧
        Fields.get? fields key = some v ∧ Fields.get? props key = some (.json v) := by
  obtain ⟨answer, hanswer, hother, hobject⟩ := h
  by_cases hobj : ∃ fields, answer = .obj fields
  · obtain ⟨fields, rfl⟩ := hobj
    obtain ⟨-, hget⟩ := hobject fields rfl
    have hget := hget key
    rw [hf] at hget
    cases hfield : Fields.get? fields key with
    | none =>
      rw [hfield] at hget
      exact .inl (by rw [Props.handler?, hget]; rfl)
    | some v =>
      rw [hfield] at hget
      exact .inr ⟨fields, v, hanswer, hfield, hget⟩
  · rw [hother fun fields he => hobj ⟨fields, he⟩]
    exact .inl hf

/-- What holds of a computation wherever it stands. -/
structure Setup.Computes (s : Setup F α) (c : Config F) (transform : Option (Transform F)) (data context : Value)
    (p : Progress F) : Prop where
  /-- An error is one that a query gives. -/
  fails : ∀ e, p = .failed e → s.ComputationFails c transform data context e
  /-- The transform is not asked before all queries among the props are answered with values. -/
  asks : ∀ events q, p = .awaits events q → q.stage? = some .transform →
    (∀ e, ¬ Props.Fail s.engine data context c.props e) ∧
      ∃ computed, Props.Become s.engine data context c.props computed
  /-- The props are what the transform makes of those that the config's become. -/
  gives : ∀ r, p = .prepared r → ∃ computed, Props.Become s.engine data context c.props computed ∧
    s.Transforms data context computed r.props transform
  /-- Once nothing is awaited, there are props, or it has failed: this just if one of the queries fails. -/
  ends : Subject.Ended p → ((∃ e, p = .failed e) ∨ ∃ r, p = .prepared r) ∧
    ((∃ e, p = .failed e) ↔ ∃ e, s.ComputationFails c transform data context e)

theorem computes (hsorted : Fields.Sorted c.props) {p : Progress F}
    (h : Subject.Computing (Subject.ofProps c.props transform data context) s p) :
    s.Computes c transform data context p := by
  cases h with
  | @props q events hwaiting =>
    refine ⟨nofun, ?_, nofun, fun hended => absurd rfl (hended events q)⟩
    intro events' q' hq hstage
    cases hq
    rw [Subject.stage_of_waitingAt hwaiting] at hstage
    cases hstage
  | @transform q events passed hwaiting =>
    have hprops := (Subject.become_iff _).mpr ⟨passed, rfl⟩
    exact ⟨nofun, fun _ _ _ _ => ⟨fun e he => passed.not_fails (Subject.fail_iff.mp he), _, hprops⟩, nofun,
      fun hended => absurd rfl (hended events q)⟩
  | @failed e h =>
    have hfails := computationFails_iff.mpr h
    refine ⟨?_, nofun, nofun, fun _ => ⟨.inl ⟨e, rfl⟩, iff_of_true ⟨e, rfl⟩ ⟨e, hfails⟩⟩⟩
    intro e' he
    cases he
    exact hfails
  | prepared passed reshaped =>
    refine ⟨nofun, nofun, ?_, fun _ => ⟨.inr ⟨_, rfl⟩, iff_of_false nofun ?_⟩⟩
    · intro r hr
      cases hr
      exact ⟨_, (Subject.become_iff _).mpr ⟨passed, rfl⟩, Subject.transforms_reshaped hsorted.nodup reshaped⟩
    · rintro ⟨e, he⟩
      rcases computationFails_iff.mp he with hprops | ⟨-, htransform⟩
      · exact passed.not_fails hprops
      · exact reshaped.not_fails htransform

/-- Whatever the order in which the answers come, a computation of props fails just if a query among the props
fails, in which case the transform is not asked, or the query of the transform; and else it gives the props that
the transform makes of those of the config, each with its answer in place of its query. A query of a transform
loses no handlers but for fields of its answer. All of this is settled when the answers are there. -/
theorem computation_exact (s : Setup F α) {c : Config F} (hsorted : Fields.Sorted c.props)
    (transform : Option (Transform F)) (data context : Value) (moments : List (List Gate)) :
    s.Computes c transform data context (s.computation c transform data context moments) ∧
      (∀ before opened opened', moments = before ++ [opened, opened'] →
        s.Answered c transform data context opened → s.Answered c transform data context opened' →
        Subject.Ended (s.computation c transform data context moments)) ∧
      (∀ moments' r r', s.computation c transform data context moments = .prepared r →
        s.computation c transform data context moments' = .prepared r' → r' = r) ∧
      ∀ r q key f, s.computation c transform data context moments = .prepared r →
        transform = some (.query q) → Props.handler? c.props key = some f →
        Props.handler? r.props key = some f ∨ ∃ computed fields v,
          Props.Become s.engine data context c.props computed ∧
          (s.ask q data (transformContext computed context)).result = .ok (.obj fields) ∧
          Fields.get? fields key = some v ∧ Fields.get? r.props key = some (.json v) := by
  have hcomputing := computation_computing s c transform data context
  refine ⟨computes hsorted (hcomputing moments), ?_, ?_, ?_⟩
  · rintro before opened opened' rfl hopened hopened'
    rw [Setup.computation, List.foldl_append]
    exact (hcomputing before).ended rfl (fun q hq => hopened.blockedOn_props hq) fun q hpassed hq =>
      ⟨hopened.blockedOn_transform hpassed hq, hopened'.blockedOn_transform hpassed hq⟩
  · have hprepared : ∀ moments r, s.computation c transform data context moments = .prepared r →
        r = (Subject.ofProps c.props transform data context).prepared s := by
      intro moments r hr
      have hstands := hcomputing moments
      rw [hr] at hstands
      cases hstands
      rfl
    intro moments' r r' hr hr'
    rw [hprepared moments r hr, hprepared moments' r' hr']
  · rintro r q key f hr rfl hf
    obtain ⟨computed, hcomputed, htransforms⟩ := (computes hsorted (hcomputing moments)).gives r hr
    refine (htransforms.keeps ((hcomputed.handler?_eq key).trans hf)).imp_right ?_
    rintro ⟨fields, v, hanswer, hfield, hget⟩
    exact ⟨computed, fields, v, hcomputed, hanswer, hfield, hget⟩

end

/-- A language of two queries, each with a gate of its own. -/
def gatedEngine : Engine where
  query q _ _ := if q = "label" then ⟨[], ["first"], .ok (.str "a")⟩
    else ⟨[], ["second"], .ok (.obj [("text", .str "b")])⟩
  parseLiteral _ := .ok []
  truthy _ := true

/-- A gate opens before it is waited for. The answer of the transform takes the place of the text, and of what is
not a handler. -/
theorem computation_exact_of_gated :
    let s : Setup Unit Box.Item := { Setup.scripted fun _ => [] with engine := gatedEngine }
    let c : Config Unit :=
      { props := [("limit", .json .null), ("onClick", .handler ()), ("text", .json (.str "=label"))] }
    let transform := some (.query (.text "shape"))
    let moments := [["second"], ["first", "second"], ["first", "second"]]
    Fields.Sorted c.props ∧ ∃ r, s.computation c transform .null .null moments = .prepared r ∧
      r.props = [("onClick", .handler ()), ("text", .json (.str "b"))] ∧
      (∃ computed, Props.Become s.engine .null .null c.props computed ∧
        s.Transforms .null .null computed r.props transform) ∧
      Props.handler? r.props "onClick" = some () := by
  intro s c transform moments
  have hsorted : Fields.Sorted c.props := by
    simp only [c, Fields.Sorted, List.pairwise_cons, List.mem_cons, List.not_mem_nil, or_false, forall_eq_or_imp,
      forall_eq, List.Pairwise.nil, and_true, false_imp_iff, implies_true]
    decide
  obtain ⟨r, hr, hprops⟩ : ∃ r, s.computation c transform .null .null moments = .prepared r ∧
      r.props = [("onClick", .handler ()), ("text", .json (.str "b"))] := ⟨_, by cbv, by cbv⟩
  obtain ⟨hcomputes, -, -, -⟩ := computation_exact s hsorted transform .null .null moments
  exact ⟨hsorted, r, hr, hprops, hcomputes.gives r hr, by rw [hprops]; cbv⟩

end Montage
