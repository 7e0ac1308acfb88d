import Montage.Proofs.Config.Data
import Montage.Proofs.Render.Tasks
import Montage.Query.Expression

/-!
Preparations that never wait. An engine that answers at once makes them of all configs that are data, where
the view does not reshape its props. Main statement: such a preparation goes on in one way, whichever gates
are open and whatever it is painted with.
-/

namespace Montage

open Json (Value)

variable {F : Type}

/-- An engine whose answers wait for no gate. -/
def Engine.IsInstant (engine : Engine) : Prop :=
  ∀ q data context, (engine.query q data context).gates = []

theorem Expression.isInstant_engine : engine.IsInstant :=
  fun _ _ _ => rfl

/-- A prop that is data, or an answer that waits for no gate. -/
def AskedProp.IsInstant : AskedProp F → Prop
  | .given p => p.IsData
  | .asked a => a.gates = []

/-- A preparation that waits for no gate, and whose props are data. -/
def Preparation.IsInstant : Preparation F → Prop
  | .fresh => True
  | .condition a => a.gates = []
  | .selection a => a.gates = []
  | .dataCondition _ a => a.gates = []
  | .gathering _ asked => ∀ f ∈ asked, f.2.IsInstant
  | .reshaping .. => False
  | .naming _ props a => a.gates = [] ∧ Props.AreData props

/-- A preparation that goes on as an instant one, or ends, with props that are data if it is done. -/
def Progress.IsInstant : Progress F → Prop
  | .awaits _ p => p.IsInstant
  | .skipped => True
  | .failed _ => True
  | .prepared r => Props.AreData r.props

/-! Props that are gathered. -/

section Gathering

variable {asked : List (String × AskedProp F)} {opened opened' : List Gate}

theorem isReady_of_gates {a : Answer} (h : a.gates = []) : a.isReady opened = true := by
  rw [Answer.isReady, h]
  rfl

theorem AskedProp.IsInstant.ready {p : AskedProp F} (h : p.IsInstant) :
    p.ready? opened = p.ready? opened' := by
  cases p with
  | given p => rfl
  | asked a =>
    have h : a.gates = [] := h
    simp only [ready?, isReady_of_gates h]

theorem AskedProp.IsInstant.data {p : AskedProp F} {v : PropValue F} (h : p.IsInstant)
    (hv : p.ready? opened = some (.ok v)) : v.IsData := by
  cases p with
  | given p => exact Except.ok.inj (Option.some.inj hv) ▸ h
  | asked a =>
    have h : a.gates = [] := h
    simp only [ready?, isReady_of_gates h, if_true] at hv
    cases hresult : a.result with
    | error e =>
      rw [hresult] at hv
      cases hv
    | ok value =>
      rw [hresult] at hv
      exact Except.ok.inj (Option.some.inj hv) ▸ PropValue.isData_json value

theorem gather_congr (h : ∀ f ∈ asked, f.2.ready? opened = f.2.ready? opened') :
    gather? opened asked = gather? opened' asked := by
  have hall : firstError? opened asked = firstError? opened' asked ∧
      errorInTurn? opened asked = errorInTurn? opened' asked ∧
      allReady? opened asked = allReady? opened' asked := by
    induction asked with
    | nil => exact ⟨rfl, rfl, rfl⟩
    | cons f asked ih =>
      obtain ⟨hf, hrest⟩ := List.forall_mem_cons.mp h
      obtain ⟨hfirst, hturn, hready⟩ := ih hrest
      simp only [firstError?, errorInTurn?, allReady?, hf, hfirst, hturn, hready, and_self]
  obtain ⟨hfirst, hturn, hready⟩ := hall
  rw [gather?, gather?, hfirst, hturn, hready]

theorem allReady_data (h : ∀ f ∈ asked, f.2.IsInstant) {props : Props F}
    (hall : allReady? opened asked = some props) : Props.AreData props := by
  induction asked generalizing props with
  | nil => exact Option.some.inj hall ▸ nofun
  | cons f asked ih =>
    obtain ⟨hf, hrest⟩ := List.forall_mem_cons.mp h
    simp only [allReady?] at hall
    split at hall
    · rename_i hready hprops
      rw [← Option.some.inj hall]
      exact List.forall_mem_cons.mpr ⟨hf.data hready, ih hrest hprops⟩
    · cases hall

/-- Props none of which waits are gathered at once. -/
theorem gathered_of_instant (h : ∀ f ∈ asked, f.2.IsInstant) :
    ∃ r, (∀ props, r = .ok props → Props.AreData props) ∧ ∀ opened, gather? opened asked = some r := by
  cases hr : gather? [] asked with
  | none =>
    refine absurd (List.filterMap_eq_nil_iff.mpr fun f hf => ?_) (World.blocked_of_gathering hr)
    have hf := h f hf
    cases hp : f.2 with
    | given p => rfl
    | asked a =>
      rw [hp] at hf
      have hgates : a.gates = [] := hf
      rw [AskedProp.blockedOn?, Answer.blockedOn?, hgates]
      rfl
  | some r =>
    refine ⟨r, fun props hok => ?_, fun opened => (gather_congr fun f hf => (h f hf).ready).trans hr⟩
    rcases gather_cases hr with ⟨e, rfl, _⟩ | ⟨props', rfl, hall⟩
    · cases hok
    · exact Except.ok.inj hok ▸ allReady_data h hall

theorem isInstant_askProps {engine : Engine} (h : engine.IsInstant) {props : Props F} (hprops : Props.AreData props)
    (data context : Value) : ∀ f ∈ askProps engine data context props, f.2.IsInstant := by
  intro f hf
  obtain ⟨prop, hprop, rfl⟩ := List.mem_map.mp hf
  simp only [askProp]
  split
  · exact h ..
  · exact hprops prop hprop

end Gathering

/-! What is asked. -/

section Asking

variable {α β : Type} [Medium α] [Medium β] {s : Setup F α} {s' : Setup F β}

theorem Query.IsData.ask {q : Query F} (hq : q.IsData) (h : s'.engine = s.engine) :
    s'.ask q = s.ask q := by
  funext data context
  cases q with
  | text expression => simp only [Setup.ask, h]
  | value v => rfl
  | function f => exact hq.elim

theorem Query.IsData.gates {q : Query F} (hq : q.IsData) (h : s.engine.IsInstant)
    (data context : Value) : (s.ask q data context).gates = [] := by
  cases q with
  | text expression => exact h expression data context
  | value v => rfl
  | function f => exact hq.elim

namespace Subject

variable {sub : Subject F} (hconfig : sub.config.IsData) (htransform : sub.transform = none)
  (hinstant : s.engine.IsInstant) (hengine : s'.engine = s.engine)

include hinstant in
theorem isInstant_askClasses {data : Value} {props : Props F} (h : Props.AreData props) :
    (sub.askClasses s data props).IsInstant := by
  unfold askClasses
  split
  · exact h
  · exact ⟨hinstant .., h⟩

include hengine in
theorem askClasses_congr (data : Value) (props : Props F) :
    sub.askClasses s' data props = sub.askClasses s data props := by
  rw [askClasses, askClasses, hengine]

include htransform in
theorem askTransform_of_none (data : Value) (props : Props F) :
    sub.askTransform s data props = sub.askClasses s data props := by
  rw [askTransform, htransform]

include hconfig hinstant in
theorem isInstant_askProps (data : Value) : (sub.askProps s data).IsInstant :=
  Montage.isInstant_askProps hinstant hconfig.props data _

include hengine in
theorem askProps_congr (data : Value) : sub.askProps s' data = sub.askProps s data := by
  rw [askProps, askProps, hengine]

include hconfig hinstant in
theorem isInstant_askDataCondition (data : Value) : (sub.askDataCondition s data).IsInstant := by
  unfold askDataCondition
  split
  · exact isInstant_askProps hconfig hinstant data
  · exact (hconfig.whenData _ ‹_›).gates hinstant ..

include hconfig hengine in
theorem askDataCondition_congr (data : Value) :
    sub.askDataCondition s' data = sub.askDataCondition s data := by
  unfold askDataCondition
  split
  · exact askProps_congr hengine data
  · rw [(hconfig.whenData _ ‹_›).ask hengine]

include hconfig hinstant in
theorem isInstant_askSelection : (sub.askSelection s).IsInstant := by
  unfold askSelection
  split
  · exact isInstant_askDataCondition hconfig hinstant _
  · exact (hconfig.data _ ‹_›).gates hinstant ..

include hconfig hengine in
theorem askSelection_congr : sub.askSelection s' = sub.askSelection s := by
  unfold askSelection
  split
  · exact askDataCondition_congr hconfig hengine _
  · rw [(hconfig.data _ ‹_›).ask hengine]

include hconfig hinstant in
theorem isInstant_askCondition : (sub.askCondition s).IsInstant := by
  unfold askCondition
  split
  · exact isInstant_askSelection hconfig hinstant
  · exact (hconfig.when _ ‹_›).gates hinstant ..

include hconfig hengine in
theorem askCondition_congr : sub.askCondition s' = sub.askCondition s := by
  unfold askCondition
  split
  · exact askSelection_congr hconfig hengine
  · rw [(hconfig.when _ ‹_›).ask hengine]

/-- An answer that waits for no gate is had at once. -/
theorem withAnswer_of_gates {a : Answer} (h : a.gates = []) {k k' : Value → Progress F}
    (hk : ∀ v, (k v).IsInstant) (hsame : k' = k) :
    ∃ g : Progress F, g.IsInstant ∧ (∀ opened, withAnswer opened a k = some g) ∧
      ∀ opened, withAnswer opened a k' = some g := by
  subst hsame
  cases hresult : a.result with
  | error e =>
    have hfailed : ∀ opened, withAnswer opened a k' = some (.failed e) := fun opened => by
      rw [withAnswer, isReady_of_gates h, if_pos rfl, hresult]
    exact ⟨.failed e, trivial, hfailed, hfailed⟩
  | ok v =>
    have hgood : ∀ opened, withAnswer opened a k' = some (k' v) := fun opened => by
      rw [withAnswer, isReady_of_gates h, if_pos rfl, hresult]
    exact ⟨_, hk v, hgood, hgood⟩

include hconfig htransform hinstant hengine

/-- A preparation that waits for nothing goes on in one way, for all that ask the same engine. -/
theorem advance_of_instant {p : Preparation F} (hp : p.IsInstant) :
    ∃ g : Progress F, g.IsInstant ∧ (∀ opened, sub.advance s opened p = some g) ∧
      ∀ opened, sub.advance s' opened p = some g := by
  cases p with
  | fresh =>
    exact ⟨_, isInstant_askCondition hconfig hinstant, fun _ => rfl,
      fun _ => congrArg some (askCondition_congr hconfig hengine)⟩
  | condition a =>
    refine withAnswer_of_gates hp (fun v => ?_) (funext fun v => ?_)
    · split
      · exact isInstant_askSelection hconfig hinstant
      · trivial
    · rw [hengine, askSelection_congr hconfig hengine]
  | selection a =>
    exact withAnswer_of_gates hp (fun v => isInstant_askDataCondition hconfig hinstant v)
      (funext fun v => askDataCondition_congr hconfig hengine v)
  | dataCondition data a =>
    refine withAnswer_of_gates hp (fun v => ?_) (funext fun v => ?_)
    · split
      · exact isInstant_askProps hconfig hinstant data
      · trivial
    · rw [hengine, askProps_congr hengine]
  | gathering data asked =>
    obtain ⟨r, hdata, hr⟩ := gathered_of_instant hp
    cases r with
    | error e =>
      exact ⟨.failed e, trivial, fun opened => by rw [advance, hr]; rfl,
        fun opened => by rw [advance, hr]; rfl⟩
    | ok props =>
      refine ⟨sub.askClasses s data props, isInstant_askClasses hinstant (hdata props rfl),
        fun opened => ?_, fun opened => ?_⟩
      · rw [advance, hr]
        exact congrArg some (askTransform_of_none htransform data props)
      · rw [advance, hr]
        exact congrArg some ((askTransform_of_none htransform data props).trans
          (askClasses_congr hengine data props))
  | reshaping data props a => exact hp.elim
  | naming data props a => exact withAnswer_of_gates hp.1 (fun _ => hp.2) rfl

end Subject

end Asking

end Montage
