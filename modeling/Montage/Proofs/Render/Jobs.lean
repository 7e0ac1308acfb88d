import Mathlib.Algebra.GroupWithZero.Nat
import Mathlib.Order.Bounds.Basic
import Montage.Proofs.Render.Clocks

/-!
What the rendering of a config comes to, apart from the nodes it is painted with. A job is what is left
to be done for a task, with what it has painted as a plain tree; on its turn it goes on or ends, as its
task does on a step. Main statement: what a job ends with, and when, depends only on the job, the epoch
in which it begins, and the clock.
-/

namespace Montage

open Json (Value)

variable {F α : Type}

/-- What a config is rendered with, apart from the place held for it. -/
structure Brief (F : Type) where
  config : Config F
  resolved : Resolved F
  data : Value
  context : Value
  item : Option ListItem

/-- Puts trees at the end of a tree. -/
def Rose.put (rs : List (Rose α)) : Rose α → Rose α
  | .node v kids => .node v (kids ++ rs)

def Rose.mapItem (f : α → α) : Rose α → Rose α
  | .node v kids => .node (f v) kids

/-- What stands after the part of a list that is shown, as a tree. -/
def Affordance.rose (a : Affordance α) : Rose α :=
  .node a.wrapper ((a.label.toList.map fun l => .node l []) ++
    a.buttons.map fun b => .node b.node [.node b.label []])

variable [Medium α]

namespace Brief

def subject (b : Brief F) : Subject F :=
  ⟨b.config, b.resolved.options.transform, b.data, b.context⟩

def callOf (b : Brief F) (s : Setup F α) (p : Prepared F) : Call F :=
  ⟨p.props, p.data, b.context, b.item, s.settings, s.lookup⟩

/-- What a config that is taken up is rendered with. -/
def ofConfig (α : Type) [Medium α] (registry : Registry F) (around : World.Surroundings)
    (c : Config F) : Brief F :=
  ⟨c.ensureView, (World.empty registry : World F α).resolve c.ensureView, around.data,
    around.context, around.item⟩

/-- What a finished output puts in its place: itself with its classes, or what a fragment holds. -/
def settled (b : Brief F) (s : Setup F α) (p : Prepared F) : Rose α → List (Rose α)
  | .node v kids =>
    if Medium.isFragment v then kids
    else [.node ((Scene.classesOf s.settings b.resolved.name? p.classes).foldl
      (fun v c => Medium.addClass c v) v) kids]

end Brief

/-- What is left to be done for a task. A draft is empty only if its output is gone. -/
inductive Job (F α : Type) [Medium α] where
  | prepare (b : Brief F) (p : Preparation F)
  | paint (b : Brief F) (ready : Prepared F) (draft : List (Rose α)) (steps : List (Step F α))
      (after : Bool)
  /-- To have jobs done and then close. -/
  | expand (jobs : List (Job F α))
  | close (shown : List (Rose α))

/-- What a turn of a job comes to. -/
inductive Move (F α : Type) [Medium α] where
  /-- Goes on once the jobs below it have ended, with what they show. -/
  | goes (next : List (Rose α) → Job F α) (below : List (Job F α))
  | ends (outcome : Option Outcome) (shown : List (Rose α))

namespace Job

/-- Jobs that are done together, if there are any. -/
def batch : List (Job F α) → Job F α
  | [] => .close []
  | jobs => .expand jobs

/-- The jobs that a raw config stands for. -/
def ofRaw (s : Setup F α) (registry : Registry F) (around : World.Surroundings)
    (raw : RawConfig F) : List (Job F α) :=
  (raw.normalize s.engine).map fun c => .prepare (.ofConfig α registry around c) .fresh

end Job

namespace Page

/-- The first item that is shown. -/
def start (page : Page F) : Nat :=
  min page.offset page.items.length

/-- The end of the part that is shown. -/
def stop (page : Page F) : Nat :=
  match page.limit with
  | none => page.items.length
  | some n => min (page.start + n) page.items.length

/-- The jobs of the part that is shown, a batch for each item. -/
def jobs (s : Setup F α) (registry : Registry F) (page : Page F) : List (Job F α) :=
  (World.listItems page.items page.start page.stop).map fun i =>
    .batch (Job.ofRaw s registry ⟨i.1, i.2.context page.context, some i.2⟩ page.item)

/-- What is shown after that part. -/
def rest (settings : Settings) (page : Page F) : List (Rose α) :=
  if page.stop < page.items.length then
    [(Medium.more settings page.limit (page.items.length - page.stop)).rose]
  else []

end Page

/-- The turn of a job that comes to a step of painting, and paints on as `next` says. -/
def Step.turn (s : Setup F α) (registry : Registry F) (opened : List Gate)
    (next : List (Rose α) → Job F α) (draft : List (Rose α)) (step : Step F α) :
    Option (Move F α) :=
  match step with
  | .plant r => some (.goes (fun _ => next (draft.map (Rose.put [r]))) [])
  | .mark m => some (.goes (fun _ => next (draft.map (Rose.mapItem (Medium.mark m)))) [])
  | .render raw data context item =>
    some (.goes (fun shown => next (draft.map (Rose.put shown)))
      (Job.ofRaw s registry ⟨data, context, item⟩ raw))
  | .start raw _ _ _ =>
    some (.goes (fun _ => next (draft.map
      (Rose.put ((raw.normalize s.engine).map fun _ => .node Medium.reserved [])))) [])
  | .list raw items context limit offset =>
    let page : Page F := ⟨raw, items, context, offset, limit, none⟩
    some (.goes (fun shown => next (draft.map (Rose.put (shown ++ page.rest s.settings))))
      (page.jobs s registry))
  | .wait g => if opened.contains g then some (.goes (fun _ => next draft) []) else none
  | .report _ | .onClick _ => some (.goes (fun _ => next draft) [])
  | .fail e => some (.ends (some .renderedError) [Medium.failure e none])
  | .panic message =>
    some (.ends (some .renderedError)
      [Medium.failure (.render (message.getD "view panicked")) none])

namespace Job

/-- What a preparation that goes on makes of a job. -/
def moveOf (s : Setup F α) (b : Brief F) (painter : Painter F) : Progress F → Move F α
  | .awaits _ p => .goes (fun _ => .prepare b p) []
  | .skipped => .ends (some .skipped) [.node (Medium.skip Medium.reserved) []]
  | .failed e => .ends (some .renderedError) [Medium.failure e none]
  | .prepared p =>
    .goes (fun _ => .paint b p [.node (Medium.output b.resolved.options.shape) []]
      (s.paint painter (b.callOf s p)) false) []

/-- The turn of a job; none while it has to wait. -/
def turn (s : Setup F α) (registry : Registry F) (job : Job F α) (opened : List Gate) :
    Option (Move F α) :=
  match job with
  | .prepare b p =>
    match b.resolved.painter?, b.resolved with
    | none, .failure why =>
      some (.ends (some .error) [Medium.failure why.error (some why.offending)])
    | none, _ => none
    | some painter, _ => (b.subject.advance s opened p).map (moveOf s b painter)
  | .paint b p draft (step :: rest) after =>
    step.turn s registry opened (fun draft => .paint b p draft rest after) draft
  | .paint b p draft [] after =>
    match after, b.config.postRender with
    | false, some f =>
      some (.goes (fun _ => .paint b p draft (s.host.paint f (b.callOf s p)) true) [])
    | _, _ => some (.ends (some .rendered) (draft.flatMap (b.settled s p)))
  | .expand jobs => some (.goes .close jobs)
  | .close shown => some (.ends none shown)

end Job

/-- A config that is prepared cannot be used, or its preparation goes on. -/
theorem Job.turn_prepare (s : Setup F α) (registry : Registry F) (b : Brief F) (p : Preparation F) :
    (∃ why, b.resolved = .failure why ∧ ∀ opened, (prepare b p).turn s registry opened =
      some (.ends (some .error) [Medium.failure why.error (some why.offending)])) ∨
    ∃ painter, b.resolved.painter? = some painter ∧ ∀ opened, (prepare b p).turn s registry opened =
      (b.subject.advance s opened p).map (moveOf s b painter) := by
  obtain ⟨config, resolved, data, context, item⟩ := b
  cases resolved with
  | failure why => exact .inl ⟨why, rfl, fun _ => rfl⟩
  | view v => exact .inr ⟨v.painter, rfl, fun _ => rfl⟩
  | inline f => exact .inr ⟨.host f, rfl, fun _ => rfl⟩

section Turns

variable {s : Setup F α} {registry : Registry F} {b : Brief F}

theorem Job.turn_of_failure {why : Failure} (h : b.resolved = .failure why)
    (p : Preparation F) (opened : List Gate) : (prepare b p).turn s registry opened =
      some (.ends (some .error) [Medium.failure why.error (some why.offending)]) := by
  simp only [turn, h, Resolved.painter?]

theorem Job.turn_of_view {v : View F} (h : b.resolved = .view v)
    (p : Preparation F) (opened : List Gate) : (prepare b p).turn s registry opened =
      (b.subject.advance s opened p).map (moveOf s b v.painter) := by
  simp only [turn, h, Resolved.painter?]

/-- A config that has nothing left to paint, nor afterwards, shows its output. -/
theorem Job.turn_painted (h : b.config.postRender = none) (ready : Prepared F) (draft : List (Rose α))
    (opened : List Gate) : (paint b ready draft [] false).turn s registry opened =
      some (.ends (some .rendered) (draft.flatMap (b.settled s ready))) := by
  simp only [turn, h]

end Turns

/-- What a job ended with: its outcome, if it was for a config, the trees it shows then, and the epoch. -/
structure Yield (α : Type) where
  outcome : Option Outcome
  shown : List (Rose α)
  epoch : Nat

/-- A job that is done, in so many turns of its own and of those below it. -/
@[ext] structure Done (F α : Type) [Medium α] where
  job : Job F α
  yield : Yield α
  turns : Nat

/-- What a job ends with that begins in an epoch, and how many turns that takes. -/
inductive Ends (s : Setup F α) (registry : Registry F) (c : Clock) :
    Job F α → Nat → Yield α → Nat → Prop
  | ends {job : Job F α} {k k' : Nat} {outcome : Option Outcome} {shown : List (Rose α)}
      (turn : c.Gives (job.turn s registry) k k' (.ends outcome shown)) :
      Ends s registry c job k ⟨outcome, shown, k'⟩ 1
  | goes {job : Job F α} {k k' last n : Nat} {next : List (Rose α) → Job F α}
      {y : Yield α} (below : List (Done F α))
      (turn : c.Gives (job.turn s registry) k k' (.goes next (below.map Done.job)))
      (done : ∀ b ∈ below, Ends s registry c b.job k' b.yield b.turns)
      (latest : IsGreatest {x | x = k' ∨ ∃ b ∈ below, b.yield.epoch = x} last)
      (rest : Ends s registry c (next (below.flatMap (·.yield.shown))) last y n) :
      Ends s registry c job k y (1 + (below.map Done.turns).sum + n)

namespace Ends

variable {s : Setup F α} {registry : Registry F} {c : Clock} {job : Job F α} {k : Nat}
  {y y' : Yield α} {n n' : Nat}

/-- Nothing ends before it begins. -/
theorem le (h : Ends s registry c job k y n) : k ≤ y.epoch := by
  induction h with
  | ends turn => exact turn.le
  | goes below turn done latest rest _ ih =>
    exact Nat.le_trans turn.le (Nat.le_trans (latest.2 (.inl rfl)) ih)

/-- What ends takes a turn, now or later. -/
theorem exists_turn (h : Ends s registry c job k y n) :
    ∃ m k' opened, k ≤ k' ∧ c.Allows k' opened ∧ job.turn s registry opened = some m := by
  cases h with
  | ends turn =>
    obtain ⟨opened, ha, hturn⟩ := turn.had
    exact ⟨_, _, opened, turn.le, ha, hturn⟩
  | goes below turn done latest rest =>
    obtain ⟨opened, ha, hturn⟩ := turn.had
    exact ⟨_, _, opened, turn.le, ha, hturn⟩

/-- Lists of jobs that ended are the same if their jobs are and each job ends in one way. -/
theorem done_unique {l l' : List (Done F α)} (hjobs : l.map Done.job = l'.map Done.job)
    (hone : ∀ b ∈ l, ∀ b' ∈ l', b.job = b'.job → b = b') : l = l' := by
  induction l generalizing l' with
  | nil => exact (List.map_eq_nil_iff.mp hjobs.symm).symm
  | cons b l ih =>
    cases l' with
    | nil => cases hjobs
    | cons b' l' =>
      obtain ⟨hjob, hjobs⟩ := List.cons.inj hjobs
      rw [hone b List.mem_cons_self b' List.mem_cons_self hjob, ih hjobs fun a ha a' ha' =>
        hone a (List.mem_cons_of_mem _ ha) a' (List.mem_cons_of_mem _ ha')]

/-- A job ends in one way. -/
theorem unique (h : Ends s registry c job k y n) (h' : Ends s registry c job k y' n') :
    y = y' ∧ n = n' := by
  induction h generalizing y' n' with
  | ends turn =>
    cases h' with
    | ends turn' =>
      obtain ⟨rfl, hmove⟩ := turn.unique turn'
      cases hmove
      exact ⟨rfl, rfl⟩
    | goes below' turn' done' latest' rest' =>
      cases (turn.unique turn').2
  | goes below turn done latest rest ihb ih =>
    cases h' with
    | ends turn' => cases (turn.unique turn').2
    | goes below' turn' done' latest' rest' =>
      obtain ⟨rfl, hmove⟩ := turn.unique turn'
      obtain ⟨rfl, hjobs⟩ := Move.goes.inj hmove
      have hbelow : below = below' := done_unique hjobs fun b hb b' hb' hjob => by
        obtain ⟨hy, hn⟩ := ihb b hb (hjob ▸ done' b' hb')
        exact Done.ext hjob hy hn
      subst hbelow
      cases latest.unique latest'
      obtain ⟨rfl, rfl⟩ := ih rest'
      exact ⟨rfl, rfl⟩

/-- Jobs that begin in the same epoch are done in one way. -/
theorem below_unique {l l' : List (Done F α)} (hjobs : l.map Done.job = l'.map Done.job)
    (h : ∀ b ∈ l, Ends s registry c b.job k b.yield b.turns)
    (h' : ∀ b ∈ l', Ends s registry c b.job k b.yield b.turns) : l = l' := by
  refine done_unique hjobs fun b hb b' hb' hjob => ?_
  obtain ⟨hy, hn⟩ := (h b hb).unique (hjob ▸ h' b' hb')
  exact Done.ext hjob hy hn

end Ends

/-- Whether a job is for a config. -/
def Job.IsConfig : Job F α → Prop
  | .prepare .. | .paint .. => True
  | _ => False

/-- A job for a config goes on as one, or it ends with an outcome. -/
theorem Job.IsConfig.turn {s : Setup F α} {registry : Registry F} {job : Job F α}
    {opened : List Gate} (h : job.IsConfig) :
    (∀ next below shown, job.turn s registry opened = some (.goes next below) →
      (next shown).IsConfig) ∧
    ∀ outcome shown, job.turn s registry opened = some (.ends outcome shown) → outcome ≠ none := by
  cases job with
  | expand jobs => exact h.elim
  | close shown => exact h.elim
  | prepare b p =>
    rcases Job.turn_prepare s registry b p with ⟨why, _, hturn⟩ | ⟨painter, _, hturn⟩
    · rw [hturn]
      refine ⟨fun next below shown hm => ?_, fun outcome shown hm => ?_⟩
      · cases hm
      · cases hm
        nofun
    · rw [hturn]
      refine ⟨fun next below shown hm => ?_, fun outcome shown hm => ?_⟩
      · obtain ⟨progress, _, hm⟩ := Option.map_eq_some_iff.mp hm
        cases progress <;> cases hm <;> trivial
      · obtain ⟨progress, _, hm⟩ := Option.map_eq_some_iff.mp hm
        cases progress <;> cases hm <;> nofun
  | paint b p draft steps after =>
    cases steps with
    | nil =>
      simp only [Job.turn]
      split
      · refine ⟨fun next below shown hm => ?_, fun outcome shown hm => ?_⟩
        · cases hm
          trivial
        · cases hm
      · refine ⟨fun next below shown hm => ?_, fun outcome shown hm => ?_⟩
        · cases hm
        · cases hm
          nofun
    | cons step steps =>
      refine ⟨fun next below shown hm => ?_, fun outcome shown hm => ?_⟩
      · cases step <;> simp only [Job.turn, Step.turn] at hm <;> (try split at hm) <;>
          cases hm <;> trivial
      · cases step <;> simp only [Job.turn, Step.turn] at hm <;> (try split at hm) <;>
          cases hm <;> nofun

/-- A config ends with an outcome. -/
theorem Ends.outcome_ne_none {s : Setup F α} {registry : Registry F} {c : Clock} {job : Job F α}
    {k n : Nat} {y : Yield α} (h : Ends s registry c job k y n) (hjob : job.IsConfig) :
    y.outcome ≠ none := by
  induction h with
  | ends turn =>
    obtain ⟨opened, _, hturn⟩ := turn.had
    exact hjob.turn.2 _ _ hturn
  | goes below turn done latest rest _ ih =>
    obtain ⟨opened, _, hturn⟩ := turn.had
    exact ih (hjob.turn.1 _ _ _ hturn)

theorem Job.isConfig_of_ofRaw {s : Setup F α} {registry : Registry F}
    {around : World.Surroundings} {raw : RawConfig F} {job : Job F α}
    (h : job ∈ Job.ofRaw s registry around raw) : job.IsConfig := by
  obtain ⟨c, _, rfl⟩ := List.mem_map.mp h
  trivial

/-! Gatherings that are not a race. -/

/-- The error that a prop comes to. -/
def AskedProp.error? : AskedProp F → Option Error
  | .given _ => none
  | .asked a =>
    match a.result with
    | .error e => some e
    | .ok _ => none

/-- Of the props that are gathered at a time, at most one fails. -/
def Preparation.OneFails : Preparation F → Prop
  | .gathering _ asked => (asked.filterMap (·.2.error?)).length ≤ 1
  | _ => True

instance (p : Preparation F) : Decidable p.OneFails :=
  match p with
  | .gathering _ asked =>
    inferInstanceAs (Decidable ((asked.filterMap (·.2.error?)).length ≤ 1))
  | .fresh | .condition _ | .selection _ | .dataCondition _ _ | .reshaping .. | .naming .. =>
    inferInstanceAs (Decidable True)

section Gathering

variable {asked : List (String × AskedProp F)} {opened opened' : List Gate} {e : Error}
  {props props' : Props F} {r r' : Except Error (Props F)}

theorem error_of_ready {p : AskedProp F} (h : p.ready? opened = some (.error e)) :
    p.error? = some e := by
  cases p with
  | given p => cases h
  | asked a =>
    simp only [AskedProp.ready?] at h
    split at h
    · cases hr : a.result with
      | error e' =>
        rw [hr] at h
        cases h
        simp [AskedProp.error?, hr]
      | ok v =>
        rw [hr] at h
        cases h
    · cases h

/-- A prop that is there is no error, and is the same whenever it is looked at. -/
theorem ready_unique {p : AskedProp F} {v : PropValue F} (h : p.ready? opened = some (.ok v)) :
    p.error? = none ∧ ∀ opened' r, p.ready? opened' = some r → r = .ok v := by
  cases p with
  | given p =>
    cases h
    exact ⟨rfl, fun opened' r hr => (Option.some.inj hr).symm⟩
  | asked a =>
    simp only [AskedProp.ready?] at h ⊢
    split at h
    · have hv := Option.some.inj h
      constructor
      · cases hr : a.result with
        | error e =>
          rw [hr] at hv
          cases hv
        | ok v => simp [AskedProp.error?, hr]
      · intro opened' r hr
        split at hr
        · exact (Option.some.inj hr).symm.trans hv
        · cases hr
    · cases h

theorem firstError_mem (h : firstError? opened asked = some e) :
    e ∈ asked.filterMap (·.2.error?) := by
  induction asked with
  | nil => cases h
  | cons f asked ih =>
    simp only [firstError?] at h
    split at h
    · rename_i hready
      rw [List.filterMap_cons, error_of_ready hready, ← Option.some.inj h]
      exact List.mem_cons_self
    · rw [List.filterMap_cons]
      split
      · exact ih h
      · exact List.mem_cons_of_mem _ (ih h)

theorem errorInTurn_mem (h : errorInTurn? opened asked = some e) :
    e ∈ asked.filterMap (·.2.error?) := by
  induction asked with
  | nil => cases h
  | cons f asked ih =>
    simp only [errorInTurn?] at h
    split at h
    · cases h
    · rename_i hready
      rw [List.filterMap_cons, error_of_ready hready, ← Option.some.inj h]
      exact List.mem_cons_self
    · rw [List.filterMap_cons]
      split
      · exact ih h
      · exact List.mem_cons_of_mem _ (ih h)

/-- Where all props are good, none fails, and they are the same whenever they are looked at. -/
theorem allReady_unique (h : allReady? opened asked = some props) :
    asked.filterMap (·.2.error?) = [] ∧
      ∀ opened' props', allReady? opened' asked = some props' → props' = props := by
  induction asked generalizing props with
  | nil =>
    cases h
    exact ⟨rfl, fun opened' props' h' => (Option.some.inj h').symm⟩
  | cons f asked ih =>
    simp only [allReady?] at h
    split at h
    · rename_i v ps hready hall
      obtain ⟨hnone, hsame⟩ := ready_unique hready
      obtain ⟨herrors, hrest⟩ := ih hall
      refine ⟨?_, fun opened' props' h' => ?_⟩
      · rw [List.filterMap_cons, hnone]
        exact herrors
      · simp only [allReady?] at h'
        split at h'
        · rename_i v' ps' hready' hall'
          cases hsame _ _ hready'
          rw [← Option.some.inj h, ← Option.some.inj h', hrest _ _ hall']
        · cases h'
    · cases h

/-- What is told when not all is there is an error of one of the props. -/
theorem gather_cases (h : gather? opened asked = some r) :
    (∃ e, r = .error e ∧ e ∈ asked.filterMap (·.2.error?)) ∨
      ∃ props, r = .ok props ∧ allReady? opened asked = some props := by
  unfold gather? at h
  simp only at h
  split at h
  · rename_i e he
    refine .inl ⟨e, (Option.some.inj h).symm, ?_⟩
    split at he
    · exact firstError_mem he
    · exact errorInTurn_mem he
  · obtain ⟨props, hall, rfl⟩ := Option.map_eq_some_iff.mp h
    exact .inr ⟨props, rfl, hall⟩

theorem eq_of_mem_short {β : Type} {l : List β} {a b : β} (h : l.length ≤ 1) (ha : a ∈ l)
    (hb : b ∈ l) : a = b := by
  match l, h with
  | [x], _ => rw [List.mem_singleton.mp ha, List.mem_singleton.mp hb]

/-- Where one prop fails at most, all gathering comes to the same. -/
theorem gather_unique (hone : (asked.filterMap (·.2.error?)).length ≤ 1)
    (h : gather? opened asked = some r) (h' : gather? opened' asked = some r') : r' = r := by
  rcases gather_cases h with ⟨e, rfl, he⟩ | ⟨props, rfl, hall⟩
  · rcases gather_cases h' with ⟨e', rfl, he'⟩ | ⟨props', rfl, hall'⟩
    · rw [eq_of_mem_short hone he he']
    · rw [(allReady_unique hall').1] at he
      cases he
  · rcases gather_cases h' with ⟨e', rfl, he'⟩ | ⟨props', rfl, hall'⟩
    · rw [(allReady_unique hall).1] at he'
      cases he'
    · rw [(allReady_unique hall).2 _ _ hall']

end Gathering

section Looking

variable {s : Setup F α} {registry : Registry F} {opened opened' : List Gate}

omit [Medium α] in
theorem withAnswer_unique {a : Answer} {k : Value → Progress F} {r r' : Progress F}
    (h : Subject.withAnswer opened a k = some r) (h' : Subject.withAnswer opened' a k = some r') :
    r' = r := by
  unfold Subject.withAnswer at h h'
  split at h
  · split at h'
    · cases ha : a.result with
      | error e =>
        rw [ha] at h h'
        exact (Option.some.inj h').symm.trans (Option.some.inj h)
      | ok v =>
        rw [ha] at h h'
        exact (Option.some.inj h').symm.trans (Option.some.inj h)
    · cases h'
  · cases h

/-- A preparation goes on in one way, whenever it does. -/
theorem advance_unique {sub : Subject F} {p : Preparation F} {r r' : Progress F} (hone : p.OneFails)
    (h : sub.advance s opened p = some r) (h' : sub.advance s opened' p = some r') : r' = r := by
  cases p with
  | fresh => exact (Option.some.inj h').symm.trans (Option.some.inj h)
  | condition a => exact withAnswer_unique h h'
  | selection a => exact withAnswer_unique h h'
  | dataCondition data a => exact withAnswer_unique h h'
  | gathering data asked =>
    obtain ⟨g, hg, rfl⟩ := Option.map_eq_some_iff.mp h
    obtain ⟨g', hg', rfl⟩ := Option.map_eq_some_iff.mp h'
    rw [gather_unique hone hg hg']
  | reshaping data props a => exact withAnswer_unique h h'
  | naming data props a => exact withAnswer_unique h h'

/-- At most one of the props that a job gathers fails. -/
def Job.OneFails : Job F α → Prop
  | .prepare _ p => p.OneFails
  | _ => True

/-- A job takes one turn, whenever it does. -/
theorem turn_unique {job : Job F α} {m m' : Move F α} (hone : job.OneFails)
    (h : job.turn s registry opened = some m) (h' : job.turn s registry opened' = some m') :
    m' = m := by
  cases job with
  | prepare b p =>
    rcases Job.turn_prepare s registry b p with ⟨why, _, hturn⟩ | ⟨painter, _, hturn⟩
    · rw [hturn] at h h'
      exact (Option.some.inj h').symm.trans (Option.some.inj h)
    · rw [hturn] at h h'
      obtain ⟨r, hr, rfl⟩ := Option.map_eq_some_iff.mp h
      obtain ⟨r', hr', rfl⟩ := Option.map_eq_some_iff.mp h'
      rw [advance_unique hone hr hr']
  | paint b p draft steps after =>
    cases steps with
    | nil =>
      simp only [Job.turn] at h h'
      exact Option.some.inj (h'.symm.trans h)
    | cons step steps =>
      simp only [Job.turn] at h h'
      cases step with
      | wait g =>
        simp only [Step.turn] at h h'
        split at h
        · split at h'
          · exact (Option.some.inj h').symm.trans (Option.some.inj h)
          · cases h'
        · cases h
      | _ => exact Option.some.inj (h'.symm.trans h)
  | expand jobs => exact Option.some.inj (h'.symm.trans h)
  | close shown => exact Option.some.inj (h'.symm.trans h)

/-- What a job comes to now is what it comes to, unless that is a race. -/
theorem gives_now {c : Clock} {job : Job F α} {m : Move F α} (ha : c.Fits opened)
    (hone : c = .free → job.OneFails) (h : job.turn s registry opened = some m) :
    c.Gives (job.turn s registry) (c.epoch opened) (c.epoch opened) m := by
  refine .now ha h fun {opened' m'} ha' h' => ?_
  cases c with
  | free => exact turn_unique (hone rfl) h h'
  | inTurn order =>
    cases Clock.allows_unique ha ha'
    exact Option.some.inj (h'.symm.trans h)

end Looking

end Montage
