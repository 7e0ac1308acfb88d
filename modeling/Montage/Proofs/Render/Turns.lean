import Montage.Proofs.Render.Scenes
import Montage.Render.Step

/-!
What one step of a task can do. Main statements: `Turn` names the ways in which a task goes on or ends,
with what each does to the scene, and every step is one of them.
-/

namespace Montage

open Json (Value)

variable {F α : Type} [Medium α]

namespace Run

/-- The node that a run paints into, once it has one. -/
def output? (r : Run F α) : Option NodeId :=
  match r.phase with
  | .preparing _ => none
  | .painting o _ _ _ => some o

/-- The step of painting that a run comes to next. -/
def step? (r : Run F α) : Option (Step F α) :=
  match r.phase with
  | .preparing _ => none
  | .painting _ _ steps _ => steps.head?

/-- What a run was prepared with, once it paints. -/
def ready? (r : Run F α) : Option (Prepared F) :=
  match r.phase with
  | .preparing _ => none
  | .painting _ p _ _ => some p

end Run

/-- Puts something in the own node other than configs that are waited for. -/
def Step.fills : Step F α → Bool
  | .plant _ | .start .. | .list .. => true
  | _ => false

/-- The next step of a run puts something in its own node. -/
def Run.grows (r : Run F α) : Prop :=
  ∃ st, r.step? = some st ∧ (st.fills = true ∨ ∃ raw data context item,
    st = .render raw data context item)

namespace Work

/-- The places held for the configs of a piece of work. -/
def places : Work F α → List NodeId
  | .run r => [r.place]
  | .batch rs => rs.map Run.place
  | .errands _ => []

def output? : Work F α → Option NodeId
  | .run r => r.output?
  | _ => none

theorem run_of_output {k : Work F α} {o : NodeId} (h : k.output? = some o) :
    ∃ r, k = .run r ∧ r.output? = some o := by
  cases k with
  | run r => exact ⟨r, rfl, h⟩
  | batch rs => cases h
  | errands es => cases h

/-- All nodes that stand for a piece of work alone. -/
def holds (k : Work F α) : List NodeId :=
  k.places ++ k.output?.toList

end Work

namespace World

/-- A task went on: it has other work now, and may wait for new tasks. -/
structure Moved (w : World F α) (t : Task F α) (work : Work F α) (works : List (Work F α))
    (w' : World F α) : Prop where
  tasks : w'.tasks = insertBefore t.id
    (number (t.id :: t.owners) (crowdBound < works.length) w.nextTask works)
    (w.tasks.map fun u => if u.id = t.id then { u with work := work } else u)
  next : w'.nextTask = w.nextTask + works.length
  outcomes : w'.outcomes = w.outcomes
  finished : w'.finished = w.finished

/-- A run ended. -/
structure Settled (w : World F α) (t : Task F α) (o : Outcome) (w' : World F α) : Prop where
  tasks : w'.tasks = w.tasks.filter (·.id != t.id)
  next : w'.nextTask = w.nextTask
  outcomes : w'.outcomes = w.outcomes.insert t.id o
  finished : w'.finished = w.finished

/-- A task that is no run ended. -/
structure Ended (w : World F α) (t : Task F α) (w' : World F α) : Prop where
  tasks : w'.tasks = w.tasks.filter (·.id != t.id)
  next : w'.nextTask = w.nextTask
  outcomes : w'.outcomes = w.outcomes
  finished : w'.finished = w.finished ∨ w'.finished = t.id :: w.finished

/-- What a step of painting does to the own node, nested renders apart. -/
inductive Drawn (o : NodeId) (s : Scene F α) : Step F α → Scene F α → Prop
  | plant (rose : Rose α) : Drawn o s (.plant rose) { s with tree := s.tree.plant o rose }
  | mark (m : Medium.Mark α) :
      Drawn o s (.mark m) { s with tree := s.tree.modify o (Medium.mark m) }
  | onClick (events : List Event) :
      Drawn o s (.onClick events) { s with clicks := s.clicks.insert o ⟨events, []⟩ }

/-- The ways in which a task that waits for no other takes its turn. -/
inductive Turn (s : Setup F α) (w : World F α) (t : Task F α) (w' : World F α) : Prop
  /-- Asks, waits or reports. -/
  | waits (r : Run F α) (phase : Phase F α) (work : t.work = .run r)
      (output : Run.output? { r with phase := phase } = r.output?)
      (scene : w'.scene = w.scene) (moved : Moved w t (.run { r with phase := phase }) [] w')
  /-- Creates its output. -/
  | begins (r : Run F α) (phase : Phase F α) (shape : Shape) (work : t.work = .run r)
      (fresh : r.output? = none)
      (output : Run.output? { r with phase := phase } = some w.scene.tree.next)
      (scene : w'.scene = { w.scene with
        tree := (w.scene.tree.create (Medium.output shape)).1 })
      (moved : Moved w t (.run { r with phase := phase }) [] w')
  | draws (r : Run F α) (o : NodeId) (phase : Phase F α) (work : t.work = .run r)
      (painting : r.output? = some o) (output : Run.output? { r with phase := phase } = some o)
      (step : Step F α) (script : r.step? = some step) (drawn : Drawn o w.scene step w'.scene)
      (moved : Moved w t (.run { r with phase := phase }) [] w')
  /-- Renders a config in its output, and waits for it. -/
  | nests (r : Run F α) (o : NodeId) (phase : Phase F α) (raw : RawConfig F)
      (around : Surroundings) (work : t.work = .run r) (painting : r.output? = some o)
      (output : Run.output? { r with phase := phase } = some o)
      (script : r.step? = some (.render raw around.data around.context around.item))
      (scene : w'.scene = (w.takeUpRaw s o around raw).1.scene)
      (moved : Moved w t (.run { r with phase := phase })
        ((w.takeUpRaw s o around raw).2.map .run) w')
  /-- Reserves places in its output. -/
  | starts (r : Run F α) (o : NodeId) (phase : Phase F α) (raw : RawConfig F)
      (around : Surroundings) (work : t.work = .run r) (painting : r.output? = some o)
      (output : Run.output? { r with phase := phase } = some o)
      (script : r.step? = some (.start raw around.data around.context around.item))
      (scene : w'.scene = (w.takeUpRaw s o around raw).1.scene)
      (moved : Moved w t (.run { r with phase := phase }) [] w')
  /-- Renders a part of a list in its output, and waits for it. -/
  | lists (r : Run F α) (o : NodeId) (phase : Phase F α) (page : Page F) (work : t.work = .run r)
      (painting : r.output? = some o) (output : Run.output? { r with phase := phase } = some o)
      (script : r.step? = some (.list page.item page.items page.context page.limit page.offset))
      (own : page.more = none) (scene : w'.scene = (w.takeUpList s o page false).1.scene)
      (moved : Moved w t (.run { r with phase := phase })
        ((w.takeUpList s o page false).2.map .batch) w')
  | skips (r : Run F α) (work : t.work = .run r) (fresh : r.output? = none)
      (scene : w'.scene = w.scene.skip r.place) (settled : Settled w t .skipped w')
  /-- Cannot be used, or fails before painting. -/
  | fails (r : Run F α) (e : Error) (offending : Option Value) (o : Outcome)
      (work : t.work = .run r) (fresh : r.output? = none) (wrong : o = .error ∨ o = .renderedError)
      (scene : w'.scene = w.scene.fillWithError r.place e offending) (settled : Settled w t o w')
  /-- Fails while painting. -/
  | abandons (r : Run F α) (o : NodeId) (e : Error) (work : t.work = .run r)
      (painting : r.output? = some o)
      (scene : w'.scene = (w.scene.discard o).fillWithError r.place e none)
      (settled : Settled w t .renderedError w')
  | completes (r : Run F α) (o : NodeId) (p : Prepared F) (work : t.work = .run r)
      (painting : r.output? = some o)
      (scene : w'.scene = (w.scene.decorate s.settings r.resolved.name? o p r.context).finish
        r.place o (r.provenance p))
      (settled : Settled w t .rendered w') (ready : r.ready? = some p)
  /-- Starts the runs of a batch. -/
  | expands (rs : List (Run F α)) (work : t.work = .batch rs) (scene : w'.scene = w.scene)
      (moved : Moved w t (.batch []) (rs.map .run) w')
  /-- Does what needs no nodes. -/
  | passes (e : Errand F) (es : List (Errand F)) (work : t.work = .errands (e :: es))
      (scene : w'.scene = w.scene) (moved : Moved w t (.errands es) [] w')
  /-- Discards buttons and renders a page in their place. -/
  | turns (wrapper container : NodeId) (page : Page F) (all : Bool) (es : List (Errand F))
      (work : t.work = .errands (.turn wrapper container page all :: es))
      (scene : w'.scene = ((w.discard wrapper).takeUpList s container page all).1.scene)
      (moved : Moved w t (.errands es)
        (((w.discard wrapper).takeUpList s container page all).2.map .batch) w')
  | ends (work : t.work = .batch [] ∨ t.work = .errands []) (scene : w'.scene = w.scene)
      (ended : Ended w t w')

variable {s : Setup F α} {w w' : World F α} {t u : Task F α}

/-- A run that ended is under way no more. -/
theorem Settled.ne_of_mem {o : Outcome} (h : Settled w t o w') (hu : u ∈ w'.tasks) :
    u.id ≠ t.id := by
  rw [h.tasks, List.mem_filter] at hu
  exact bne_iff_ne.mp hu.2

theorem insertBefore_nil (owner : TaskId) (ts : List (Task F α)) :
    insertBefore owner [] ts = ts := by
  induction ts with
  | nil => rfl
  | cons t ts ih => simp [insertBefore, ih]

theorem Moved.of_map {work : Work F α}
    (ht : w'.tasks = w.tasks.map fun u => if u.id = t.id then { u with work := work } else u)
    (hn : w'.nextTask = w.nextTask) (ho : w'.outcomes = w.outcomes)
    (hf : w'.finished = w.finished) : Moved w t work [] w' where
  tasks := ht.trans (insertBefore_nil ..).symm
  next := hn
  outcomes := ho
  finished := hf

/-! Taking up configs changes the scene alone. -/

/-- Two worlds that differ in their scenes, and in what is noted and reported. -/
structure SameTasks (w v : World F α) : Prop where
  tasks : v.tasks = w.tasks
  next : v.nextTask = w.nextTask
  outcomes : v.outcomes = w.outcomes
  finished : v.finished = w.finished

theorem SameTasks.refl (w : World F α) : SameTasks w w := ⟨rfl, rfl, rfl, rfl⟩

theorem SameTasks.trans {u v : World F α} (h : SameTasks w v) (h' : SameTasks v u) :
    SameTasks w u :=
  ⟨h'.tasks.trans h.tasks, h'.next.trans h.next, h'.outcomes.trans h.outcomes,
    h'.finished.trans h.finished⟩

theorem takeUpAll_eq {d : NodeId} (around : Surroundings) (cs : List (Config F)) :
    ∃ scene, (w.takeUpAll d around cs).1 = { w with scene := scene } := by
  induction cs generalizing w with
  | nil => exact ⟨w.scene, rfl⟩
  | cons c cs ih => exact ih (w := (w.takeUp d around c).1)

theorem takeUpItems_eq {d : NodeId} (raw : RawConfig F) (context : Value)
    (items : List (Value × ListItem)) :
    ∃ scene, (w.takeUpItems s d raw context items).1 = { w with scene := scene } := by
  induction items generalizing w with
  | nil => exact ⟨w.scene, rfl⟩
  | cons i items ih =>
    obtain ⟨v, item⟩ := i
    obtain ⟨scene, hs⟩ := takeUpAll_eq (w := w) (d := d) ⟨v, item.context context, some item⟩
      (raw.normalize s.engine)
    obtain ⟨scene', hs'⟩ := ih (w := { w with scene := scene })
    refine ⟨scene', ?_⟩
    rw [← hs']
    simp only [takeUpItems, takeUpRaw, hs]

theorem sameTasks_takeUpAll (d : NodeId) (around : Surroundings) (cs : List (Config F)) :
    SameTasks w (w.takeUpAll d around cs).1 := by
  obtain ⟨scene, h⟩ := takeUpAll_eq (w := w) (d := d) around cs
  rw [h]
  exact ⟨rfl, rfl, rfl, rfl⟩

theorem sameTasks_takeUpItems (d : NodeId) (raw : RawConfig F) (context : Value)
    (items : List (Value × ListItem)) :
    SameTasks w (w.takeUpItems s d raw context items).1 := by
  obtain ⟨scene, h⟩ := takeUpItems_eq (w := w) (s := s) (d := d) raw context items
  rw [h]
  exact ⟨rfl, rfl, rfl, rfl⟩

/-- A part of a list is taken up item by item, and then the rest, if any, is shown. -/
theorem takeUpList_cases (w : World F α) (s : Setup F α) (d : NodeId) (page : Page F) (all : Bool) :
    ∃ shown, w.takeUpList s d page all = w.takeUpItems s d page.item page.context shown ∨
      ∃ rest : Page F, rest.more = page.more ∧ w.takeUpList s d page all =
        ({ (w.takeUpItems s d page.item page.context shown).1 with
            scene := (w.takeUpItems s d page.item page.context shown).1.scene.showMore
              s.settings d rest },
          (w.takeUpItems s d page.item page.context shown).2) := by
  unfold takeUpList
  generalize (if all = true then none else page.limit) = limit
  cases limit with
  | none =>
    refine ⟨listItems page.items (min page.offset page.items.length) page.items.length, ?_⟩
    dsimp only
    split
    · exact .inr ⟨{ page with offset := _, limit := none }, rfl, rfl⟩
    · exact .inl rfl
  | some n =>
    refine ⟨listItems page.items (min page.offset page.items.length)
      (min (min page.offset page.items.length + n) page.items.length), ?_⟩
    dsimp only
    split
    · exact .inr ⟨{ page with offset := _, limit := some n }, rfl, rfl⟩
    · exact .inl rfl

theorem sameTasks_takeUpList (d : NodeId) (page : Page F) (all : Bool) :
    SameTasks w (w.takeUpList s d page all).1 := by
  obtain ⟨shown, h | ⟨rest, _, h⟩⟩ := takeUpList_cases w s d page all
  · rw [h]
    exact sameTasks_takeUpItems d _ _ _
  · rw [h]
    exact (sameTasks_takeUpItems d page.item page.context shown).trans ⟨rfl, rfl, rfl, rfl⟩

/-! Noting who waits changes nothing else. -/

theorem noteGates_eq (t : Task F α) (gates : List Gate) :
    ∃ waiting, w.noteGates t gates = { w with waiting := waiting } := by
  cases gates with
  | nil => exact ⟨w.waiting, rfl⟩
  | cons g gates => exact ⟨_, rfl⟩

theorem noteWaiting_eq (ts : List (Task F α)) :
    ∃ waiting, w.noteWaiting ts = { w with waiting := waiting } := by
  induction ts generalizing w with
  | nil => exact ⟨w.waiting, rfl⟩
  | cons t ts ih =>
    obtain ⟨waiting, hone⟩ := noteGates_eq (w := w) t (w.blockedOn t)
    obtain ⟨waiting', hrest⟩ := ih (w := { w with waiting := waiting })
    exact ⟨waiting', (congrArg (fun v => World.noteWaiting v ts) hone).trans hrest⟩

theorem notePassing_eq (t : Task F α) (p : Preparation F) :
    ∃ waiting, w.notePassing t p = { w with waiting := waiting } := by
  unfold notePassing
  split
  · split
    · obtain ⟨waiting, hone⟩ := noteWaiting_eq (w := w)
        ((w.tasks.takeWhile (·.id != t.id)).filter (·.call == t.call))
      simp only [hone]
      exact noteGates_eq _ _
    · exact ⟨w.waiting, rfl⟩
  · exact ⟨w.waiting, rfl⟩

theorem noteWaiting_frame (ts : List (Task F α)) :
    (w.noteWaiting ts).scene = w.scene ∧ SameTasks w (w.noteWaiting ts) := by
  obtain ⟨waiting, h⟩ := noteWaiting_eq (w := w) ts
  rw [h]
  exact ⟨rfl, rfl, rfl, rfl, rfl⟩

theorem notePassing_frame (t : Task F α) (p : Preparation F) :
    (w.notePassing t p).scene = w.scene ∧ SameTasks w (w.notePassing t p) := by
  obtain ⟨waiting, h⟩ := notePassing_eq (w := w) t p
  rw [h]
  exact ⟨rfl, rfl, rfl, rfl, rfl⟩

theorem SameTasks.setWork {v : World F α} (h : SameTasks w v) (work : Work F α) :
    Moved w t work [] (v.setWork t.id work) :=
  .of_map (by simp [World.setWork, h.tasks]) h.next h.outcomes h.finished

theorem SameTasks.launch {v : World F α} (h : SameTasks w v) (work : Work F α)
    (works : List (Work F α)) :
    Moved w t work works ((v.setWork t.id work).launch t.id t.owners works) where
  tasks := by simp [World.launch, World.setWork, h.tasks, h.next]
  next := by simp [World.launch, World.setWork, h.next]
  outcomes := h.outcomes
  finished := h.finished

/-! Every step is a turn. -/

section Step

variable {r : Run F α}

theorem turn_of_preparing {p : Preparation F} (hwork : t.work = .run r)
    (hphase : r.phase = .preparing p) (h : w.stepPreparing s t r p = some w') : Turn s w t w' := by
  have hfresh : r.output? = none := by simp [Run.output?, hphase]
  unfold stepPreparing at h
  split at h
  · cases h
    exact .fails r _ _ .error hwork hfresh (.inl rfl) rfl ⟨rfl, rfl, rfl, rfl⟩
  · cases h
  · obtain ⟨progress, _, rfl⟩ := Option.map_eq_some_iff.mp h
    cases progress with
    | awaits events p' =>
      exact .waits r (.preparing p') hwork hfresh.symm rfl (.of_map rfl rfl rfl rfl)
    | skipped =>
      exact .skips r hwork hfresh rfl ⟨rfl, rfl, rfl, rfl⟩
    | failed e =>
      obtain ⟨hs, ht⟩ := notePassing_frame (w := w) t p
      refine .fails r e none .renderedError hwork hfresh (.inr rfl) ?_ ⟨?_, ht.next, ?_, ht.finished⟩
      · exact congrArg (Scene.fillWithError · r.place e none) hs
      · exact congrArg (List.filter (·.id != t.id)) ht.tasks
      · exact congrArg (Table.insert · t.id .renderedError) ht.outcomes
    | prepared p' =>
      exact .begins r _ r.resolved.options.shape hwork hfresh rfl rfl
        (.of_map rfl rfl rfl rfl)

theorem turn_of_painting {o : NodeId} {p : Prepared F} {steps : List (Step F α)} {after : Bool}
    (hwork : t.work = .run r) (hphase : r.phase = .painting o p steps after)
    (h : w.stepPainting s t r o p steps after = some w') : Turn s w t w' := by
  have hpainting : r.output? = some o := by simp [Run.output?, hphase]
  unfold stepPainting at h
  split at h
  · rename_i step rest
    have hstep : r.step? = some step := by simp [Run.step?, hphase]
    unfold paintStep at h
    cases step with
    | plant rose =>
      cases h
      exact .draws r o _ hwork hpainting rfl _ hstep (.plant rose) (.of_map rfl rfl rfl rfl)
    | mark m =>
      cases h
      exact .draws r o _ hwork hpainting rfl _ hstep (.mark m) (.of_map rfl rfl rfl rfl)
    | render raw data context item =>
      cases h
      exact .nests r o _ raw ⟨data, context, item⟩ hwork hpainting rfl hstep rfl
        ((sameTasks_takeUpAll o _ _).launch _ _)
    | start raw data context item =>
      cases h
      exact .starts r o _ raw ⟨data, context, item⟩ hwork hpainting rfl hstep rfl
        ((sameTasks_takeUpAll o _ _).setWork _)
    | list raw items context limit offset =>
      cases h
      exact .lists r o _ ⟨raw, items, context, offset, limit, none⟩ hwork hpainting rfl hstep rfl rfl
        ((sameTasks_takeUpList o _ _).launch _ _)
    | wait g =>
      simp only at h
      split at h
      · cases h
        exact .waits r (.painting o p rest after) hwork hpainting.symm rfl (.of_map rfl rfl rfl rfl)
      · cases h
    | report e =>
      cases h
      exact .waits r (.painting o p rest after) hwork hpainting.symm rfl (.of_map rfl rfl rfl rfl)
    | onClick events =>
      cases h
      exact .draws r o _ hwork hpainting rfl _ hstep (.onClick events) (.of_map rfl rfl rfl rfl)
    | fail e =>
      cases h
      exact .abandons r o e hwork hpainting rfl ⟨rfl, rfl, rfl, rfl⟩
    | panic message =>
      cases h
      exact .abandons r o _ hwork hpainting rfl ⟨rfl, rfl, rfl, rfl⟩
  · split at h
    · cases h
      exact .waits r (.painting o p _ true) hwork hpainting.symm rfl (.of_map rfl rfl rfl rfl)
    · cases h
      exact .completes r o p hwork hpainting rfl ⟨rfl, rfl, rfl, rfl⟩ (by simp [Run.ready?, hphase])

/-- What a run does that comes to render a config. -/
theorem moved_of_render {raw : RawConfig F} {data context : Value} {item : Option ListItem}
    {o : NodeId} (ht : w.task? t.id = some t) (hwork : t.work = .run r) (ho : r.output? = some o)
    (hstep : r.step? = some (.render raw data context item)) (h : w.step s t.id = some w') :
    w'.scene = (w.takeUpRaw s o ⟨data, context, item⟩ raw).1.scene ∧ ∃ phase,
      Moved w t (.run { r with phase := phase })
        ((w.takeUpRaw s o ⟨data, context, item⟩ raw).2.map .run) w' := by
  unfold step at h
  rw [ht] at h
  simp only [hwork] at h
  split at h
  · cases h
  · split at h
    · rename_i p hphase
      simp [Run.step?, hphase] at hstep
    · rename_i o' p steps after hphase
      have ho : o' = o := by simpa [Run.output?, hphase] using ho
      have hsteps : steps.head? = some (.render raw data context item) := by
        simpa [Run.step?, hphase] using hstep
      subst ho
      obtain ⟨rest, rfl⟩ : ∃ rest, steps = .render raw data context item :: rest := by
        cases steps with
        | nil => cases hsteps
        | cons st rest => exact ⟨rest, by rw [Option.some.inj hsteps]⟩
      simp only [stepPainting, paintStep] at h
      cases h
      exact ⟨rfl, _, (sameTasks_takeUpAll o' _ _).launch _ _⟩

theorem turn_of_errands {es : List (Errand F)} (hwork : t.work = .errands es)
    (h : w.stepErrands s t es = some w') : Turn s w t w' := by
  cases es with
  | nil =>
    cases h
    exact .ends (.inr hwork) rfl ⟨rfl, rfl, rfl, .inr rfl⟩
  | cons e es =>
    cases e with
    | wait g =>
      simp only [stepErrands] at h
      split at h
      · cases h
        exact .passes _ es hwork rfl ((SameTasks.refl w).setWork _)
      · cases h
    | report e =>
      cases h
      exact .passes _ es hwork rfl (.of_map rfl rfl rfl rfl)
    | turn wrapper container page all =>
      cases h
      have hd : SameTasks w (w.discard wrapper) := ⟨rfl, rfl, rfl, rfl⟩
      exact .turns wrapper container page all es hwork rfl
        ((hd.trans (sameTasks_takeUpList container page all)).launch _ _)

theorem turn_of_batch {rs : List (Run F α)} (hwork : t.work = .batch rs) :
    Turn s w t (w.stepBatch t rs) := by
  cases rs with
  | nil => exact .ends (.inl hwork) rfl ⟨rfl, rfl, rfl, .inl rfl⟩
  | cons r rs => exact .expands _ hwork rfl ((SameTasks.refl w).launch _ _)

theorem task?_eq_some {id : TaskId} (h : w.task? id = some t) : t ∈ w.tasks ∧ t.id = id :=
  ⟨List.mem_of_find?_eq_some h, by simpa using List.find?_some h⟩

theorem turn_of_step {id : TaskId} (h : w.step s id = some w') :
    ∃ t ∈ w.tasks, t.id = id ∧ w.hasChildren id = false ∧ Turn s w t w' := by
  unfold step at h
  split at h
  · cases h
  · rename_i t ht
    obtain ⟨hm, hid⟩ := task?_eq_some ht
    split at h
    · cases h
    · rename_i hc
      refine ⟨t, hm, hid, by simpa using hc, ?_⟩
      split at h
      · exact turn_of_errands ‹_› h
      · cases h
        exact turn_of_batch ‹_›
      · rename_i r hr
        split at h
        · exact turn_of_preparing hr ‹_› h
        · exact turn_of_painting hr ‹_› h

end Step

end World

end Montage
