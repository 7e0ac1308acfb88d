import Montage.Proofs.Arena.Shown
import Montage.Proofs.Render.Jobs
import Montage.Proofs.Render.Soundness

/-!
Tasks do their jobs. Main statement: a step of a task is a turn of its job, with the same outcome or the
same jobs to wait for, and it paints on the nodes of the task what the job draws.
-/

namespace Montage

open Json (Value)

variable {F α : Type} [Medium α]

namespace Run

def brief (r : Run F α) : Brief F :=
  ⟨r.config, r.resolved, r.data, r.context, r.item⟩

/-- What is left to be done for a run that has painted this. -/
def job (draft : List (Rose α)) (r : Run F α) : Job F α :=
  match r.phase with
  | .preparing p => .prepare r.brief p
  | .painting _ p steps after => .paint r.brief p draft steps after

end Run

namespace Work

/-- The runs of a piece of work. -/
def runs : Work F α → List (Run F α)
  | .run r => [r]
  | .batch rs => rs
  | .errands _ => []

theorem places_eq (k : Work F α) : k.places = k.runs.map Run.place := by
  cases k <;> rfl

theorem mem_places {k : Work F α} {p : NodeId} : p ∈ k.places ↔ ∃ r ∈ k.runs, r.place = p := by
  rw [places_eq, List.mem_map]

end Work

/-- What is left to be done for a piece of work that has painted this, or waits for this. -/
def Work.job (draft : List (Rose α)) : Work F α → Job F α
  | .run r => r.job draft
  | .batch [] => .close draft
  | .batch (r :: rs) => .expand ((r :: rs).map (Run.job []))
  | .errands _ => .close draft

theorem Work.job_batch (rs : List (Run F α)) :
    (Work.batch rs).job [] = Job.batch (rs.map (Run.job [])) := by
  cases rs <;> rfl

namespace World

variable {w w' : World F α} {s : Setup F α} {d : NodeId}

/-! The jobs of what is taken up. -/

theorem jobs_takeUpAll (around : Surroundings) (cs : List (Config F)) :
    (w.takeUpAll d around cs).2.map (Run.job []) =
      cs.map fun c => .prepare (.ofConfig α w.registry around c) .fresh := by
  induction cs generalizing w with
  | nil => rfl
  | cons c cs ih => exact congrArg _ (ih (w := (w.takeUp d around c).1))

theorem jobs_takeUpRaw (around : Surroundings) (raw : RawConfig F) :
    (w.takeUpRaw s d around raw).2.map (Run.job []) = Job.ofRaw s w.registry around raw :=
  jobs_takeUpAll around _

theorem jobs_takeUpItems (raw : RawConfig F) (context : Value) (items : List (Value × ListItem)) :
    (w.takeUpItems s d raw context items).2.map (fun rs => (Work.batch rs).job []) =
      items.map fun i =>
        Job.batch (Job.ofRaw s w.registry ⟨i.1, i.2.context context, some i.2⟩ raw) := by
  induction items generalizing w with
  | nil => rfl
  | cons i items ih =>
    obtain ⟨v, item⟩ := i
    obtain ⟨scene, hs⟩ := takeUpAll_eq (w := w) (d := d) ⟨v, item.context context, some item⟩
      (raw.normalize s.engine)
    have hregistry : (w.takeUpRaw s d ⟨v, item.context context, some item⟩ raw).1.registry =
        w.registry := by
      rw [takeUpRaw, hs]
    have hrest := ih (w := (w.takeUpRaw s d ⟨v, item.context context, some item⟩ raw).1)
    rw [hregistry] at hrest
    refine congrArg₂ List.cons ?_ hrest
    exact (Work.job_batch _).trans (congrArg Job.batch (jobs_takeUpRaw _ raw))

/-- The part of a list that is shown is taken up item by item, and then the rest, if any, is shown. -/
theorem takeUpList_eq (w : World F α) (s : Setup F α) (d : NodeId) (page : Page F) :
    let v := w.takeUpItems s d page.item page.context
      (listItems page.items page.start page.stop)
    w.takeUpList s d page false =
      if page.stop < page.items.length then
        ({ v.1 with scene := v.1.scene.showMore s.settings d { page with offset := page.stop } }, v.2)
      else v := by
  obtain ⟨item, items, context, offset, limit, more⟩ := page
  cases limit <;> rfl

theorem takeUpList_frame (page : Page F) :
    (∃ scene, (w.takeUpList s d page false).1 = { w with scene := scene }) ∧
      (w.takeUpList s d page false).2.map (fun rs => (Work.batch rs).job []) =
        page.jobs s w.registry := by
  rw [takeUpList_eq]
  obtain ⟨scene, hs⟩ := takeUpItems_eq (w := w) (s := s) (d := d) page.item page.context
    (listItems page.items page.start page.stop)
  have hjobs := jobs_takeUpItems (w := w) (s := s) (d := d) page.item page.context
    (listItems page.items page.start page.stop)
  split
  · rw [hs]
    exact ⟨⟨_, rfl⟩, hjobs⟩
  · exact ⟨⟨scene, hs⟩, hjobs⟩

/-- No view is defined and no gate opens. -/
structure SameHouse (w w' : World F α) : Prop where
  registry : w'.registry = w.registry
  opened : w'.opened = w.opened

theorem sameHouse_takeUpAll (around : Surroundings) (cs : List (Config F)) :
    SameHouse w (w.takeUpAll d around cs).1 := by
  obtain ⟨scene, hs⟩ := takeUpAll_eq (w := w) (d := d) around cs
  rw [hs]
  exact ⟨rfl, rfl⟩

theorem sameHouse_takeUpList (page : Page F) : SameHouse w (w.takeUpList s d page false).1 := by
  obtain ⟨scene, hs⟩ := (takeUpList_frame (w := w) (s := s) (d := d) page).1
  rw [hs]
  exact ⟨rfl, rfl⟩

end World

/-! Showing that a list goes on paints what stands after it. -/

namespace Scene

omit [Medium α] in
theorem tree_addButtons (bs : List (Button α)) (sc : Scene F α) (wrapper container : NodeId)
    (page : Page F) : (bs.foldl (fun sc b => sc.addButton wrapper container page b) sc).tree =
      sc.tree.plantAll wrapper (bs.map fun b => .node b.node [.node b.label []]) := by
  induction bs generalizing sc with
  | nil => rfl
  | cons b bs ih => exact ih (sc.addButton wrapper container page b)

theorem tree_showMore (sc : Scene F α) (settings : Settings) (container : NodeId) (page : Page F) :
    (sc.showMore settings container page).tree = sc.tree.plant (page.more.getD container)
      (Medium.more settings page.limit (page.items.length - page.offset)).rose := by
  unfold showMore
  simp only [tree_addButtons]
  generalize Medium.more (α := α) settings page.limit (page.items.length - page.offset) = more
  obtain ⟨wrapper, label, buttons⟩ := more
  cases label <;> rfl

end Scene

/-! What a step does to the nodes of its task. -/

/-- A task that goes on paints on its output: from a draft and what the new tasks will show, `draw` tells
what the output will show. -/
inductive Draws (sc sc' : Scene F α) (old new : Work F α) (works : List (Work F α))
    (draw : List (Rose α) → List (Rose α) → List (Rose α)) : Prop
  /-- No node is touched, and nothing is drawn on the output, if there is one. -/
  | keeps (tree : sc'.tree = sc.tree) (output : new.output? = old.output?)
      (same : new.output? ≠ none → ∀ draft shown, draw draft shown = draft)
      (works : works = [] ∨ ∃ rs, old = .batch rs ∧ works = rs.map .run)
  | begins (v : α) (tree : sc'.tree = (sc.tree.create v).1) (fresh : old.output? = none)
      (output : new.output? = some sc.tree.next)
      (draws : ∀ draft shown, draw draft shown = [.node v []]) (alone : works = [])
  | marks (o : NodeId) (f : α → α) (before : old.output? = some o) (after : new.output? = some o)
      (tree : sc'.tree = sc.tree.modify o f)
      (draws : ∀ draft shown, draw draft shown = draft.map (Rose.mapItem f)) (alone : works = [])
  /-- Nodes are added, of which some are places that are held for the new tasks. -/
  | grows (o : NodeId) (ids : List NodeId) (extra : List (Rose α) → List (Rose α))
      (before : old.output? = some o) (after : new.output? = some o)
      (grown : Tree.Grown (some o) sc.tree sc'.tree)
      (items : ∀ x < sc.tree.next, sc'.tree.get? x = sc.tree.get? x)
      (kids : sc.tree.contains o → sc'.tree.children o = sc.tree.children o ++ ids)
      (places : ∀ x ∈ works.flatMap Work.places, sc.tree.next ≤ x ∧ x < sc'.tree.next ∧
        sc'.tree.get? x = some Medium.reserved ∧ sc'.tree.children x = [] ∧
        ∀ q, sc'.tree.parent? x = some q → q = o)
      (adds : ∀ held shown, (∀ x, sc.tree.next ≤ x → x ∉ works.flatMap Work.places → held x = none) →
        Tree.Shows sc'.tree held (works.flatMap Work.places) shown →
        sc.tree.contains o → Tree.Shows sc'.tree held ids (extra shown))
      (draws : ∀ draft shown, draw draft shown = draft.map (Rose.put (extra shown)))

/-- A run goes on in another phase, or a batch starts its runs; new work has not begun to paint. -/
structure Carries (old new : Work F α) (works : List (Work F α)) : Prop where
  kind : (∃ r phase, old = .run r ∧ new = .run { r with phase := phase }) ∨
    ∃ rs, old = .batch rs ∧ new = .batch [] ∧ works = rs.map .run
  fresh : ∀ k ∈ works, k.output? = none ∧ ∀ es, k ≠ .errands es

namespace Carries

variable {old new : Work F α} {works : List (Work F α)}

theorem of_run {r : Run F α} (h : old = .run r) (phase : Phase F α)
    (fresh : ∀ k ∈ works, k.output? = none ∧ ∀ es, k ≠ .errands es) :
    Carries old (.run { r with phase := phase }) works :=
  ⟨.inl ⟨r, phase, h, rfl⟩, fresh⟩

/-- Work that goes on holds no further place. -/
theorem places (h : Carries old new works) {p : NodeId} (hp : p ∈ new.places) : p ∈ old.places := by
  rcases h.kind with ⟨r, phase, rfl, rfl⟩ | ⟨rs, _, rfl, _⟩
  · exact hp
  · cases hp

theorem plain (h : Carries old new works) (es : List (Errand F)) : new ≠ .errands es := by
  rcases h.kind with ⟨r, phase, _, rfl⟩ | ⟨rs, _, rfl, _⟩
  · nofun
  · nofun

end Carries

theorem Carries.of_runs {rs : List (Run F α)} (h : ∀ r ∈ rs, r.output? = none) :
    ∀ k ∈ rs.map Work.run, k.output? = none ∧ ∀ es, k ≠ .errands es := by
  intro k hk
  obtain ⟨r, hr, rfl⟩ := List.mem_map.mp hk
  exact ⟨h r hr, nofun⟩

/-- What the end of a task does to the nodes; `left` tells from its draft what it leaves behind. -/
inductive Leaves (s : Setup F α) (sc sc' : Scene F α) (old : Work F α)
    (left : List (Rose α) → List (Rose α)) : Prop
  | closes (places : old.places = []) (output : old.output? = none) (tree : sc'.tree = sc.tree)
  | skips (r : Run F α) (work : old = .run r) (fresh : r.output? = none)
      (scene : sc' = sc.skip r.place)
      (leaves : ∀ draft, left draft = [.node (Medium.skip Medium.reserved) []])
  | fills (r : Run F α) (e : Error) (offending : Option Value) (work : old = .run r)
      (fresh : r.output? = none) (scene : sc' = sc.fillWithError r.place e offending)
      (leaves : ∀ draft, left draft = [Medium.failure e offending])
  | abandons (r : Run F α) (o : NodeId) (e : Error) (work : old = .run r)
      (painting : r.output? = some o) (scene : sc' = (sc.discard o).fillWithError r.place e none)
      (leaves : ∀ draft, left draft = [Medium.failure e none])
  | completes (r : Run F α) (o : NodeId) (p : Prepared F) (work : old = .run r)
      (painting : r.output? = some o)
      (scene : sc' = (sc.decorate s.settings r.resolved.name? o p r.context).finish r.place o
        (r.provenance p))
      (leaves : ∀ draft, left draft = draft.flatMap (r.brief.settled s p))

/-- Whether a piece of work is that of a call. -/
def Work.isCall : Work F α → Bool
  | .errands _ => true
  | _ => false

/-- A task does what its job says. -/
inductive Works (s : Setup F α) (w : World F α) (t : Task F α) (w' : World F α) : Prop
  | goes (work : Work F α) (works : List (Work F α))
      (draw : List (Rose α) → List (Rose α) → List (Rose α))
      (turn : ∀ draft, (t.work.job draft).turn s w.registry w.opened =
        some (.goes (fun shown => work.job (draw draft shown)) (works.map (Work.job []))))
      (moved : World.Moved w t work works w') (draws : Draws w.scene w'.scene t.work work works draw)
      (carries : Carries t.work work works) (house : World.SameHouse w w')
  | ends (outcome : Option Outcome) (left : List (Rose α) → List (Rose α))
      (turn : ∀ draft, (t.work.job draft).turn s w.registry w.opened =
        some (.ends outcome (left draft)))
      (tasks : w'.tasks = w.tasks.filter (·.id != t.id)) (next : w'.nextTask = w.nextTask)
      (outcomes : w'.outcomes = outcome.elim w.outcomes (w.outcomes.insert t.id))
      (finished : w'.finished = if t.work.isCall then t.id :: w.finished else w.finished)
      (leaves : Leaves s w.scene w'.scene t.work left) (house : World.SameHouse w w')

namespace World

variable {w w' : World F α} {s : Setup F α} {t : Task F α} {r : Run F α} {o : NodeId}

/-- Configs are taken up into an output. -/
theorem draws_of_takes {sc sc' : Scene F α} {old new : Work F α} {rs : List (Run F α)}
    {works : List (Work F α)} (h : Takes o sc sc' rs) (hold : old.output? = some o)
    (hnew : new.output? = some o) (hworks : works.flatMap Work.places = rs.map Run.place) :
    Draws sc sc' old new works fun draft shown => draft.map (Rose.put shown) := by
  refine .grows o (rs.map Run.place) id hold hnew h.grown.tree h.items h.children ?_ ?_ fun _ _ => rfl
  · rw [hworks]
    intro x hx
    obtain ⟨r, hr, rfl⟩ := List.mem_map.mp hx
    exact ⟨(h.fresh r hr).1, (h.fresh r hr).2, h.item r hr, h.bare r hr, h.parent r hr⟩
  · intro held shown _ hshown _
    exact hworks ▸ hshown

/-- Places that nobody holds are shown as they are. -/
theorem draws_of_started {sc sc' : Scene F α} {old new : Work F α} {rs : List (Run F α)}
    (h : Takes o sc sc' rs) (hold : old.output? = some o) (hnew : new.output? = some o) :
    Draws sc sc' old new [] fun draft _ =>
      draft.map (Rose.put (rs.map fun _ => .node Medium.reserved [])) := by
  refine .grows o (rs.map Run.place) _ hold hnew h.grown.tree h.items h.children (by simp) ?_
    fun _ _ => rfl
  intro held _ hfree _ _
  have hone : ∀ r ∈ rs, held r.place = none := fun r hr => hfree _ (h.fresh r hr).1 (by simp)
  have hitem := h.item
  have hbare := h.bare
  clear h hfree
  induction rs with
  | nil => exact .nil
  | cons r rs ih =>
    refine .node (hone r List.mem_cons_self) (hitem r List.mem_cons_self) ?_ ?_
    · rw [hbare r List.mem_cons_self]
      exact .nil
    · exact ih (fun r hr => hone r (List.mem_cons_of_mem _ hr))
        (fun r hr => hitem r (List.mem_cons_of_mem _ hr))
        fun r hr => hbare r (List.mem_cons_of_mem _ hr)

theorem draws_of_start {old new : Work F α} (h : w.scene.tree.Linked) (ho : o < w.scene.tree.next)
    (around : Surroundings) (raw : RawConfig F) (hold : old.output? = some o)
    (hnew : new.output? = some o) :
    Draws w.scene (w.takeUpRaw s o around raw).1.scene old new [] fun draft _ =>
      draft.map (Rose.put ((raw.normalize s.engine).map fun _ => .node Medium.reserved [])) := by
  have hstarted : Draws w.scene _ old new [] _ :=
    draws_of_started (takes_takeUpAll around (raw.normalize s.engine) h ho) hold hnew
  have hlength := congrArg (List.map fun _ => Rose.node (Medium.reserved (α := α)) [])
    (jobs_takeUpAll (w := w) (d := o) around (raw.normalize s.engine))
  simp only [List.map_map, Function.comp_def] at hlength
  rw [← hlength]
  exact hstarted

theorem draws_of_plant {old new : Work F α} (rose : Rose α) (h : w.scene.tree.Linked)
    (ho : o < w.scene.tree.next) (hold : old.output? = some o) (hnew : new.output? = some o) :
    Draws w.scene { w.scene with tree := w.scene.tree.plant o rose } old new [] fun draft _ =>
      draft.map (Rose.put [rose]) := by
  refine .grows o [w.scene.tree.next] (fun _ => [rose]) hold hnew (Tree.Grown.plant rose h ho)
    (fun x hx => Tree.get?_plant rose h ho hx) ?_ (by simp) ?_ fun _ _ => rfl
  · have hfree : ∀ x, w.scene.tree.next ≤ x → Tree.noneHeld (α := α) x = none := fun _ _ => rfl
    exact fun hlive => (Tree.shows_plant rose h hlive hfree).1
  · intro held shown hfree _ hlive
    exact (Tree.shows_plant rose h hlive fun x hx => hfree x hx (by simp)).2

/-- A part of a list is taken up into an output, and then the rest, if any, is shown. -/
theorem draws_of_list {old new : Work F α} {page : Page F} (h : w.scene.tree.Linked)
    (ho : o < w.scene.tree.next) (own : page.more = none) (hold : old.output? = some o)
    (hnew : new.output? = some o) :
    Draws w.scene (w.takeUpList s o page false).1.scene old new
      ((w.takeUpList s o page false).2.map .batch)
      fun draft shown => draft.map (Rose.put (shown ++ page.rest s.settings)) := by
  have htakes := takes_takeUpItems s page.item page.context
    (listItems page.items page.start page.stop) h ho
  rw [takeUpList_eq]
  generalize w.takeUpItems s o page.item page.context
    (listItems page.items page.start page.stop) = v at htakes ⊢
  unfold Page.rest
  split
  · have hl := htakes.grown.tree.after
    have ho' := Nat.lt_of_lt_of_le ho htakes.grown.tree.next_le
    generalize hrose : (Medium.more (α := α) s.settings page.limit
      (page.items.length - page.stop)).rose = rose
    have htree : (v.1.scene.showMore s.settings o { page with offset := page.stop }).tree =
        v.1.scene.tree.plant o rose := by
      rw [Scene.tree_showMore, ← hrose]
      simp [own]
    have hplant := Tree.Grown.plant rose hl ho'
    refine .grows o (v.2.flatten.map Run.place ++ [v.1.scene.tree.next])
      (fun shown => shown ++ [rose]) hold hnew ?_ ?_ ?_ ?_ ?_ fun _ _ => rfl
    · rw [htree]
      exact htakes.grown.tree.trans hplant (.inl rfl)
    · intro x hx
      rw [htree, Tree.get?_plant rose hl ho' (Nat.lt_of_lt_of_le hx htakes.grown.tree.next_le)]
      exact htakes.items x hx
    · intro hlive
      have hfree : ∀ x, v.1.scene.tree.next ≤ x → Tree.noneHeld (α := α) x = none := fun _ _ => rfl
      rw [htree, (Tree.shows_plant rose hl (htakes.grown.tree.lives hlive) hfree).1,
        htakes.children hlive, List.append_assoc]
    · rw [places_batches, htree]
      intro x hx
      obtain ⟨r, hr, rfl⟩ := List.mem_map.mp hx
      obtain ⟨hge, hlt⟩ := htakes.fresh r hr
      refine ⟨hge, Nat.lt_of_lt_of_le hlt hplant.next_le, ?_, ?_, ?_⟩
      · exact (Tree.get?_plant rose hl ho' hlt).trans (htakes.item r hr)
      · refine (hplant.children hlt fun he => ?_).trans (htakes.bare r hr)
        exact Nat.ne_of_lt (Nat.lt_of_lt_of_le ho hge) (Option.some.inj he)
      · intro q hq
        rw [hplant.parent hlt] at hq
        exact htakes.parent r hr q hq
    · rw [places_batches, htree]
      intro held shown hfree hshown hlive
      refine hshown.append (Tree.shows_plant rose hl (htakes.grown.tree.lives hlive) fun x hx => ?_).2
      refine hfree x (Nat.le_trans htakes.grown.tree.next_le hx) fun hm => ?_
      obtain ⟨r, hr, rfl⟩ := List.mem_map.mp hm
      exact Nat.not_lt.mpr hx (htakes.fresh r hr).2
  · simp only [List.append_nil]
    exact draws_of_takes htakes hold hnew (places_batches _)

/-! Every step is a turn of a job. -/

theorem works_of_preparing {p : Preparation F} (hwork : t.work = .run r)
    (hphase : r.phase = .preparing p) (h : w.stepPreparing s t r p = some w') : Works s w t w' := by
  have hfresh : r.output? = none := by simp [Run.output?, hphase]
  have hjob : ∀ draft, t.work.job draft = .prepare r.brief p := fun draft => by
    simp [hwork, Work.job, Run.job, hphase]
  rcases Job.turn_prepare (α := α) s w.registry r.brief p with
    ⟨why, hfailure, hturn⟩ | ⟨painter, hpainter, hturn⟩
  · have hresolved : r.resolved = .failure why := hfailure
    simp only [stepPreparing, hresolved, Resolved.painter?] at h
    cases h
    exact .ends (some .error) _ (fun draft => by rw [hjob, hturn]) rfl rfl rfl (by rw [hwork]; rfl)
      (.fills r _ _ hwork hfresh rfl fun _ => rfl) ⟨rfl, rfl⟩
  · have hpainter : r.resolved.painter? = some painter := hpainter
    unfold stepPreparing at h
    rw [hpainter] at h
    obtain ⟨progress, hprogress, rfl⟩ := Option.map_eq_some_iff.mp h
    have hturn : ∀ draft, (t.work.job draft).turn s w.registry w.opened =
        some (Job.moveOf s r.brief painter progress) := fun draft => by
      rw [hjob, hturn]
      exact congrArg (Option.map _) hprogress
    cases progress with
    | awaits events p' =>
      exact .goes (.run { r with phase := .preparing p' }) [] (fun draft _ => draft) hturn
        (.of_map rfl rfl rfl rfl) (.keeps rfl (hwork ▸ hfresh.symm) (fun _ _ _ => rfl) (.inl rfl))
        (.of_run hwork _ (by simp)) ⟨rfl, rfl⟩
    | skipped =>
      exact .ends _ _ hturn rfl rfl rfl (by rw [hwork]; rfl) (.skips r hwork hfresh rfl fun _ => rfl)
        ⟨rfl, rfl⟩
    | failed e =>
      obtain ⟨hs, ht⟩ := notePassing_frame (w := w) t p
      obtain ⟨waiting, hwaiting⟩ := notePassing_eq (w := w) t p
      refine .ends _ _ hturn ?_ ht.next ?_ (by rw [hwork]; exact ht.finished) (.fills r e none hwork hfresh ?_ fun _ => rfl) ?_
      · exact congrArg (List.filter (·.id != t.id)) ht.tasks
      · exact congrArg (Table.insert · t.id .renderedError) ht.outcomes
      · exact congrArg (Scene.fillWithError · r.place e none) hs
      · simp only [hwaiting]
        exact ⟨rfl, rfl⟩
    | prepared p' =>
      exact .goes (.run { r with phase := .painting _ p' _ false }) []
        (fun _ _ => [.node (Medium.output r.resolved.options.shape) []]) hturn
        (.of_map rfl rfl rfl rfl) (.begins _ rfl (hwork ▸ hfresh) rfl (fun _ _ => rfl) rfl)
        (.of_run hwork _ (by simp)) ⟨rfl, rfl⟩

section Painting

variable {p : Prepared F} {step : Step F α} {steps : List (Step F α)} {after : Bool}

theorem job_of_painting (hwork : t.work = .run r) (hphase : r.phase = .painting o p steps after)
    (draft : List (Rose α)) : t.work.job draft = .paint r.brief p draft steps after := by
  simp [hwork, Work.job, Run.job, hphase]

theorem output_of_painting (hphase : r.phase = .painting o p steps after) : r.output? = some o := by
  simp [Run.output?, hphase]

/-- A run that has painted all that it was to paint so far ends, or goes on after the render. -/
theorem works_of_painted (hwork : t.work = .run r) (hphase : r.phase = .painting o p [] after)
    (h : w.stepPainting s t r o p [] after = some w') : Works s w t w' := by
  have hpainting := output_of_painting hphase
  have hjob := job_of_painting (t := t) hwork hphase
  have hends : ∀ {w'}, some (w.complete s t r o p) = some w' →
      (∀ draft, (t.work.job draft).turn s w.registry w.opened =
        some (.ends (some .rendered) (draft.flatMap (r.brief.settled s p)))) →
      Works s w t w' := by
    intro w' hw hturn
    cases hw
    exact .ends _ _ hturn rfl rfl rfl (by rw [hwork]; rfl)
      (.completes r o p hwork hpainting rfl fun _ => rfl) ⟨rfl, rfl⟩
  simp only [stepPainting] at h
  cases after with
  | true => exact hends h fun draft => by rw [hjob]; rfl
  | false =>
    cases hpost : r.config.postRender with
    | none =>
      rw [hpost] at h
      refine hends h fun draft => ?_
      rw [hjob]
      simp [Job.turn, Run.brief, hpost]
    | some f =>
      rw [hpost] at h
      cases h
      have hold : t.work.output? = some o := hwork ▸ hpainting
      refine .goes (.run { r with phase := .painting o p _ true }) [] (fun draft _ => draft)
        (fun draft => ?_) (.of_map rfl rfl rfl rfl)
        (.keeps rfl hold.symm (fun _ _ _ => rfl) (.inl rfl)) (.of_run hwork _ (by simp)) ⟨rfl, rfl⟩
      rw [hjob]
      simp only [Job.turn, Run.brief, hpost]
      rfl

section Drawing

variable (hwork : t.work = .run r) (hphase : r.phase = .painting o p (step :: steps) after)
include hwork hphase

/-- A run goes on with the steps that are left. -/
theorem works_of_drawn {works : List (Work F α)}
    {draw : List (Rose α) → List (Rose α) → List (Rose α)}
    (hturn : ∀ draft, step.turn s w.registry w.opened
      (fun draft => .paint r.brief p draft steps after) draft =
        some (.goes (fun shown => .paint r.brief p (draw draft shown) steps after)
          (works.map (Work.job []))))
    (hm : Moved w t (.run { r with phase := .painting o p steps after }) works w')
    (hdraws : Draws w.scene w'.scene t.work (.run { r with phase := .painting o p steps after })
      works draw)
    (hfresh : ∀ k ∈ works, k.output? = none ∧ ∀ es, k ≠ .errands es) (hhouse : SameHouse w w') :
    Works s w t w' := by
  refine .goes _ works draw (fun draft => ?_) hm hdraws (.of_run hwork _ hfresh) hhouse
  rw [job_of_painting hwork hphase]
  exact hturn draft

/-- A run goes on with the steps that are left, and draws nothing. -/
theorem works_of_undrawn
    (hturn : ∀ draft, step.turn s w.registry w.opened
      (fun draft => .paint r.brief p draft steps after) draft =
        some (.goes (fun _ => .paint r.brief p draft steps after) []))
    (hm : Moved w t (.run { r with phase := .painting o p steps after }) [] w')
    (htree : w'.scene.tree = w.scene.tree) (hhouse : SameHouse w w') : Works s w t w' := by
  have hold : t.work.output? = some o := hwork ▸ output_of_painting hphase
  have hdraws : Draws w.scene w'.scene t.work (.run { r with phase := .painting o p steps after }) []
      fun draft _ => draft := .keeps htree hold.symm (fun _ _ _ => rfl) (.inl rfl)
  refine works_of_drawn hwork hphase ?_ hm hdraws (by simp) hhouse
  exact hturn

theorem works_of_abandoned {e : Error}
    (hturn : ∀ draft, step.turn s w.registry w.opened
      (fun draft => .paint r.brief p draft steps after) draft =
        some (.ends (some .renderedError) [Medium.failure e none]))
    (h : w' = w.abandon t r o e) : Works s w t w' := by
  subst h
  refine .ends (some .renderedError) _ (fun draft => ?_) rfl rfl rfl (by rw [hwork]; rfl)
    (.abandons r o e hwork (output_of_painting hphase) rfl fun _ => rfl) ⟨rfl, rfl⟩
  rw [job_of_painting hwork hphase]
  exact hturn draft

theorem works_of_painting (hs : Sound w) (ht : t ∈ w.tasks)
    (h : w.stepPainting s t r o p (step :: steps) after = some w') : Works s w t w' := by
  have hold : t.work.output? = some o := hwork ▸ output_of_painting hphase
  have hl := hs.linked
  have ho := hs.output_lt ht hold
  simp only [stepPainting, paintStep] at h
  cases step with
  | plant rose =>
    cases h
    exact works_of_drawn hwork hphase (fun _ => rfl) (.of_map rfl rfl rfl rfl)
      (draws_of_plant rose hl ho hold rfl) (by simp) ⟨rfl, rfl⟩
  | mark m =>
    cases h
    exact works_of_drawn hwork hphase (fun _ => rfl) (.of_map rfl rfl rfl rfl)
      (.marks o (Medium.mark m) hold rfl rfl (fun _ _ => rfl) rfl) (by simp) ⟨rfl, rfl⟩
  | render raw data context item =>
    cases h
    have htakes := takes_takeUpAll ⟨data, context, item⟩ (raw.normalize s.engine) hl ho
    refine works_of_drawn hwork hphase (fun draft => ?_) ((sameTasks_takeUpAll o _ _).launch _ _)
      (draws_of_takes htakes hold rfl (places_runs _)) (Carries.of_runs htakes.unpainted)
      ⟨(sameHouse_takeUpAll _ _).registry, (sameHouse_takeUpAll _ _).opened⟩
    rw [List.map_map]
    exact congrArg (fun jobs => some (Move.goes _ jobs)) (jobs_takeUpRaw _ raw).symm
  | start raw data context item =>
    cases h
    exact works_of_drawn hwork hphase (fun _ => rfl) ((sameTasks_takeUpAll o _ _).setWork _)
      (draws_of_start hl ho ⟨data, context, item⟩ raw hold rfl) (by simp)
      ⟨(sameHouse_takeUpAll _ _).registry, (sameHouse_takeUpAll _ _).opened⟩
  | list raw items context limit offset =>
    cases h
    refine works_of_drawn hwork hphase (fun draft => ?_) ((sameTasks_takeUpList o _ _).launch _ _)
      (draws_of_list hl ho rfl hold rfl) (fun k hk => ?_)
      ⟨(sameHouse_takeUpList _).registry, (sameHouse_takeUpList _).opened⟩
    · rw [List.map_map]
      exact congrArg (fun jobs => some (Move.goes _ jobs)) (takeUpList_frame _).2.symm
    · obtain ⟨rs, _, rfl⟩ := List.mem_map.mp hk
      exact ⟨rfl, fun _ he => by cases he⟩
  | wait g =>
    simp only at h
    split at h
    · rename_i hopen
      cases h
      refine works_of_undrawn hwork hphase (fun draft => ?_) (.of_map rfl rfl rfl rfl) rfl ⟨rfl, rfl⟩
      simp only [Step.turn, hopen]
      rfl
    · cases h
  | report e =>
    cases h
    exact works_of_undrawn hwork hphase (fun _ => rfl) (.of_map rfl rfl rfl rfl) rfl ⟨rfl, rfl⟩
  | onClick events =>
    cases h
    exact works_of_undrawn hwork hphase (fun _ => rfl) (.of_map rfl rfl rfl rfl) rfl ⟨rfl, rfl⟩
  | fail e => exact works_of_abandoned hwork hphase (fun _ => rfl) (Option.some.inj h).symm
  | panic message => exact works_of_abandoned hwork hphase (fun _ => rfl) (Option.some.inj h).symm

end Drawing

end Painting

theorem works_of_step (hs : Sound w) (ht : t ∈ w.tasks)
    (hidle : ∀ e es, t.work ≠ .errands (e :: es)) (h : w.step s t.id = some w') :
    Works s w t w' := by
  unfold step at h
  rw [hs.roster.task? ht] at h
  simp only at h
  split at h
  · cases h
  · split at h
    · rename_i es hwork
      cases es with
      | nil =>
        cases h
        exact .ends none _ (fun draft => by rw [hwork]; rfl) rfl rfl rfl (by rw [hwork]; rfl)
          (.closes (hwork ▸ rfl) (hwork ▸ rfl) rfl) ⟨rfl, rfl⟩
      | cons e es => exact absurd hwork (hidle e es)
    · rename_i rs hwork
      cases h
      cases rs with
      | nil =>
        exact .ends none _ (fun draft => by rw [hwork]; rfl) rfl rfl rfl (by rw [hwork]; rfl)
          (.closes (hwork ▸ rfl) (hwork ▸ rfl) rfl) ⟨rfl, rfl⟩
      | cons r rs =>
        refine .goes (.batch []) ((r :: rs).map .run) (fun _ shown => shown) (fun draft => ?_)
          ((SameTasks.refl w).launch _ _)
          (.keeps rfl (hwork ▸ rfl) (fun h => absurd rfl h) (.inr ⟨_, hwork, rfl⟩))
          ⟨.inr ⟨_, hwork, rfl, rfl⟩, Carries.of_runs fun r hr => hs.unpainted ht hwork hr⟩ ⟨rfl, rfl⟩
        rw [hwork, List.map_map]
        rfl
    · rename_i r hwork
      split at h
      · exact works_of_preparing hwork ‹_› h
      · rename_i o p steps after hphase
        cases steps with
        | nil => exact works_of_painted hwork hphase h
        | cons step steps => exact works_of_painting hwork hphase hs ht h

/-! Why a task cannot step. -/

theorem blocked_of_answer {a : Answer} {opened : List Gate} (h : ¬a.isReady opened = true) :
    a.blockedOn? opened ≠ none := by
  intro hnone
  refine h (List.all_eq_true.mpr fun g hg => ?_)
  simpa using List.find?_eq_none.mp hnone g hg

/-- When all props are there, they are all good or there is an error to be told. -/
theorem gathered_of_ready {asked : List (String × AskedProp F)} {opened : List Gate}
    (h : ∀ f ∈ asked, f.2.ready? opened ≠ none) :
    allReady? opened asked ≠ none ∨
      firstError? opened asked ≠ none ∧ errorInTurn? opened asked ≠ none := by
  induction asked with
  | nil => exact .inl (by simp [allReady?])
  | cons f asked ih =>
    obtain ⟨key, p⟩ := f
    have hrest := ih fun f hf => h f (List.mem_cons_of_mem _ hf)
    cases hp : p.ready? opened with
    | none => exact absurd hp (h _ List.mem_cons_self)
    | some r =>
      cases r with
      | error e => exact .inr (by simp [firstError?, errorInTurn?, hp])
      | ok v =>
        simp only [allReady?, firstError?, errorInTurn?, hp]
        refine hrest.imp_left fun hall => ?_
        cases hps : allReady? opened asked with
        | none => exact absurd hps hall
        | some ps => simp

theorem blocked_of_gathering {asked : List (String × AskedProp F)} {opened : List Gate}
    (h : gather? opened asked = none) :
    asked.filterMap (fun f => f.2.blockedOn? opened) ≠ [] := by
  intro hnone
  have hready : ∀ f ∈ asked, f.2.ready? opened ≠ none := by
    intro f hf
    have hf := List.filterMap_eq_nil_iff.mp hnone f hf
    cases hp : f.2 with
    | given p => simp [AskedProp.ready?]
    | asked a =>
      rw [hp] at hf
      simp only [AskedProp.ready?, ne_eq, ite_eq_right_iff, reduceCtorEq, imp_false, not_not]
      exact Classical.byContradiction fun hn => blocked_of_answer hn hf
  unfold gather? at h
  simp only at h
  split at h
  · cases h
  · rename_i herror
    rcases gathered_of_ready hready with hall | ⟨hfirst, hturn⟩
    · exact hall (Option.map_eq_none_iff.mp h)
    · split at herror
      · exact hfirst herror
      · exact hturn herror

/-- A preparation that cannot go on stands before a gate. -/
theorem blocked_of_advance {sub : Subject F} {p : Preparation F} {opened : List Gate}
    (h : sub.advance s opened p = none) : p.blockedOn opened ≠ [] := by
  have hanswer : ∀ {a : Answer} {k : Value → Progress F},
      Subject.withAnswer opened a k = none → (a.blockedOn? opened).toList ≠ [] := by
    intro a k ha
    unfold Subject.withAnswer at ha
    split at ha
    · split at ha
      · cases ha
      · cases ha
    · rename_i hready
      cases hb : a.blockedOn? opened with
      | none => exact absurd hb (blocked_of_answer hready)
      | some g => simp
  cases p with
  | fresh => cases h
  | condition a => exact hanswer h
  | selection a => exact hanswer h
  | dataCondition data a => exact hanswer h
  | gathering data asked => exact blocked_of_gathering (Option.map_eq_none_iff.mp h)
  | reshaping data props a => exact hanswer h
  | naming data props a => exact hanswer h

/-- A task that waits for no other and cannot step stands before a gate. -/
theorem blocked_of_stuck (hs : Roster w) (ht : t ∈ w.tasks) (hc : w.hasChildren t.id = false)
    (h : w.step s t.id = none) : w.blockedOn t ≠ [] := by
  unfold step at h
  unfold blockedOn
  rw [hs.task? ht] at h
  simp only [hc, Bool.false_eq_true, if_false] at h ⊢
  cases hwork : t.work with
  | errands es =>
    simp only [hwork] at h
    cases es with
    | nil => cases h
    | cons e es =>
      cases e with
      | wait g => simpa [stepErrands] using h
      | report e => cases h
      | turn wrapper container page all => cases h
  | batch rs => simp [hwork] at h
  | run r =>
    simp only [hwork] at h
    cases hphase : r.phase with
    | preparing p =>
      simp only [hphase] at h ⊢
      cases hresolved : r.resolved with
      | failure why => simp [stepPreparing, hresolved, Resolved.painter?] at h
      | view v =>
        simp only [stepPreparing, hresolved, Resolved.painter?] at h
        exact blocked_of_advance (Option.map_eq_none_iff.mp h)
      | inline f =>
        simp only [stepPreparing, hresolved, Resolved.painter?] at h
        exact blocked_of_advance (Option.map_eq_none_iff.mp h)
    | painting o p steps after =>
      simp only [hphase] at h ⊢
      cases steps with
      | nil =>
        simp only [stepPainting] at h
        split at h <;> cases h
      | cons step rest =>
        cases step with
        | wait g => simpa [stepPainting, paintStep] using h
        | _ => cases h

end World

end Montage
