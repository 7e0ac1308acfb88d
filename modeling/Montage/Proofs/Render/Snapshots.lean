import Montage.Proofs.Render.Registrations
import Montage.Proofs.Render.Stages

/-!
Runs and the views that they found. Main statement: whatever is defined and whatever happens, in any order, a
run renders with the view that was the first to be defined with its name when its place was reserved, or ends
with the error that there was none.
-/

namespace Montage

open Json (Value)

variable {F α : Type} [Medium α]

namespace World

variable {s : Setup F α} {w w' v : World F α} {a : Act F α} {t u : Task F α} {r : Run F α} {d : NodeId}

/-! Only definitions change the registry. -/

theorem registry_takeUpRaw (around : Surroundings) (raw : RawConfig F) :
    (w.takeUpRaw s d around raw).1.registry = w.registry := by
  obtain ⟨scene, h⟩ := takeUpAll_eq (w := w) (d := d) around (raw.normalize s.engine)
  rw [takeUpRaw, h]

theorem registry_takeUpList (page : Page F) (all : Bool) :
    (w.takeUpList s d page all).1.registry = w.registry := by
  obtain ⟨shown, h | ⟨rest, _, h⟩⟩ := takeUpList_cases w s d page all
  all_goals
    obtain ⟨scene, hitems⟩ := takeUpItems_eq (w := w) (s := s) (d := d) page.item page.context shown
    rw [h, hitems]

theorem registry_of_painting {o : NodeId} {p : Prepared F} {steps : List (Step F α)} {after : Bool}
    (h : w.stepPainting s t r o p steps after = some w') : w'.registry = w.registry := by
  unfold stepPainting at h
  split at h
  · rename_i step rest
    cases step with
    | plant rose => cases h; rfl
    | mark m => cases h; rfl
    | render raw data context item => cases h; exact registry_takeUpRaw _ raw
    | start raw data context item => cases h; exact registry_takeUpRaw _ raw
    | list raw items context limit offset => cases h; exact registry_takeUpList _ false
    | wait g =>
      simp only [paintStep] at h
      split at h
      · cases h; rfl
      · cases h
    | report e => cases h; rfl
    | onClick events => cases h; rfl
    | fail e => cases h; rfl
    | panic message => cases h; rfl
  · split at h
    · cases h; rfl
    · cases h; rfl

theorem registry_of_preparing {p : Preparation F} (h : w.stepPreparing s t r p = some w') :
    w'.registry = w.registry := by
  unfold stepPreparing at h
  split at h
  · cases h; rfl
  · cases h
  · obtain ⟨progress, _, rfl⟩ := Option.map_eq_some_iff.mp h
    cases progress with
    | awaits events p' => rfl
    | skipped => rfl
    | failed e =>
      obtain ⟨waiting, hw⟩ := notePassing_eq (w := w) t p
      simp only [hw]
      rfl
    | prepared p' => rfl

theorem registry_of_step {id : TaskId} (h : w.step s id = some w') : w'.registry = w.registry := by
  unfold step at h
  split at h
  · cases h
  · split at h
    · cases h
    · split at h
      · rename_i es _
        unfold stepErrands at h
        split at h
        · cases h; rfl
        · split at h
          · cases h; rfl
          · cases h
        · cases h; rfl
        · cases h; exact registry_takeUpList _ _
      · cases h
        unfold stepBatch
        split <;> rfl
      · split at h
        · exact registry_of_preparing h
        · exact registry_of_painting h

/-! Runs keep what they found. -/

/-- A run is under way, by itself or in a batch. -/
def HasRun (w : World F α) (r : Run F α) : Prop :=
  ∃ t ∈ w.tasks, r ∈ t.work.runs

/-- The place of a run was reserved between two worlds, and it renders with what its config stood for then. -/
structure TakenUp (w w' : World F α) (r : Run F α) : Prop where
  place : w.scene.tree.next ≤ r.place ∧ r.place < w'.scene.tree.next
  resolved : r.resolved = w.resolve r.config

theorem resolve_congr (h : w'.registry = w.registry) (c : Config F) : w'.resolve c = w.resolve c := by
  rw [resolve, resolve, h]

theorem resolved_takeUpAll (around : Surroundings) (cs : List (Config F)) :
    ∀ r ∈ (w.takeUpAll d around cs).2, r.resolved = w.resolve r.config := by
  induction cs generalizing w with
  | nil => simp [takeUpAll]
  | cons c cs ih =>
    refine List.forall_mem_cons.mpr ⟨rfl, fun r hr => ?_⟩
    exact (ih (w := (w.takeUp d around c).1) r hr).trans (resolve_congr rfl r.config)

theorem resolved_takeUpItems (raw : RawConfig F) (context : Value) (items : List (Value × ListItem)) :
    ∀ r ∈ (w.takeUpItems s d raw context items).2.flatten, r.resolved = w.resolve r.config := by
  induction items generalizing w with
  | nil => simp [takeUpItems]
  | cons i items ih =>
    obtain ⟨v, item⟩ := i
    refine List.forall_mem_append.mpr ⟨resolved_takeUpAll _ _, fun r hr => ?_⟩
    have hrest := ih (w := (w.takeUpRaw s d ⟨v, item.context context, some item⟩ raw).1) r hr
    exact hrest.trans (resolve_congr (registry_takeUpRaw _ raw) r.config)

theorem resolved_takeUpList (page : Page F) (all : Bool) :
    ∀ r ∈ (w.takeUpList s d page all).2.flatten, r.resolved = w.resolve r.config := by
  obtain ⟨shown, h | ⟨rest, _, h⟩⟩ := takeUpList_cases w s d page all
  all_goals
    rw [h]
    exact resolved_takeUpItems page.item page.context shown

theorem TakenUp.of_reserves {rs : List (Run F α)} (h : Reserves d w.scene w'.scene rs)
    (hresolved : ∀ r ∈ rs, r.resolved = w.resolve r.config) : ∀ r ∈ rs, TakenUp w w' r :=
  fun r hr => ⟨h.fresh r hr, hresolved r hr⟩

/-- A run of an act is one that was under way before, or was taken up in it. -/
def Comes (w w' : World F α) (r' : Run F α) : Prop :=
  (∃ r phase, w.HasRun r ∧ r' = { r with phase := phase }) ∨ TakenUp w w' r'

theorem Comes.of_hasRun (h : w.HasRun r) : Comes w w' r :=
  .inl ⟨r, r.phase, h, rfl⟩

theorem hasRun_of_moved {P : Run F α → Prop} {work : Work F α} {works : List (Work F α)} (hr : Roster w)
    (ht : t ∈ w.tasks) (hm : Moved w t work works w') (hothers : ∀ r, w.HasRun r → P r)
    (hwork : ∀ r ∈ work.runs, P r) (hworks : ∀ k ∈ works, ∀ r ∈ k.runs, P r) : ∀ r, w'.HasRun r → P r := by
  rintro r ⟨u, hu, hrun⟩
  rcases (hm.mem hr ht).mp hu with ⟨hu, _⟩ | rfl | hu
  · exact hothers r ⟨u, hu, hrun⟩
  · exact hwork r hrun
  · obtain ⟨i, hi, _⟩ := mem_number.mp hu
    exact hworks _ (List.mem_of_getElem? hi) r hrun

theorem hasRun_of_filter {p : Task F α → Bool} (htasks : w'.tasks = w.tasks.filter p) (h : w'.HasRun r) :
    w.HasRun r := by
  obtain ⟨u, hu, hrun⟩ := h
  rw [htasks] at hu
  exact ⟨u, (List.mem_filter.mp hu).1, hrun⟩

theorem forall_runs {P : Run F α → Prop} {rs : List (Run F α)} (h : ∀ r ∈ rs, P r) :
    ∀ k ∈ rs.map Work.run, ∀ r ∈ k.runs, P r := by
  intro k hk r hr
  obtain ⟨r', hr', rfl⟩ := List.mem_map.mp hk
  exact List.mem_singleton.mp hr ▸ h r' hr'

theorem forall_batches {P : Run F α → Prop} {bs : List (List (Run F α))} (h : ∀ r ∈ bs.flatten, P r) :
    ∀ k ∈ bs.map Work.batch, ∀ r ∈ k.runs, P r := by
  intro k hk r hr
  obtain ⟨b, hb, rfl⟩ := List.mem_map.mp hk
  exact h r (List.mem_flatten.mpr ⟨b, hb, hr⟩)

/-- What a turn of a task does to the runs under way. -/
theorem comes_of_turn (h : Sound w) (ht : t ∈ w.tasks) (hturn : Turn s w t w') :
    ∀ r, w'.HasRun r → Comes w w' r := by
  have hr := h.roster
  have hgoes : ∀ {r : Run F α} {phase : Phase F α} {works : List (Work F α)}, t.work = .run r →
      Moved w t (.run { r with phase := phase }) works w' →
      (∀ k ∈ works, ∀ r ∈ k.runs, TakenUp w w' r) → ∀ r, w'.HasRun r → Comes w w' r := by
    intro r phase works work moved hworks
    refine hasRun_of_moved hr ht moved (fun _ => .of_hasRun) (fun r' hr' => ?_)
      fun k hk r' hr' => .inr (hworks k hk r' hr')
    obtain rfl := List.mem_singleton.mp hr'
    exact .inl ⟨r, phase, ⟨t, ht, work ▸ List.mem_singleton_self r⟩, rfl⟩
  have hends : w'.tasks = w.tasks.filter (·.id != t.id) → ∀ r, w'.HasRun r → Comes w w' r :=
    fun htasks r hrun => .of_hasRun (hasRun_of_filter htasks hrun)
  cases hturn with
  | waits r phase work output scene moved => exact hgoes work moved (by simp)
  | begins r phase shape work fresh output scene moved => exact hgoes work moved (by simp)
  | draws r o phase work painting output step script drawn moved => exact hgoes work moved (by simp)
  | nests r o phase raw around work painting output script scene moved =>
    have ho : t.work.output? = some o := work ▸ painting
    have hreserves := (h.takes_own ht ho s around raw).reserves
    rw [← scene] at hreserves
    exact hgoes work moved (forall_runs (.of_reserves hreserves (resolved_takeUpAll around _)))
  | starts r o phase raw around work painting output script scene moved => exact hgoes work moved (by simp)
  | lists r o phase page work painting output script own scene moved =>
    have ho : t.work.output? = some o := work ▸ painting
    have hreserves := (h.takesList_own ht ho s own).reserves
    rw [← scene] at hreserves
    exact hgoes work moved (forall_batches (.of_reserves hreserves (resolved_takeUpList page false)))
  | skips r work fresh scene settled => exact hends settled.tasks
  | fails r e offending o work fresh wrong scene settled => exact hends settled.tasks
  | abandons r o e work painting scene settled => exact hends settled.tasks
  | completes r o p work painting scene settled => exact hends settled.tasks
  | expands rs work scene moved =>
    exact hasRun_of_moved hr ht moved (fun _ => .of_hasRun) (by simp [Work.runs])
      (forall_runs fun r hrun => .of_hasRun ⟨t, ht, work ▸ hrun⟩)
  | passes e es work scene moved =>
    exact hasRun_of_moved hr ht moved (fun _ => .of_hasRun) (by simp [Work.runs]) (by simp)
  | turns wrapper container page all es work scene moved =>
    have hreserves := (h.takesList_turn ht work s).reserves
    rw [← scene] at hreserves
    have hnext : (w.discard wrapper).scene.tree.next = w.scene.tree.next :=
      (Tree.Pruned.remove h.linked wrapper).next
    have hnew : ∀ r ∈ ((w.discard wrapper).takeUpList s container page all).2.flatten, TakenUp w w' r := by
      intro r hrun
      have hresolve : (w.discard wrapper).resolve r.config = w.resolve r.config := resolve_congr rfl r.config
      exact ⟨hnext ▸ hreserves.fresh r hrun, (resolved_takeUpList page all r hrun).trans hresolve⟩
    exact hasRun_of_moved hr ht moved (fun _ => .of_hasRun) (by simp [Work.runs])
      (forall_batches fun r hrun => .inr (hnew r hrun))
  | ends work scene ended => exact hends ended.tasks

/-- What a call does to the runs under way. -/
theorem comes_of_call {es : List (Errand F)} {works : List (Work F α)} (h : Roster w)
    (hm : Moved (w.enter es) ⟨w.nextTask, [], false, .errands es⟩ (.errands es) works w')
    (hworks : ∀ k ∈ works, ∀ r ∈ k.runs, TakenUp w w' r) : ∀ r, w'.HasRun r → Comes w w' r := by
  have hothers : ∀ r, (w.enter es).HasRun r → Comes w w' r := by
    rintro r ⟨u, hu, hrun⟩
    rcases List.mem_append.mp hu with hu | hu
    · exact .of_hasRun ⟨u, hu, hrun⟩
    · rw [List.mem_singleton.mp hu] at hrun
      exact absurd hrun (List.not_mem_nil)
  have hcall : ∀ r ∈ (Work.errands es : Work F α).runs, Comes w w' r := by simp [Work.runs]
  exact hasRun_of_moved (h.entered es) (mem_enter es) hm hothers hcall fun k hk r hr => .inr (hworks k hk r hr)

/-- Runs go on with what they found, and those that are taken up find what is defined. -/
theorem comes_of_act (h : Sound w) (ha : a.Known w.scene.tree.next) (hact : w.act s a = some w') :
    ∀ r, w'.HasRun r → Comes w w' r := by
  have hr := h.roster
  have hl := h.linked
  have hstays : (∀ u, u ∈ w'.tasks ↔ u ∈ w.tasks) → ∀ r, w'.HasRun r → Comes w w' r :=
    fun hmem r ⟨u, hu, hrun⟩ => .of_hasRun ⟨u, (hmem u).mp hu, hrun⟩
  cases a with
  | render d raw data context =>
    cases hact
    have ht := (takes_takeUpAll (w := w) ⟨data, context, none⟩ (raw.normalize s.engine) hl ha).reserves
    exact comes_of_call hr (moved_of_called hr (sameTasks_takeUpAll d _ _) [] _)
      (forall_runs (.of_reserves ht (resolved_takeUpAll _ _)))
  | renderConfig d c data context =>
    cases hact
    have ht := (takes_takeUp (w := w) hl ha ⟨data, context, none⟩ c).reserves
    exact comes_of_call hr (moved_of_called (v := (w.takeUp d ⟨data, context, none⟩ c).1) hr
      ⟨rfl, rfl, rfl, rfl⟩ [] _) (forall_runs (.of_reserves ht fun r hrun => List.mem_singleton.mp hrun ▸ rfl))
  | renderList d page =>
    cases hact
    have ht := (takes_takeUpList (w := w) s page false hl ha.1 ha.2).reserves
    exact comes_of_call hr (moved_of_called hr (sameTasks_takeUpList d page false) [] _)
      (forall_batches (.of_reserves ht (resolved_takeUpList page false)))
  | click n =>
    simp only [World.act, World.click] at hact
    split at hact
    · cases hact
      exact comes_of_call hr (moved_of_called hr (.refl w) [] []) (by simp)
    · rename_i c _
      cases hact
      exact comes_of_call hr (moved_of_called (v := { w with reported := c.events.reverse ++ w.reported }) hr
        ⟨rfl, rfl, rfl, rfl⟩ c.errands []) (by simp)
  | discard n => cases hact; exact hstays fun _ => Iff.rfl
  | create item => cases hact; exact hstays fun _ => Iff.rfl
  | plant d rose => cases hact; exact hstays fun _ => Iff.rfl
  | mark n m => cases hact; exact hstays fun _ => Iff.rfl
  | popup n => cases hact; exact hstays fun _ => Iff.rfl
  | define v =>
    simp only [World.act] at hact
    split at hact
    · cases hact
      exact hstays fun _ => Iff.rfl
    · cases hact
  | release g => cases hact; exact hstays fun u => mem_release g
  | note ts =>
    cases hact
    exact hstays fun u => by rw [(noteWaiting_frame (w := w) ts).2.tasks]
  | step id =>
    obtain ⟨t, ht, rfl, hc, hturn⟩ := turn_of_step hact
    exact comes_of_turn h ht hturn

end World

/-! Dealings with a renderer. -/

/-- What is asked of a renderer: to define views, which it may refuse, or anything else. -/
inductive Dealing (F α : Type) [Medium α] where
  | define (v : View F)
  | defineAll (vs : List (View F))
  | act (a : Act F α)

namespace Dealing

/-- The views that are to be defined. -/
def tried : Dealing F α → List (View F)
  | define v => [v]
  | defineAll vs => vs
  | act (.define v) => [v]
  | act _ => []

/-- The errors that it answers with. -/
def errors (w : World F α) : Dealing F α → List Error
  | define v =>
    match w.registry.define v with
    | .ok _ => []
    | .error e => [e]
  | defineAll vs => (w.registry.defineAll vs).2
  | act _ => []

/-- The world after it; none if an act cannot happen. -/
def run (w : World F α) (s : Setup F α) : Dealing F α → Option (World F α)
  | define v =>
    match w.registry.define v with
    | .ok r => some { w with registry := r }
    | .error _ => some w
  | defineAll vs => some { w with registry := (w.registry.defineAll vs).1 }
  | act a => w.act s a

/-- Nodes are put only under nodes that were made before. -/
def Known (bound : NodeId) : Dealing F α → Prop
  | act a => a.Known bound
  | _ => True

instance (bound : NodeId) (d : Dealing F α) : Decidable (d.Known bound) :=
  match d with
  | define _ | defineAll _ => inferInstanceAs (Decidable True)
  | act a => inferInstanceAs (Decidable (a.Known bound))

end Dealing

/-- What was asked of a renderer, with the world before each. -/
inductive Dealings (s : Setup F α) (u : World F α) : List (World F α × Dealing F α) → World F α → Prop
  | nil : Dealings s u [] u
  | snoc {ds : List (World F α × Dealing F α)} {v w : World F α} {d : Dealing F α}
      (past : Dealings s u ds v) (ok : d.Known v.scene.tree.next) (next : d.run v s = some w) :
      Dealings s u (ds ++ [(v, d)]) w

/-- The views that were to be defined, in order. -/
def triedIn (ds : List (World F α × Dealing F α)) : List (View F) :=
  ds.flatMap fun e => e.2.tried

/-- All acts but the definitions. -/
def actsIn (ds : List (World F α × Dealing F α)) : List (World F α × Act F α) :=
  ds.filterMap fun e =>
    match e.2 with
    | .act a => some (e.1, a)
    | _ => none

open Registry

/-- What becomes of the registry, by the views that were tried before. -/
structure Defines (earlier : List (View F)) (w : World F α) (d : Dealing F α) (w' : World F α) : Prop where
  views : w'.registry.views = w.registry.views ++ accepted earlier d.tried
  /-- One error for each view that is refused. -/
  errors : d.errors w = refusals earlier d.tried
  refused : ∀ v, d = .define v → d.errors w ≠ [] → w' = w
  frame : (∀ a, d ≠ .act a) → w' = { w with registry := w'.registry }

namespace World

variable {s : Setup F α} {u w w' : World F α} {a : Act F α} {d : Dealing F α} {t : Task F α} {r : Run F α}
  {earlier : List (View F)} {ds : List (World F α × Dealing F α)}

theorem defines_of_act (hw : w.registry.views = accepted [] earlier) (h : w.act s a = some w') :
    Defines earlier w (.act a) w' := by
  have hkept : (Dealing.act a).tried = [] → w'.registry = w.registry → Defines earlier w (.act a) w' := by
    intro htried hregistry
    refine ⟨?_, ?_, (fun _ hd => by cases hd), fun hnot => absurd rfl (hnot a)⟩
    · rw [htried, hregistry, accepted, List.append_nil]
    · rw [htried]
      rfl
  cases a with
  | render d raw data context => cases h; exact hkept rfl (registry_takeUpRaw _ raw)
  | renderConfig d c data context => cases h; exact hkept rfl rfl
  | renderList d page => cases h; exact hkept rfl (registry_takeUpList page false)
  | click n =>
    simp only [World.act, World.click] at h
    split at h <;> (cases h; exact hkept rfl rfl)
  | discard n => cases h; exact hkept rfl rfl
  | create item => cases h; exact hkept rfl rfl
  | plant d rose => cases h; exact hkept rfl rfl
  | mark n m => cases h; exact hkept rfl rfl
  | popup n => cases h; exact hkept rfl rfl
  | define v =>
    have hone := views_define hw v
    simp only [World.act] at h
    cases hdefine : w.registry.define v with
    | ok registry =>
      rw [hdefine] at h hone
      cases h
      obtain ⟨haccepted, hviews⟩ := hone
      refine ⟨hviews, ?_, (fun _ hd => by cases hd), fun hnot => absurd rfl (hnot _)⟩
      simp [Dealing.errors, Dealing.tried, refusals, haccepted]
    | error e =>
      rw [hdefine] at h
      cases h
  | release g => cases h; exact hkept rfl rfl
  | note ts =>
    cases h
    obtain ⟨waiting, hw⟩ := noteWaiting_eq (w := w) ts
    exact hkept rfl (by rw [hw])
  | step id => exact hkept rfl (registry_of_step h)

/-- A renderer that holds what was accepted goes on to do so, and refuses what is to be refused. -/
theorem defines_of_run (hw : w.registry.views = accepted [] earlier) (h : d.run w s = some w') :
    Defines earlier w d w' := by
  cases d with
  | define v =>
    have hone := views_define hw v
    simp only [Dealing.run] at h
    cases hdefine : w.registry.define v with
    | ok registry =>
      rw [hdefine] at h hone
      cases h
      obtain ⟨haccepted, hviews⟩ := hone
      have herrors : (Dealing.define v : Dealing F α).errors w = [] := by simp [Dealing.errors, hdefine]
      refine ⟨hviews, ?_, fun _ _ hne => absurd herrors hne, fun _ => rfl⟩
      rw [herrors]
      simp [Dealing.tried, refusals, haccepted]
    | error e =>
      rw [hdefine] at h hone
      cases h
      obtain ⟨hrefused, hnothing⟩ := hone
      refine ⟨?_, ?_, fun _ _ _ => rfl, fun _ => rfl⟩
      · rw [Dealing.tried, hnothing, List.append_nil]
      · simp [Dealing.errors, Dealing.tried, refusals, hdefine, hrefused]
  | defineAll vs =>
    cases h
    obtain ⟨hviews, herrors⟩ := defineAll_eq hw vs
    exact ⟨hviews, herrors, (fun _ hd => by cases hd), fun _ => rfl⟩
  | act a => exact defines_of_act hw h

end World

namespace Dealings

open World

variable {s : Setup F α} {u v w : World F α} {d : Dealing F α} {t : Task F α} {r : Run F α}
  {ds before after : List (World F α × Dealing F α)}

/-- A registry that was empty holds what was accepted. -/
theorem views (h : Dealings s u ds w) (hu : u.registry = .empty) :
    w.registry.views = accepted [] (triedIn ds) := by
  induction h with
  | nil =>
    rw [hu]
    rfl
  | snoc past ok next ih =>
    rw [(defines_of_run ih next).views, ih]
    simp [triedIn, List.flatMap_append, accepted_append]

/-- What was asked before something was. -/
theorem upTo (h : Dealings s u ds w) (hds : ds = before ++ (v, d) :: after) : Dealings s u before v := by
  induction h generalizing after with
  | nil => simp at hds
  | @snoc ds v' w d' past ok next ih =>
    rcases List.eq_nil_or_concat after with rfl | ⟨after, e, rfl⟩
    · obtain ⟨rfl, hlast⟩ := List.append_inj' hds rfl
      cases hlast
      exact past
    · rw [List.concat_eq_append, ← List.cons_append, ← List.append_assoc] at hds
      exact ih (List.append_inj' hds rfl).1

/-- What every act keeps and no change of the registry touches holds at the end. -/
theorem invariant {I : List (World F α × Act F α) → World F α → Prop} (h : Dealings s u ds w) (hu : I [] u)
    (hact : ∀ es v a v', I es v → a.Known v.scene.tree.next → v.act s a = some v' → I (es ++ [(v, a)]) v')
    (hregistry : ∀ es v registry, I es v → I es { v with registry := registry }) : I (actsIn ds) w := by
  induction h with
  | nil => exact hu
  | @snoc ds v w d past ok next ih =>
    have hacts : actsIn (ds ++ [(v, d)]) = actsIn ds ++ actsIn [(v, d)] := List.filterMap_append
    rw [hacts]
    cases d with
    | define x =>
      rw [show actsIn [(v, Dealing.define x)] = [] from rfl, List.append_nil]
      simp only [Dealing.run] at next
      split at next
      · cases next
        exact hregistry _ _ _ ih
      · cases next
        exact ih
    | defineAll vs =>
      rw [show actsIn [(v, Dealing.defineAll vs)] = [] from rfl, List.append_nil]
      cases next
      exact hregistry _ _ _ ih
    | act a => exact hact _ _ _ _ ih ok next

variable [LawfulMedium α]

theorem sound (h : Dealings s u ds w) (hu : Sound u) : Sound w :=
  h.invariant (I := fun _ w => Sound w) hu (fun _ _ _ _ hv ha hact => hv.act ha hact)
    fun _ _ _ hv => hv.sameTasks ⟨rfl, rfl, rfl, rfl⟩ rfl

/-- The place of every run was reserved at some time, and the run renders with what its config stood for
then. -/
theorem takenUp (h : Dealings s u ds w) (hu : Sound u) (hnone : u.tasks = []) (hr : w.HasRun r) :
    ∃ before v d v' after, ds = before ++ (v, d) :: after ∧ d.run v s = some v' ∧ TakenUp v v' r := by
  induction h generalizing r with
  | nil =>
    obtain ⟨t, ht, -⟩ := hr
    rw [hnone] at ht
    cases ht
  | @snoc ds v w d past ok next ih =>
    have hold : ∀ {r}, v.HasRun r → ∃ before v₀ d₀ v' after, ds ++ [(v, d)] = before ++ (v₀, d₀) :: after ∧
        d₀.run v₀ s = some v' ∧ TakenUp v₀ v' r := by
      intro r hr
      obtain ⟨before, v₀, d₀, v', after, rfl, hrun, htaken⟩ := ih hr
      exact ⟨before, v₀, d₀, v', after ++ [(v, d)], by simp, hrun, htaken⟩
    cases d with
    | define x =>
      simp only [Dealing.run] at next
      split at next <;> (cases next; exact hold hr)
    | defineAll vs =>
      cases next
      exact hold hr
    | act a =>
      rcases comes_of_act (past.sound hu) ok next r hr with ⟨r₀, phase, hr₀, rfl⟩ | htaken
      · obtain ⟨before, v₀, d₀, v', after, hds, hrun, htaken⟩ := hold hr₀
        exact ⟨before, v₀, d₀, v', after, hds, hrun, htaken.place, htaken.resolved⟩
      · exact ⟨ds, v, .act a, w, [], rfl, next, htaken⟩

end Dealings

namespace World

variable {s : Setup F α} {u w w' : World F α} {t : Task F α} {r : Run F α} {why : Failure}
  {painter : Painter F} {es : List (World F α × Act F α)} {ds : List (World F α × Dealing F α)}

/-- What comes of a run that has nothing to render with: it takes no step but the one that puts its error in
its place and ends it. -/
inductive Unusable (s : Setup F α) (t : Task F α) (r : Run F α) (why : Failure)
    (es : List (World F α × Act F α)) (w : World F α) : Prop
  | fresh (here : w.At t r (.preparing .fresh))
  | ended (outcome : w.outcomeOf? t.id = some .error)
      (did : Did s es t.id fun sc sc' => sc' = sc.fillWithError r.place why.error (some why.offending))

theorem at_of_mem {ph : Phase F α} (ht : t ∈ w.tasks) (hwork : t.work = .run r) (hphase : r.phase = ph) :
    w.At t r ph := by
  have hsame : ({ t with work := .run { r with phase := ph } } : Task F α) = t := by
    rw [← hphase, show ({ r with phase := r.phase } : Run F α) = r from rfl, ← hwork]
  exact hsame.symm ▸ ht

theorem ends_of_failure (hr : Roster w) (here : w.At t r (.preparing .fresh)) (hwhy : r.resolved = .failure why)
    (hact : w.step s t.id = some w') : w'.outcomeOf? t.id = some .error ∧
      w'.scene = w.scene.fillWithError r.place why.error (some why.offending) := by
  unfold step at hact
  rw [task?_of_at hr here] at hact
  simp only at hact
  split at hact
  · cases hact
  · simp only [stepPreparing, hwhy, Resolved.painter?] at hact
    cases hact
    exact ⟨outcome_of_settled ⟨rfl, rfl, rfl, rfl⟩, rfl⟩

theorem Unusable.act {a : Act F α} (h : Unusable s t r why es w) (hwhy : r.resolved = .failure why) (hw : Sound w)
    (ha : a.Known w.scene.tree.next) (hact : w.act s a = some w') : Unusable s t r why (es ++ [(w, a)]) w' := by
  have hshift := shift_of_act hw ha hact
  cases h with
  | fresh here =>
    by_cases hne : a = .step t.id
    · subst hne
      obtain ⟨houtcome, hscene⟩ := ends_of_failure hw.roster here hwhy hact
      exact .ended houtcome (.last hact hscene)
    · exact .fresh (hshift.kept hw.roster here hne)
  | ended outcome did => exact .ended (hshift.outcome_kept hw.roster outcome) (did.mono _)

/-- No change of the registry changes what can be said of a run. -/
theorem Account.of_registry (h : Account s t r painter es w) (registry : Registry F) :
    Account s t r painter es { w with registry := registry } := by
  cases h with
  | fresh here log => exact .fresh here log
  | asking waits passed here log => exact .asking waits passed here log
  | skipped passed falsy outcome log did => exact .skipped passed falsy outcome log did
  | failed passed wrong outcome log did => exact .failed passed wrong outcome log did
  | painting passed script sound post here log did => exact .painting passed script sound post here log did
  | broken passed breaks post outcome log did => exact .broken passed breaks post outcome log did
  | rendered passed sound outcome log did => exact .rendered passed sound outcome log did

theorem Unusable.of_registry (h : Unusable s t r why es w) (registry : Registry F) :
    Unusable s t r why es { w with registry := registry } := by
  cases h with
  | fresh here => exact .fresh here
  | ended outcome did => exact .ended outcome did

variable [LawfulMedium α]

theorem account_of_dealings (hu : Sound u) (here : u.At t r (.preparing .fresh))
    (hpainter : r.resolved.painter? = some painter) (h : Dealings s u ds w) :
    Account s t r painter (actsIn ds) w := by
  refine (h.invariant (I := fun es w => Sound w ∧ Account s t r painter es w) ⟨hu, .fresh here rfl⟩
    (fun es v a v' ⟨hv, hacc⟩ ha hact => ?_) fun es v registry ⟨hv, hacc⟩ => ?_).2
  · have hv' := hv.act ha hact
    exact ⟨hv', hacc.act hpainter hv hv'.roster ha hact⟩
  · exact ⟨hv.sameTasks ⟨rfl, rfl, rfl, rfl⟩ rfl, hacc.of_registry registry⟩

theorem unusable_of_dealings (hu : Sound u) (here : u.At t r (.preparing .fresh)) (hwhy : r.resolved = .failure why)
    (h : Dealings s u ds w) : Unusable s t r why (actsIn ds) w := by
  refine (h.invariant (I := fun es w => Sound w ∧ Unusable s t r why es w) ⟨hu, .fresh here⟩
    (fun es v a v' ⟨hv, hends⟩ ha hact => ?_) fun es v registry ⟨hv, hends⟩ => ?_).2
  · exact ⟨hv.act ha hact, hends.act hwhy hv ha hact⟩
  · exact ⟨hv.sameTasks ⟨rfl, rfl, rfl, rfl⟩ rfl, hends.of_registry registry⟩

/-- A renderer that began without views, after any dealings with it: definitions, of one view or of many, and
all else that can happen, steps of suspended runs in any order. Its names are those of the views that were
not refused, each once and in order, and under each is the first view that was defined with it. A definition
answers with one error for each view that is refused, adds all others, and changes nothing else. Every run had
its place reserved at some time, and what it has to render with is what its name stood for then, by all that
was tried before, or the error that it stood for nothing. From its beginning, whatever is defined later, it
does just what this view has it do, or ends with this error. -/
theorem runs_keep_views {tree : Tree α} (htree : tree.Linked) (h : Dealings s (start .empty tree) ds w) :
    (w.registry.names = (accepted [] (triedIn ds)).map View.name ∧ w.registry.names.Nodup ∧
      ∀ name, w.registry.get? name = first? (triedIn ds) name) ∧
    (∀ d w', d.run w s = some w' → Defines (triedIn ds) w d w') ∧
    (∀ r, w.HasRun r → ∃ before v d v' after, ds = before ++ (v, d) :: after ∧ d.run v s = some v' ∧
      TakenUp v v' r ∧ ∀ name, r.config.view = some (.named name) → r.resolved =
        ((first? (triedIn before) name).map Resolved.view).getD
          (.failure ⟨.unknownView name, r.config.toJson⟩)) ∧
    ∀ t ∈ w.tasks, ∀ r, t.work = .run r → r.phase = .preparing .fresh →
      (∀ V, r.resolved = .view V → ∀ later w', Dealings s w later w' →
        Account s t r V.painter (actsIn later) w') ∧
      ∀ why, r.resolved = .failure why → ∀ later w', Dealings s w later w' →
        Unusable s t r why (actsIn later) w' := by
  have hu : Sound (start .empty tree : World F α) := .start .empty htree
  have hget : ∀ {ds : List (World F α × Dealing F α)} {w : World F α}, Dealings s (start .empty tree) ds w →
      ∀ name, w.registry.get? name = first? (triedIn ds) name := by
    intro ds w h name
    rw [Registry.get?, h.views rfl, find?_accepted]
    simp
  refine ⟨⟨?_, ?_, hget h⟩, fun d w' hrun => defines_of_run (h.views rfl) hrun, fun r hr => ?_,
    fun t ht r hwork hfresh => ?_⟩
  · rw [Registry.names, h.views rfl]
  · rw [Registry.names, h.views rfl]
    exact nodup_accepted _ _
  · obtain ⟨before, v, d, v', after, hds, hrun, htaken⟩ := h.takenUp hu rfl hr
    refine ⟨before, v, d, v', after, hds, hrun, htaken, fun name hname => ?_⟩
    rw [htaken.resolved, resolve, hname, ← hget (h.upTo hds)]
    simp only
    cases v.registry.get? name <;> rfl
  · have hw := h.sound hu
    have here := at_of_mem ht hwork hfresh
    refine ⟨fun V hV later w' hlater => ?_, fun why hwhy later w' hlater => unusable_of_dealings hw here hwhy hlater⟩
    exact account_of_dealings hw here (by rw [hV]; rfl) hlater

/-- A view that is defined early, and what is tried late: one more view, and names that are taken or blank. -/
def earlyView : View (Fin 2) :=
  ⟨"early", .host 0, {}⟩

def lateViews : List (View (Fin 2)) :=
  [⟨"late", .host 1, {}⟩, ⟨"early", .host 1, {}⟩, ⟨" ", .host 1, {}⟩]

def lateConfig : Config (Fin 2) :=
  { view := some (.named "late") }

def quietSetup : Setup (Fin 2) Html.Item :=
  .scripted fun _ => []

def beforeViews : World (Fin 2) Html.Item :=
  start .empty (.single (Html.Item.ofTag "body"))

def beforeRender : World (Fin 2) Html.Item :=
  { beforeViews with registry := ⟨[earlyView]⟩ }

def beforeLate : World (Fin 2) Html.Item :=
  (beforeRender.render quietSetup 1 (.object lateConfig) .null .null).1

def afterLate : World (Fin 2) Html.Item :=
  { beforeLate with registry := ⟨[earlyView, ⟨"late", .host 1, {}⟩]⟩ }

def lateDealings : List (World (Fin 2) Html.Item × Dealing (Fin 2) Html.Item) :=
  [(beforeViews, .define earlyView), (beforeRender, .act (.render 1 (.object lateConfig) .null .null)),
    (beforeLate, .defineAll lateViews)]

def lateRun : Run (Fin 2) Html.Item :=
  ⟨2, lateConfig, .failure ⟨.unknownView "late", lateConfig.toJson⟩, .null, .null, none, .preparing .fresh⟩

/-- A view is rendered before it is defined. It is defined while its run is suspended, and the run ends with
the error all the same; all names are refused when they are tried once more. -/
theorem runs_keep_views_of_late :
    Dealings quietSetup beforeViews lateDealings afterLate ∧
      afterLate.registry.names = ["early", "late"] ∧
      (∀ w', (Dealing.defineAll lateViews).run afterLate quietSetup = some w' →
        (Dealing.defineAll lateViews).errors afterLate = [.definition "view `late` is already defined",
          .definition "view `early` is already defined", .definition "view name must not be empty"]) ∧
      ∀ later w', Dealings quietSetup afterLate later w' →
        Unusable quietSetup ⟨2, [1], false, .run lateRun⟩ lateRun ⟨.unknownView "late", lateConfig.toJson⟩
          (actsIn later) w' := by
  have hdefine : beforeViews.registry.define earlyView = .ok ⟨[earlyView]⟩ := rfl
  have hall : (beforeLate.registry.defineAll lateViews).1 = ⟨[earlyView, ⟨"late", .host 1, {}⟩]⟩ := rfl
  have hfirst : (Dealing.define earlyView).run beforeViews quietSetup = some beforeRender := by
    rw [Dealing.run, hdefine]
    rfl
  have hlast : (Dealing.defineAll lateViews).run beforeLate quietSetup = some afterLate := by
    rw [Dealing.run, hall]
    rfl
  have hrender : (Dealing.act (.render 1 (.object lateConfig) .null .null)).run beforeRender quietSetup =
      some beforeLate := rfl
  have hplace : (Dealing.act (.render 1 (.object lateConfig) .null .null) : Dealing (Fin 2) Html.Item).Known
      beforeRender.scene.tree.next := by decide
  have h : Dealings quietSetup beforeViews lateDealings afterLate :=
    .snoc (.snoc (.snoc .nil (by trivial) hfirst) hplace hrender) (by trivial) hlast
  have htried : triedIn lateDealings = earlyView :: lateViews := rfl
  have hmem : (⟨2, [1], false, .run lateRun⟩ : Task (Fin 2) Html.Item) ∈ afterLate.tasks := by
    have htasks : afterLate.tasks = [⟨2, [1], false, .run lateRun⟩, ⟨1, [], false, .errands []⟩] := by cbv
    simp [htasks]
  obtain ⟨⟨hnames, -, -⟩, hdefines, -, hruns⟩ := runs_keep_views (.single _) h
  refine ⟨h, ?_, fun w' hw' => ?_, (hruns _ hmem lateRun rfl rfl).2 _ rfl⟩
  · rw [hnames, htried]
    decide +kernel
  · rw [(hdefines _ w' hw').errors, htried]
    decide +kernel

end World

end Montage
