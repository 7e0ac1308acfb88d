import Montage.Proofs.Render.Shifts
import Montage.Proofs.Render.Tasks

/-!
Places that are held for views that have not settled. Main statement: with a host that waits for all
that it renders, every pending place is that of a task, so that none is pending once all is done.
-/

namespace Montage

open Json (Value)

variable {F α : Type}

namespace Scene

variable {sc sc' : Scene F α} {n p x : NodeId}

/-- A place is held by a node, for a view that was not skipped. -/
def Pending (sc : Scene F α) (x : NodeId) : Prop :=
  ∃ v, sc.places.get? x = some v ∧ v.skipped = false

theorem pendingPlaces_eq_zero : sc.pendingPlaces = 0 ↔ ∀ x, ¬sc.Pending x := by
  rw [pendingPlaces, List.length_eq_zero_iff, List.filter_eq_nil_iff]
  constructor
  · rintro h x ⟨v, hv, hpending⟩
    refine h v (List.mem_map.mpr ⟨(x, v), Table.mem_entries.mpr hv, rfl⟩) ?_
    simp [hpending]
  · intro h v hv hpending
    obtain ⟨⟨x, v⟩, he, rfl⟩ := List.mem_map.mp hv
    exact h x ⟨v, Table.mem_entries.mp he, by simpa using hpending⟩

namespace Pending

theorem congr (h : sc'.Pending x) (hsame : sc'.places = sc.places) : sc.Pending x := by
  rw [Pending, hsame] at h
  exact h

theorem of_erase (h : sc'.Pending x) (hplaces : sc'.places = sc.places.erase p) :
    sc.Pending x ∧ x ≠ p := by
  obtain ⟨v, hv, hpending⟩ := h
  rw [hplaces, Table.get?_erase] at hv
  split at hv
  · cases hv
  · rename_i hne
    exact ⟨⟨v, hv, hpending⟩, hne⟩

theorem of_discard (h : (sc.discard n).Pending x) : sc.Pending x := by
  obtain ⟨v, hv, hpending⟩ := h
  rw [get?_places_discard] at hv
  split at hv
  · cases hv
  · exact ⟨v, hv, hpending⟩

variable [Medium α]

theorem of_skip (h : (sc.skip p).Pending x) : sc.Pending x ∧ x ≠ p := by
  obtain ⟨v, hv, hpending⟩ := h
  rw [get?_places_skip] at hv
  split at hv
  · obtain ⟨v', _, rfl⟩ := Option.map_eq_some_iff.mp hv
    cases hpending
  · rename_i hne
    exact ⟨⟨v, hv, hpending⟩, hne⟩

theorem of_reserve {d : NodeId} {view : Option String} (h : (sc.reserve d view).1.Pending x) :
    sc.Pending x ∨ x = sc.tree.next := by
  obtain ⟨v, hv, hpending⟩ := h
  rw [get?_places_reserve] at hv
  split at hv
  · exact .inr ‹_›
  · exact .inl ⟨v, hv, hpending⟩

end Pending

theorem places_addButtons (bs : List (Button α)) (wrapper container : NodeId) (page : Page F) :
    (bs.foldl (fun sc b => sc.addButton wrapper container page b) sc).places = sc.places := by
  induction bs generalizing sc with
  | nil => rfl
  | cons b bs ih => exact ih

theorem places_showMore [Medium α] (settings : Settings) (container : NodeId) (page : Page F) :
    (sc.showMore settings container page).places = sc.places :=
  places_addButtons _ _ _ page

end Scene

variable [Medium α]

/-! Hosts that wait for all that they render. -/

/-- Reserves places that are never filled. -/
def Step.isStart : Step F α → Bool
  | .start .. => true
  | _ => false

/-- The functions of a host wait for all that they render. -/
def Setup.Awaits (s : Setup F α) : Prop :=
  ∀ f call, ∀ step ∈ s.host.paint f call, step.isStart = false

/-- What is left to be painted for a job. -/
def Job.script : Job F α → List (Step F α)
  | .paint _ _ _ steps _ => steps
  | _ => []

namespace Setup.Awaits

variable {s : Setup F α} (h : s.Awaits)
include h

theorem paint (p : Painter F) (call : Call F) : ∀ step ∈ s.paint p call, step.isStart = false := by
  cases p with
  | host f => exact h f call
  | builtin b =>
    cases b <;> simp only [Setup.paint, Builtin.steps, Builtin.labelSteps]
    all_goals (try split) <;> simp [Step.isStart]

/-- A job that goes on comes to no start. -/
theorem turn {registry : Registry F} {job : Job F α} {opened : List Gate}
    {next : List (Rose α) → Job F α} {below : List (Job F α)}
    (hturn : job.turn s registry opened = some (.goes next below))
    (hjob : ∀ step ∈ job.script, step.isStart = false) (shown : List (Rose α)) :
    ∀ step ∈ (next shown).script, step.isStart = false := by
  cases job with
  | expand jobs =>
    cases hturn
    nofun
  | close shown => cases hturn
  | prepare b p =>
    rcases Job.turn_prepare s registry b p with ⟨why, _, heq⟩ | ⟨painter, _, heq⟩
    · rw [heq] at hturn
      cases hturn
    · rw [heq] at hturn
      obtain ⟨progress, _, hmove⟩ := Option.map_eq_some_iff.mp hturn
      cases progress with
      | awaits events p =>
        cases hmove
        nofun
      | skipped => cases hmove
      | failed e => cases hmove
      | prepared p =>
        cases hmove
        exact h.paint _ _
  | paint b p draft steps after =>
    cases steps with
    | nil =>
      simp only [Job.turn] at hturn
      split at hturn
      · cases hturn
        exact h _ _
      · cases hturn
    | cons step steps =>
      have hrest : ∀ st ∈ steps, st.isStart = false := fun st hst =>
        hjob st (List.mem_cons_of_mem _ hst)
      cases step <;> simp only [Job.turn, Step.turn] at hturn <;> (try split at hturn) <;>
        cases hturn <;> exact hrest

end Setup.Awaits

theorem World.Drawn.places {o : NodeId} {sc sc' : Scene F α} {step : Step F α}
    (h : Drawn o sc step sc') : sc'.places = sc.places := by
  cases h <;> rfl

theorem Run.mem_script {r : Run F α} {step : Step F α} (h : r.step? = some step)
    (draft : List (Rose α)) : step ∈ (r.job draft).script := by
  unfold Run.step? at h
  unfold Run.job
  cases hphase : r.phase with
  | preparing p =>
    rw [hphase] at h
    cases h
  | painting o p steps after =>
    rw [hphase] at h
    exact List.mem_of_mem_head? h

/-- What is left to be painted does not depend on what was. -/
theorem Work.script_job (k : Work F α) (draft draft' : List (Rose α)) :
    (k.job draft).script = (k.job draft').script := by
  cases k with
  | errands es => rfl
  | batch rs => cases rs <;> rfl
  | run r =>
    simp only [Work.job, Run.job]
    cases r.phase <;> rfl

/-- What has not begun to paint has no steps yet. -/
theorem Work.script_of_unpainted {k : Work F α} (h : k.output? = none) (draft : List (Rose α)) :
    (k.job draft).script = [] := by
  cases k with
  | errands es => rfl
  | batch rs => cases rs <;> rfl
  | run r =>
    simp only [Work.output?, Run.output?] at h
    simp only [Work.job, Run.job]
    cases hphase : r.phase with
    | preparing p => rfl
    | painting o p steps after =>
      rw [hphase] at h
      cases h

namespace World

variable {s : Setup F α} {w w' : World F α} {a : Act F α} {t u : Task F α} {d x : NodeId}
  {work : Work F α} {works : List (Work F α)}

/-! Places that become pending. -/

theorem pending_takeUpAll {around : Surroundings} {cs : List (Config F)}
    (h : (w.takeUpAll d around cs).1.scene.Pending x) :
    w.scene.Pending x ∨ ∃ r ∈ (w.takeUpAll d around cs).2, r.place = x := by
  induction cs generalizing w with
  | nil => exact .inl h
  | cons c cs ih =>
    rcases ih (w := (w.takeUp d around c).1) h with hp | ⟨r, hr, rfl⟩
    · exact hp.of_reserve.imp_right fun he => ⟨_, List.mem_cons_self, he.symm⟩
    · exact .inr ⟨r, List.mem_cons_of_mem _ hr, rfl⟩

theorem pending_takeUpItems {raw : RawConfig F} {context : Value} {items : List (Value × ListItem)}
    (h : (w.takeUpItems s d raw context items).1.scene.Pending x) : w.scene.Pending x ∨
      ∃ rs ∈ (w.takeUpItems s d raw context items).2, x ∈ rs.map Run.place := by
  induction items generalizing w with
  | nil => exact .inl h
  | cons i items ih =>
    rcases ih (w := (w.takeUpRaw s d ⟨i.1, i.2.context context, some i.2⟩ raw).1) h with
      hp | ⟨rs, hrs, hx⟩
    · refine (pending_takeUpAll hp).imp_right fun ⟨r, hr, hx⟩ => ?_
      exact ⟨_, List.mem_cons_self, List.mem_map.mpr ⟨r, hr, hx⟩⟩
    · exact .inr ⟨rs, List.mem_cons_of_mem _ hrs, hx⟩

theorem pending_takeUpList {page : Page F} {all : Bool}
    (h : (w.takeUpList s d page all).1.scene.Pending x) : w.scene.Pending x ∨
      ∃ rs ∈ (w.takeUpList s d page all).2, x ∈ rs.map Run.place := by
  obtain ⟨shown, hs | ⟨rest, _, hs⟩⟩ := takeUpList_cases w s d page all
  · rw [hs] at h ⊢
    exact pending_takeUpItems h
  · rw [hs] at h ⊢
    exact pending_takeUpItems (h.congr (Scene.places_showMore _ _ _))

/-! Who holds a place. -/

/-- A run that goes on holds its place, and its new work holds others. -/
theorem Moved.holds_run {r : Run F α} {phase : Phase F α}
    (hm : Moved w t (.run { r with phase := phase }) works w') (h : Roster w) (ht : t ∈ w.tasks)
    (hwork : t.work = .run r) (hx : w.Holds x ∨ ∃ k ∈ works, x ∈ k.places) : w'.Holds x :=
  hm.holds h ht (fun p hp => .inl (by rw [hwork] at hp; exact hp)) hx

/-- A call holds the places of its work. -/
theorem holds_of_called {es : List (Errand F)}
    (hm : Moved (w.enter es) ⟨w.nextTask, [], false, .errands es⟩ (.errands es) works w')
    (h : Roster w) (hx : w.Holds x ∨ ∃ k ∈ works, x ∈ k.places) : w'.Holds x := by
  refine hm.holds (h.entered es) (mem_enter es) (fun p hp => nomatch hp) (hx.imp_left ?_)
  rintro ⟨u, hu, hp⟩
  exact ⟨u, List.mem_append_left _ hu, hp⟩

/-- A run that ends lets go of its place alone. -/
theorem Settled.holds {r : Run F α} {o : Outcome} (hset : Settled w t o w') (h : Roster w)
    (ht : t ∈ w.tasks) (hwork : t.work = .run r) (hx : w.Holds x) (hne : x ≠ r.place) :
    w'.Holds x :=
  hx.dropped h ht hset.tasks fun hp => hne (by rw [hwork] at hp; exact List.mem_singleton.mp hp)

/-- Every pending place is that of a task, and no task comes to a start. -/
structure Attended (w : World F α) : Prop where
  held : ∀ {x}, w.scene.Pending x → w.Holds x
  awaits : ∀ {t}, t ∈ w.tasks → ∀ step ∈ (t.work.job []).script, step.isStart = false

namespace Attended

theorem start {registry : Registry F} {tree : Tree α} : Attended (World.start registry tree) where
  held := fun ⟨_, hv, _⟩ => nomatch hv
  awaits ht := nomatch ht

variable (h : Attended w)
include h

theorem held_of_runs {around : Surroundings} {raw : RawConfig F}
    (hx : (w.takeUpRaw s d around raw).1.scene.Pending x) :
    w.Holds x ∨ ∃ k ∈ (w.takeUpRaw s d around raw).2.map Work.run, x ∈ k.places :=
  (pending_takeUpAll hx).imp h.held fun ⟨r, hr, hp⟩ =>
    ⟨.run r, List.mem_map_of_mem hr, hp ▸ List.mem_cons_self⟩

theorem held_of_batches {page : Page F} {all : Bool}
    (hx : (w.takeUpList s d page all).1.scene.Pending x) :
    w.Holds x ∨ ∃ k ∈ (w.takeUpList s d page all).2.map Work.batch, x ∈ k.places :=
  (pending_takeUpList hx).imp h.held fun ⟨rs, hrs, hp⟩ => ⟨.batch rs, List.mem_map_of_mem hrs, hp⟩

/-- After a turn every pending place is that of a task. -/
theorem held_of_turn (hr : Roster w) (ht : t ∈ w.tasks) (hturn : Turn s w t w')
    (hx : w'.scene.Pending x) : w'.Holds x := by
  cases hturn with
  | waits r phase work output scene moved =>
    exact moved.holds_run hr ht work (.inl (h.held (hx.congr (scene ▸ rfl))))
  | begins r phase shape work fresh output scene moved =>
    exact moved.holds_run hr ht work (.inl (h.held (hx.congr (scene ▸ rfl))))
  | draws r o phase work painting output step script drawn moved =>
    exact moved.holds_run hr ht work (.inl (h.held (hx.congr drawn.places)))
  | nests r o phase raw around work painting output script scene moved =>
    exact moved.holds_run hr ht work (h.held_of_runs (scene ▸ hx))
  | starts r o phase raw around work painting output script scene moved =>
    have hstep := h.awaits ht _ (by rw [work]; exact Run.mem_script script [])
    cases hstep
  | lists r o phase page work painting output script own scene moved =>
    exact moved.holds_run hr ht work (h.held_of_batches (scene ▸ hx))
  | skips r work fresh scene settled =>
    have hx := Scene.Pending.of_skip (scene ▸ hx)
    exact settled.holds hr ht work (h.held hx.1) hx.2
  | fails r e offending o work fresh wrong scene settled =>
    have hx := hx.of_erase (scene ▸ (Scene.fillWithError_frame e offending).1)
    exact settled.holds hr ht work (h.held hx.1) hx.2
  | abandons r o e work painting scene settled =>
    have hx := hx.of_erase (scene ▸ (Scene.fillWithError_frame e none).1)
    exact settled.holds hr ht work (h.held hx.1.of_discard) hx.2
  | completes r o p work painting scene settled ready =>
    have hx := hx.of_erase (scene ▸ (Scene.finish_frame _ _ _ _).2.1)
    exact settled.holds hr ht work (h.held (hx.1.congr (Scene.places_decorate _ _ _ _))) hx.2
  | expands rs work scene moved =>
    refine moved.holds hr ht (fun p hp => .inr ?_) (.inl (h.held (hx.congr (scene ▸ rfl))))
    rw [work] at hp
    obtain ⟨r, hmem, rfl⟩ := List.mem_map.mp hp
    exact ⟨.run r, List.mem_map_of_mem hmem, List.mem_cons_self⟩
  | passes e es work scene moved =>
    refine moved.holds hr ht (fun p hp => ?_) (.inl (h.held (hx.congr (scene ▸ rfl))))
    rw [work] at hp
    cases hp
  | turns wrapper container page all es work scene moved =>
    refine moved.holds hr ht (fun p hp => ?_) ?_
    · rw [work] at hp
      cases hp
    · rw [scene] at hx
      refine (pending_takeUpList hx).imp (fun hp => h.held hp.of_discard) ?_
      exact fun ⟨rs, hrs, hp⟩ => ⟨.batch rs, List.mem_map_of_mem hrs, hp⟩
  | ends work scene ended =>
    refine (h.held (hx.congr (scene ▸ rfl))).dropped hr ht ended.tasks fun hp => ?_
    rcases work with work | work <;> rw [work] at hp <;> cases hp

/-- After an act every pending place is that of a task. -/
theorem held_of_act (hr : Roster w) (hact : w.act s a = some w') (hx : w'.scene.Pending x) :
    w'.Holds x := by
  have hsame : w'.tasks = w.tasks → w'.scene.places = w.scene.places → w'.Holds x := by
    intro htasks hplaces
    obtain ⟨u, hu, hp⟩ := h.held (hx.congr hplaces)
    exact ⟨u, htasks ▸ hu, hp⟩
  cases a with
  | render d raw data context =>
    cases hact
    exact holds_of_called (moved_of_called hr (sameTasks_takeUpAll d _ _) [] _) hr
      (h.held_of_runs hx)
  | renderConfig d c data context =>
    cases hact
    refine holds_of_called (moved_of_called (v := (w.takeUp d ⟨data, context, none⟩ c).1) hr
      ⟨rfl, rfl, rfl, rfl⟩ [] _) hr ?_
    refine (Scene.Pending.of_reserve hx).imp h.held fun he => ?_
    exact ⟨_, List.mem_cons_self, he ▸ List.mem_cons_self⟩
  | renderList d page =>
    cases hact
    exact holds_of_called (moved_of_called hr (sameTasks_takeUpList d page false) [] _) hr
      (h.held_of_batches hx)
  | click n =>
    simp only [World.act, World.click] at hact
    split at hact
    · cases hact
      exact holds_of_called (moved_of_called hr (.refl w) [] []) hr (.inl (h.held hx))
    · rename_i c _
      cases hact
      exact holds_of_called (moved_of_called
        (v := { w with reported := c.events.reverse ++ w.reported }) hr ⟨rfl, rfl, rfl, rfl⟩
        c.errands []) hr (.inl (h.held hx))
  | discard n =>
    cases hact
    exact h.held (Scene.Pending.of_discard hx)
  | create item => cases hact; exact hsame rfl rfl
  | plant d rose => cases hact; exact hsame rfl rfl
  | mark n m => cases hact; exact hsame rfl rfl
  | popup n => cases hact; exact hsame rfl rfl
  | define v =>
    simp only [World.act] at hact
    split at hact
    · cases hact
      exact hsame rfl rfl
    · cases hact
  | release g =>
    cases hact
    obtain ⟨u, hu, hp⟩ := h.held hx
    exact ⟨u, (mem_release g).mpr hu, hp⟩
  | note ts =>
    cases hact
    have hframe := noteWaiting_frame (w := w) ts
    exact hsame hframe.2.tasks (hframe.1 ▸ rfl)
  | step id =>
    obtain ⟨t, ht, rfl, _, hturn⟩ := turn_of_step hact
    exact h.held_of_turn hr ht hturn hx

variable [LawfulMedium α]

/-- After an act no task comes to a start. -/
theorem awaits_of_act (hhost : s.Awaits) (hs : Sound w) (ha : a.Known w.scene.tree.next)
    (hact : w.act s a = some w') (hu : u ∈ w'.tasks) :
    ∀ step ∈ (u.work.job []).script, step.isStart = false := by
  have hr := hs.roster
  have hnew : ∀ {k : Work F α}, k.output? = none →
      ∀ step ∈ (k.job []).script, step.isStart = false := by
    intro k hk step hstep
    rw [Work.script_of_unpainted hk] at hstep
    cases hstep
  cases shift_of_act hs ha hact with
  | stays mem next outcomes finished => exact h.awaits ((mem u).mp hu)
  | @calls a es works moved fresh =>
    rcases (moved.mem (hr.entered es) (mem_enter es)).mp hu with ⟨hu, hne⟩ | rfl | hu
    · rcases List.mem_append.mp hu with hu | hu
      · exact h.awaits hu
      · exact absurd (congrArg Task.id (List.mem_singleton.mp hu)) hne
    · exact hnew rfl
    · obtain ⟨i, hi, _⟩ := mem_number.mp hu
      exact hnew (fresh _ (List.mem_of_getElem? hi)).unpainted
  | @goes t r phase works mem alone work output moved fresh =>
    rcases (moved.mem hr mem).mp hu with ⟨hu, _⟩ | rfl | hu
    · exact h.awaits hu
    · -- The work that the task goes on with is what its job goes on with.
      have hr' := (hs.act ha hact).roster
      cases works_of_step hs mem (fun e es he => nomatch work.symm.trans he) hact with
      | goes work' works' draw turn moved' draws carries house =>
        have hmem := (moved'.mem hr mem).mpr (.inr (.inl rfl))
        rw [hr'.id_inj hu hmem rfl, Work.script_job work' [] (draw [] [])]
        exact hhost.turn (turn []) (h.awaits mem) []
      | ends outcome left turn tasks next outcomes finished leaves house =>
        rw [tasks] at hu
        exact absurd rfl (bne_iff_ne.mp (List.mem_filter.mp hu).2)
    · obtain ⟨i, hi, _⟩ := mem_number.mp hu
      exact hnew (fresh _ (List.mem_of_getElem? hi)).unpainted
  | @turns t work works mem alone idle rest empty moved fresh calls =>
    rcases (moved.mem hr mem).mp hu with ⟨hu, _⟩ | rfl | hu
    · exact h.awaits hu
    · exact hnew (by cases work <;> first | rfl | exact absurd ⟨_, rfl⟩ rest)
    · obtain ⟨i, hi, _⟩ := mem_number.mp hu
      exact hnew (fresh _ (List.mem_of_getElem? hi)).unpainted
  | settles mem alone work settled =>
    exact h.awaits (List.mem_filter.mp (settled.tasks ▸ hu)).1
  | ends mem alone idle ended =>
    exact h.awaits (List.mem_filter.mp (ended.tasks ▸ hu)).1

theorem act (hhost : s.Awaits) (hs : Sound w) (ha : a.Known w.scene.tree.next)
    (hact : w.act s a = some w') : Attended w' where
  held hx := h.held_of_act hs.roster hact hx
  awaits hu := h.awaits_of_act hhost hs ha hact hu

omit h in
/-- With a host that waits for all that it renders, every pending place is that of a task. -/
theorem history {registry : Registry F} {tree : Tree α} (htree : tree.Linked)
    (hhost : s.Awaits) {es : List (World F α × Act F α)}
    (hes : History s (fun v a => a.Known v.scene.tree.next) (World.start registry tree) es w) :
    Attended w := by
  refine (hes.invariant (I := fun v => Sound v ∧ Attended v) ⟨.start registry htree, .start⟩ ?_).2
  exact fun v a v' hv ha hact => ⟨hv.1.act ha hact, hv.2.act hhost hv.1 ha hact⟩

omit [LawfulMedium α] in
/-- No place is pending once all is done. -/
theorem done (hidle : w.tasks = []) : w.scene.pendingPlaces = 0 := by
  refine Scene.pendingPlaces_eq_zero.mpr fun x hx => ?_
  obtain ⟨t, ht, _⟩ := h.held hx
  rw [hidle] at ht
  cases ht

end Attended

end World

end Montage
