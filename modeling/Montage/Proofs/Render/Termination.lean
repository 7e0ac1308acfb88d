import Montage.Proofs.Media.Agreement
import Montage.Proofs.Render.Calls
import Montage.Proofs.Render.Siblings

/-!
When rendering ends. Main statement: a call to render data with the views that a medium brings along comes
to an end, after a number of steps that does not depend on the schedule, unless a config that comes up is
rendered again inside itself, with the same data and context; then no schedule comes to an end.
-/

namespace Montage

open Json (Value)

variable {F α : Type} [Medium α]

/-- A config that comes up is rendered again inside itself, with the same data and context. -/
def RawConfig.Repeats (s : Setup F α) (registry : Registry F) (data context : Value)
    (raw : RawConfig F) : Prop :=
  ∃ b ∈ raw.briefs s registry ⟨data, context, none⟩, ∃ b',
    Relation.ReflTransGen (Brief.Calls s registry) b b' ∧
      Relation.TransGen (Brief.Calls s registry) b' b'

/-- Data that is given has every line of calls end unless one of them repeats. -/
theorem RawConfig.acc_iff_not_repeats {s : Setup F α} {registry : Registry F}
    (hengine : s.engine = Expression.engine) (hregistry : registry.IsPlain)
    (config data context : Value) :
    (∀ b ∈ (ofJson config).briefs s registry ⟨data, context, none⟩,
        Acc (flip (Brief.Calls s registry)) b) ↔ ¬(ofJson config).Repeats s registry data context := by
  obtain ⟨k, n, hserves, hconfig, hdata⟩ := exists_serves config data context
  have hiff : ∀ b ∈ (ofJson config).briefs s registry ⟨data, context, none⟩,
      (Acc (flip (Brief.Calls s registry)) b ↔ ∀ b', Relation.ReflTransGen (Brief.Calls s registry) b b' →
        ¬Relation.TransGen (Brief.Calls s registry) b' b') := by
    intro b hb
    obtain ⟨c, hc, rfl⟩ := List.mem_map.mp hb
    refine acc_iff_acyclic (finite_below hserves hengine hregistry ⟨c, _, ?_, ?_, rfl⟩ ?_)
    · exact ⟨config, hconfig, .inl (hengine ▸ hc)⟩
    · exact ⟨hdata, .inl rfl, nofun⟩
    · exact RawConfig.IsData.briefs hregistry (.inl ⟨config, rfl⟩) _ hb
  constructor
  · rintro hacc ⟨b, hb, b', hreach, hcycle⟩
    exact (hiff b hb).mp (hacc b hb) b' hreach hcycle
  · exact fun hnone b hb => (hiff b hb).mpr fun b' hreach hcycle => hnone ⟨b, hb, b', hreach, hcycle⟩

/-- Work that is plain is so whatever it has painted. -/
theorem Work.isPlain_job {s : Setup F α} {k : Work F α} {draft : List (Rose α)}
    (h : (k.job draft).IsPlain s) (draft' : List (Rose α)) : (k.job draft').IsPlain s := by
  cases k with
  | run r =>
    simp only [job, Run.job] at h ⊢
    split at h
    · exact h
    · cases h with
      | paint post script => exact .paint post script
  | batch rs =>
    cases rs with
    | nil => exact .close
    | cons r rs => exact h
  | errands es => exact .close

namespace World

variable {s : Setup F α} {registry : Registry F} {c : Clock} {call : TaskId} {w w' w₀ : World F α}
  {a : Act F α} {tree : Tree α} {d : NodeId} {raw : RawConfig F} {config data context : Value}
  {es₀ es : List (World F α × Act F α)}

/-- What is under way is plain and works for a call, which is done last. -/
structure Plain (s : Setup F α) (registry : Registry F) (c : Clock) (call : TaskId) (w : World F α) :
    Prop where
  course : Course registry c w
  jobs : ∀ t ∈ w.tasks, (t.work.job []).IsPlain s
  within : ∀ t ∈ w.tasks, t.isWithin call
  closed : Closed w

section

variable (hinstant : s.engine.IsInstant) (hregistry : registry.IsPlain)
include hinstant

namespace Plain

include hregistry in
theorem act [LawfulMedium α] (h : Plain s registry c call w) (ha : a.Keeps s c w)
    (hact : w.act s a = some w') : Plain s registry c call w' := by
  have hkept : (∀ u ∈ w'.tasks, u ∈ w.tasks) → Plain s registry c call w' := fun hmem =>
    ⟨h.course.act ha hact, fun u hu => h.jobs u (hmem u hu), fun u hu => h.within u (hmem u hu),
      h.closed.act h.course.orderly.sound (ha.known _) hact⟩
  cases h.course.proceeds ha hact with
  | stays other stays => exact hkept fun u => (stays.mem u).mp
  | opens other stays => exact hkept fun u => (stays.mem u).mp
  | @steps t mem alone works =>
    cases works with
    | ends outcome left turn tasks => exact hkept fun u hu => (List.mem_filter.mp (tasks ▸ hu)).1
    | goes work works draw turn moved =>
      obtain ⟨hnext, hbelow, _⟩ :=
        (h.jobs t mem).goes hinstant (h.course.registry ▸ hregistry) (turn [])
      refine ⟨h.course.act ha hact, fun u hu => ?_, fun u hu => ?_,
        h.closed.act h.course.orderly.sound (ha.known _) hact⟩
      all_goals
        rcases (moved.mem h.course.orderly.sound.roster mem).mp hu with ⟨hu, _⟩ | rfl | hu
      · exact h.jobs u hu
      · exact Work.isPlain_job (hnext []) []
      · obtain ⟨i, hi, _⟩ := mem_number.mp hu
        exact hbelow _ (List.mem_map_of_mem (List.mem_of_getElem? hi))
      · exact h.within u hu
      · exact h.within t mem
      · obtain ⟨_, _, _, howners, _⟩ := mem_number.mp hu
        exact Task.isWithin_iff.mpr (.inr (howners ▸ Task.mem_owners_below.mpr (h.within t mem)))

/-- It never comes to a halt. -/
theorem tasks_of_stalled (h : Plain s registry c call w) (hstalled : w.Stalled s) : w.tasks = [] := by
  refine Classical.byContradiction fun hne => ?_
  obtain ⟨t, ht, hc⟩ := h.course.orderly.sound.roster.exists_alone hne
  exact (h.jobs t ht).exists_turn hinstant w.opened
    (turn_of_stuck h.course ht hc (Option.isNone_iff_eq_none.mp (hstalled t ht)) [])

omit hinstant in
include hregistry in
/-- A call to render data. -/
theorem of_render [LawfulMedium α] (hw : Orderly w) (hclosed : Closed w) (hidle : w.tasks = [])
    (hd : d < w.scene.tree.next) (hfits : c.Fits w.opened) (hsame : w.registry = registry)
    (hraw : raw.IsData) :
    Plain s registry c w.nextTask (w.render s d raw data context).1 := by
  refine ⟨hsame ▸ course_render hw hidle hd hfits, fun u hu => ?_, fun u hu => ?_,
    hclosed.act (a := .render d raw data context) hw.sound hd rfl⟩
  · rcases mem_render hw hidle hu with ⟨_, _, hcall⟩ | ⟨_, r, hr, _, _, hrun⟩
    · rw [hcall]
      exact .close
    · have hjob := List.mem_map_of_mem (f := Run.job []) (List.mem_of_getElem? hr)
      rw [taken, jobs_takeUpRaw, Job.ofRaw_eq, hsame] at hjob
      obtain ⟨b, hb, hjob⟩ := List.mem_map.mp hjob
      rw [hrun, Work.job, ← hjob]
      exact (hraw.briefs hregistry b hb).fresh
  · rcases mem_render hw hidle hu with ⟨hid, _⟩ | ⟨_, _, _, _, howners, _⟩
    · exact Task.isWithin_iff.mpr (.inl hid)
    · exact Task.isWithin_iff.mpr (.inr (howners ▸ List.mem_cons_self))

omit hinstant in
theorem not_finished (h : Plain s registry c call w) (hne : w.tasks ≠ []) : call ∉ w.finished := by
  intro hdone
  obtain ⟨t, ht⟩ := List.exists_mem_of_ne_nil _ hne
  rcases Task.isWithin_iff.mp (h.within t ht) with hid | howned
  · exact (h.closed call hdone).2 t ht hid
  · obtain ⟨u, hu, hid, _⟩ := h.course.orderly.sound.roster.suffix ht howned
    exact (h.closed call hdone).2 u hu hid

end Plain

end

variable [LawfulMedium α]

/-- At every moment of the life of a renderer, the tasks of finished calls are gone. -/
theorem closed_of_history (htree : tree.Linked)
    (h : History s (fun v a => a.IsProper v) (start registry tree) es w) : Orderly w ∧ Closed w := by
  refine h.invariant (I := fun v => Orderly v ∧ Closed v) ⟨.start registry htree, nofun⟩ ?_
  exact fun v a v' hv ok next => ⟨hv.1.act ok next, hv.2.act hv.1.sound ok.1 next⟩

section

variable (hengine : s.engine = Expression.engine)
  (hviews : ∀ v ∈ w₀.registry.views, v ∈ Registry.builtins α) (hw₀ : Orderly w₀)
  (hclosed : Closed w₀) (hidle : w₀.tasks = []) (hd : d < w₀.scene.tree.next)
include hengine hviews hw₀ hclosed hidle hd

/-- A call to render data is carried on as it began. -/
theorem Plain.of_history (h : History s (fun v a => a.Continues s v)
    (w₀.render s d (.ofJson config) data context).1 es w) :
    Plain s w₀.registry (.inTurn w₀.opened.reverse) w₀.nextTask w := by
  have hinstant : s.engine.IsInstant := hengine ▸ Expression.isInstant_engine
  have hregistry := Registry.isPlain_of_builtins hviews
  refine h.invariant (I := Plain s w₀.registry (.inTurn w₀.opened.reverse) w₀.nextTask) ?_ ?_
  · exact .of_render hregistry hw₀ hclosed hidle hd (Clock.fits_inTurn _) rfl (.inl ⟨config, rfl⟩)
  · exact fun v a v' hv ok next => hv.act hinstant hregistry (ok.keeps _) next

omit hclosed in
/-- If nothing repeats, a call takes so many steps. -/
theorem exists_steps (hnone : ¬(RawConfig.ofJson config).Repeats s w₀.registry data context) :
    ∃ n, ∀ es w, History s (fun v a => a.Continues s v)
        (w₀.render s d (.ofJson config) data context).1 es w →
      steps es ≤ n ∧ (w.Stalled s → w.tasks = []) ∧ (w.tasks = [] → steps es = n ∧
        (w₀.render s d (.ofJson config) data context).2.call ∈ w.finished ∧
        none ∉ w.outcomesOf (w₀.render s d (.ofJson config) data context).2) := by
  have hinstant : s.engine.IsInstant := hengine ▸ Expression.isInstant_engine
  have hregistry := Registry.isPlain_of_builtins hviews
  have hacc := (RawConfig.acc_iff_not_repeats hengine hregistry config data context).mpr hnone
  have hfinishes : ∀ job ∈ Job.ofRaw s w₀.registry ⟨data, context, none⟩ (.ofJson config),
      job.Finishes s w₀.registry := by
    rw [Job.ofRaw_eq, List.forall_mem_map]
    intro b hb
    have hplain := RawConfig.IsData.briefs hregistry (.inl ⟨config, rfl⟩) b hb
    exact (hplain.finishes_iff hinstant hregistry).mpr (hacc b hb)
  obtain ⟨below, hjobs, hends⟩ := exists_done_of_finishes hfinishes (.inTurn w₀.opened.reverse)
    (Clock.epoch (.inTurn w₀.opened.reverse) w₀.opened)
  refine ⟨1 + (below.map Done.turns).sum, fun es w h => ?_⟩
  have hcomes := comesTo_of_ends hw₀ hidle hd (Clock.fits_inTurn _) hjobs (fun b hb => (hends b hb).1)
    (h.imp fun _ _ ha => ha.keeps _)
  refine ⟨hcomes.steps_le, hcomes.drained (Clock.last_inTurn _), fun hdone =>
    ⟨hcomes.steps_eq hdone, hcomes.finished hdone, ?_⟩⟩
  rw [hcomes.outcomes hdone]
  exact outcomes_of_ends hjobs fun b hb => (hends b hb).1

/-- If something repeats, a call goes on for ever. -/
theorem not_stalled_of_repeats
    (hrepeats : (RawConfig.ofJson config).Repeats s w₀.registry data context)
    (h : History s (fun v a => a.Continues s v) (w₀.render s d (.ofJson config) data context).1 es w) :
    ¬w.Stalled s ∧ (w₀.render s d (.ofJson config) data context).2.call ∉ w.finished := by
  have hinstant : s.engine.IsInstant := hengine ▸ Expression.isInstant_engine
  have hregistry := Registry.isPlain_of_builtins hviews
  have hplain := Plain.of_history hengine hviews hw₀ hclosed hidle hd h
  have hne : w.tasks ≠ [] := by
    intro hended
    obtain ⟨below, hjobs, hends⟩ := ends_of_schedule hw₀ hidle hd (Clock.fits_inTurn _)
      (h.imp fun _ _ ha => ha.keeps _) hended nofun
    refine (RawConfig.acc_iff_not_repeats hengine hregistry config data context).mp ?_ hrepeats
    intro b hb
    have hjob : Job.prepare b .fresh ∈ below.map Done.job := by
      rw [hjobs, Job.ofRaw_eq]
      exact List.mem_map_of_mem hb
    obtain ⟨done, hdone, hjob⟩ := List.mem_map.mp hjob
    have hfresh := (RawConfig.IsData.briefs hregistry (s := s) (.inl ⟨config, rfl⟩) b hb).fresh (s := s)
    exact .intro b (hfresh.grounded hinstant hregistry (hjob ▸ hends done hdone))
  exact ⟨fun hstalled => hne (hplain.tasks_of_stalled hinstant hstalled),
    call_render (s := s) (c := d) w₀ (.ofJson config) data context ▸ hplain.not_finished hne⟩

end

variable (config data context) in
/-- A config is rendered with data and a context, all of them given, by a renderer that has only the views
of its medium. If a config that comes up is rendered again inside itself, with the same data and context,
every schedule goes on for ever and the call is never done. If none is, every schedule takes so many steps
and comes to an end; then the call is done, and all its configs have outcomes. -/
theorem render_ends_unless_repeated (htree : tree.Linked) (hengine : s.engine = Expression.engine)
    (hviews : ∀ v ∈ w₀.registry.views, v ∈ Registry.builtins α)
    (h₀ : History s (fun v a => a.IsProper v) (start registry tree) es₀ w₀) (hidle : w₀.tasks = [])
    (hd : d < w₀.scene.tree.next) :
    (¬(RawConfig.ofJson config).Repeats s w₀.registry data context → ∃ n, ∀ es w,
      History s (fun v a => a.Continues s v) (w₀.render s d (.ofJson config) data context).1 es w →
        steps es ≤ n ∧ (w.Stalled s → w.tasks = []) ∧ (w.tasks = [] → steps es = n ∧
          (w₀.render s d (.ofJson config) data context).2.call ∈ w.finished ∧
          none ∉ w.outcomesOf (w₀.render s d (.ofJson config) data context).2)) ∧
    ((RawConfig.ofJson config).Repeats s w₀.registry data context → ∀ es w,
      History s (fun v a => a.Continues s v) (w₀.render s d (.ofJson config) data context).1 es w →
        ¬w.Stalled s ∧ (w₀.render s d (.ofJson config) data context).2.call ∉ w.finished) := by
  obtain ⟨hw₀, hclosed⟩ := closed_of_history htree h₀
  exact ⟨exists_steps hengine hviews hw₀ hidle hd,
    fun hrepeats _ _ => not_stalled_of_repeats hengine hviews hw₀ hclosed hidle hd hrepeats⟩

/-- A title is shown after ten steps, whatever the schedule. -/
theorem render_ends_unless_repeated_of_title :
    let s := aloneSetup Box.Item
    let registry : Registry Empty := ⟨Registry.builtins Box.Item⟩
    let v := (start registry (.single (Box.Item.box .block none))).render s 1 (.ofJson titleConfig)
      (.str "Report") .null
    ¬(RawConfig.ofJson titleConfig).Repeats s registry (.str "Report") .null ∧
      ∀ es w, History s (fun v a => a.Continues s v) v.1 es w →
        steps es ≤ 10 ∧ (w.Stalled s → w.tasks = []) ∧ (w.tasks = [] → steps es = 10 ∧
          v.2.call ∈ w.finished ∧ none ∉ w.outcomesOf v.2) := by
  intro s registry v
  have hplay : (play s (fun _ a => a.isStep = true) v.1 titleSteps).any (fun w =>
      w.tasks.isEmpty) = true := by
    cbv
  obtain ⟨w, hw, hended⟩ := (Option.any_eq_true _ _).mp hplay
  rw [List.isEmpty_iff] at hended
  obtain ⟨es, hacts, hes⟩ := History.of_play hw
  have hes := hes.imp fun v a ha => Act.Continues.of_step (s := s) (w := v) ha
  obtain ⟨hends, hgoes⟩ := render_ends_unless_repeated titleConfig (.str "Report") .null
    (.single (Box.Item.box .block none)) (s := s) (d := 1) rfl (fun _ hv => hv)
    (.nil : History s _ (start registry _) [] _) rfl (by decide)
  have hnone : ¬(RawConfig.ofJson titleConfig).Repeats s registry (.str "Report") .null :=
    fun hrepeats => (hgoes hrepeats es w hes).1 fun t ht => by
      rw [hended] at ht
      cases ht
  obtain ⟨n, hn⟩ := hends hnone
  obtain ⟨hsteps, _⟩ := (hn es w hes).2.2 hended
  have hten : n = 10 := by
    have hcount : steps es = (es.map Prod.snd).countP Act.isStep := by
      rw [List.countP_map]
      rfl
    rw [← hsteps, hcount, hacts]
    rfl
  exact ⟨hnone, hten ▸ hn⟩

/-! A config that is its own data. -/

/-- A block around what the data stands for as a config. -/
def echoConfig : Value :=
  .obj [("content", .str "=$"), ("view", .str "block")]

/-- The block with itself as data. -/
def echoBrief : Brief Empty :=
  .ofConfig Box.Item ⟨Registry.builtins Box.Item⟩ ⟨echoConfig, .null, none⟩
    ((Config.ofView "block").withProp "content" (.json (.str "=$")))

theorem calls_echoBrief :
    echoBrief.Calls (aloneSetup Box.Item) ⟨Registry.builtins Box.Item⟩ echoBrief := by
  let s := aloneSetup Box.Item
  have hevaluate : Expression.evaluate ['$'] echoConfig .null = .ok echoConfig := by
    rw [Expression.evaluate]
    rfl
  have hquery : s.engine.query "$" echoConfig .null = .now (.ok echoConfig) :=
    congrArg Answer.now hevaluate
  have hcontent : Props.config? (echoBrief.subject.prepared s).props "content" =
      some (.ofJson echoConfig) := by
    have hgiven : (echoBrief.subject.prepared s).props =
        [("content", .json (s.engine.query "$" echoConfig .null).value)] := rfl
    rw [hgiven, hquery]
    rfl
  refine ⟨fun st => ?_, .builtin .content, rfl, .render (.ofJson echoConfig) echoConfig .null none, ?_,
    List.mem_cons_self⟩
  · cases st with
    | props =>
      exact List.forall_mem_singleton.mpr ⟨echoConfig, congrArg Answer.result hquery,
        fun hcond => Bool.noConfusion hcond⟩
    | _ => exact Subject.passes_of_waitingAt rfl
  · simp only [s, Setup.paint, Builtin.steps, Brief.callOf] at hcontent ⊢
    rw [hcontent]
    exact List.mem_cons_self

/-- Rendered with itself as data, the block goes on for ever. -/
theorem render_of_echo_never_ends :
    let s := aloneSetup Box.Item
    let v := (start ⟨Registry.builtins Box.Item⟩ (.single (Box.Item.box .block none))).render s 1
      (.ofJson echoConfig) echoConfig .null
    ∀ es w, History s (fun v a => a.Continues s v) v.1 es w →
      ¬w.Stalled s ∧ v.2.call ∉ w.finished := by
  intro s v es w h
  have hrepeats : (RawConfig.ofJson echoConfig).Repeats s ⟨Registry.builtins Box.Item⟩ echoConfig .null :=
    ⟨echoBrief, List.mem_cons_self, echoBrief, .refl, .single calls_echoBrief⟩
  refine not_stalled_of_repeats rfl (fun _ hv => hv) ?_ ?_ rfl (by decide) hrepeats h
  · exact .start _ (.single _)
  · nofun

end World

end Montage
