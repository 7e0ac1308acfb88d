import Montage.Proofs.Render.Forecasts

/-!
Forecasts made from the end. Main statement: a schedule in which all tasks of interest come to an end tells
what each of them ends with, if no task is a race on the way.
-/

namespace Montage

variable {F α : Type} [Medium α]

namespace Forecast

/-- What is forecast of new tasks, as jobs that are done. -/
def newcomers (f : Forecast α) (first : TaskId) (works : List (Work F α)) : List (Done F α) :=
  works.mapIdx fun i k => ⟨k.job [], f.due (first + i), f.turns (first + i)⟩

theorem map_job_newcomers (f : Forecast α) (first : TaskId) (works : List (Work F α)) :
    (f.newcomers first works).map Done.job = works.map (Work.job []) := by
  refine List.ext_getElem? fun i => ?_
  rw [newcomers, List.getElem?_map, List.getElem?_mapIdx, Option.map_map, List.getElem?_map]
  rfl

theorem newcomers_epoch {f : Forecast α} {first : TaskId} {works : List (Work F α)} {x : Nat} :
    (∃ b ∈ f.newcomers first works, b.yield.epoch = x) ↔
      ∃ i < works.length, (f.due (first + i)).epoch = x := by
  constructor
  · rintro ⟨b, hb, hx⟩
    obtain ⟨i, hi, rfl⟩ := List.mem_mapIdx.mp hb
    exact ⟨i, hi, hx⟩
  · rintro ⟨i, hi, hx⟩
    exact ⟨_, List.mem_mapIdx.mpr ⟨i, hi, rfl⟩, hx⟩

end Forecast

/-- Of the props that a piece of work gathers at a time, at most one fails. -/
def Work.OneFails : Work F α → Prop
  | .run r =>
    match r.phase with
    | .preparing p => p.OneFails
    | .painting .. => True
  | _ => True

instance (k : Work F α) : Decidable k.OneFails :=
  match k with
  | .run ⟨_, _, _, _, _, _, .preparing p⟩ => inferInstanceAs (Decidable p.OneFails)
  | .run ⟨_, _, _, _, _, _, .painting ..⟩ | .batch _ | .errands _ =>
    inferInstanceAs (Decidable True)

theorem Work.OneFails.job {k : Work F α} (h : k.OneFails) (draft : List (Rose α)) :
    (k.job draft).OneFails := by
  cases k with
  | run r =>
    obtain ⟨place, config, resolved, data, context, item, phase⟩ := r
    cases phase with
    | preparing p => exact h
    | painting o p steps after => trivial
  | batch rs => cases rs <;> trivial
  | errands es => trivial

namespace World

variable {s : Setup F α} {registry : Registry F} {c : Clock} {w w' : World F α} {t : Task F α}
  {work : Work F α} {works : List (Work F α)} {f : Forecast α} {I : TaskId → Prop}

/-- For any drafts, something is forecast of the tasks of interest. -/
def Foreseeable (s : Setup F α) (registry : Registry F) (c : Clock) (I : TaskId → Prop)
    (w : World F α) : Prop :=
  ∀ draft, ∃ f : Forecast α, f.draft = draft ∧
    ∀ t ∈ w.tasks, t.IsOf I → Foreseen s registry c f w t

/-- What is forecast of new tasks. -/
theorem ends_of_newcomers (hm : Moved w t work works w') (hr : Roster w) (ht : t ∈ w.tasks)
    (hopened : w'.opened = w.opened) (h : ∀ u ∈ w'.tasks, u.IsOf I → Foreseen s registry c f w' u)
    (hdraft : ∀ i, w.nextTask ≤ i → f.draft i = []) {i : Nat} {b : Done F α}
    (hb : (f.newcomers w.nextTask works)[i]? = some b) (hof : t.IsOf I ∨ I (w.nextTask + i)) :
    Ends s registry c b.job (c.epoch w.opened) b.yield b.turns := by
  rw [Forecast.newcomers, List.getElem?_mapIdx] at hb
  obtain ⟨k, hk, rfl⟩ := Option.map_eq_some_iff.mp hb
  obtain ⟨u, hu, hid, howners, hwork⟩ := hm.exists_new hr ht hk
  have hof : u.IsOf I := hof.elim (·.below howners) fun hi =>
    ⟨_, hi, Task.isWithin_iff.mpr (.inl hid)⟩
  have hsince := (h u hu hof).since
  have hends := (h u hu hof).ends
  rw [hid, awaited_new hm hr ht hopened (Nat.le_add_right _ _)] at hsince
  rw [hid, hwork, hsince.unique isGreatest_epoch, hdraft _ (Nat.le_add_right _ _)] at hends
  exact hends

namespace Foreseeable

section

variable (hw : Course registry c w) (ht : t ∈ w.tasks) (hopened : w'.opened = w.opened)
include hw ht hopened

section

variable (hc : w.hasChildren t.id = false) (hone : c = .free → t.work.OneFails)
include hc hone

theorem of_goes (h : Foreseeable s registry c I w') (hof : t.IsOf I) (hm : Moved w t work works w')
    {draw : List (Rose α) → List (Rose α) → List (Rose α)}
    (turn : ∀ draft, (t.work.job draft).turn s registry w.opened =
      some (.goes (fun shown => work.job (draw draft shown)) (works.map (Work.job [])))) :
    Foreseeable s registry c I w := by
  intro draft
  have hr := hw.orderly.sound.roster
  have hlt := hr.id_lt ht
  -- What is drawn in the end depends on what the new tasks show, and that on no other draft.
  let drafts (own : List (Rose α)) (i : TaskId) : List (Rose α) :=
    if i < w.nextTask then (if i = t.id then own else draft i) else []
  obtain ⟨f₀, hd₀, h₀⟩ := h (drafts [])
  obtain ⟨f, hd, h⟩ := h (drafts (draw (draft t.id)
    ((f₀.newcomers w.nextTask works).flatMap (·.yield.shown))))
  have hnew : ∀ b ∈ f.newcomers w.nextTask works,
      Ends s registry c b.job (c.epoch w.opened) b.yield b.turns := by
    intro b hb
    obtain ⟨i, hb⟩ := List.mem_iff_getElem?.mp hb
    exact ends_of_newcomers hm hr ht hopened h
      (fun i hi => by rw [hd]; exact if_neg (Nat.not_lt.mpr hi)) hb (.inl hof)
  have hnew₀ : ∀ b ∈ f₀.newcomers w.nextTask works,
      Ends s registry c b.job (c.epoch w.opened) b.yield b.turns := by
    intro b hb
    obtain ⟨i, hb⟩ := List.mem_iff_getElem?.mp hb
    exact ends_of_newcomers hm hr ht hopened h₀
      (fun i hi => by rw [hd₀]; exact if_neg (Nat.not_lt.mpr hi)) hb (.inl hof)
  have hjobs := f.map_job_newcomers w.nextTask works
  have hsame : f₀.newcomers w.nextTask works = f.newcomers w.nextTask works :=
    Ends.below_unique ((f₀.map_job_newcomers _ _).trans hjobs.symm) hnew₀ hnew
  rw [hsame] at hd
  let n := 1 + ((f.newcomers w.nextTask works).map Done.turns).sum + f.turns t.id
  refine ⟨⟨f.due, Function.update f.turns t.id n, Function.update f.since t.id (c.epoch w.opened),
    draft⟩, rfl, fun u hu huof => ?_⟩
  by_cases hid : u.id = t.id
  · obtain rfl := hr.id_inj hu ht hid
    refine .of_eq (Function.update_self ..) rfl (Function.update_self ..) rfl ?_ ?_
    · rw [awaited_of_alone hc]
      exact isGreatest_epoch
    · have hown := h _ ((hm.mem hr ht).mpr (.inr (.inl rfl))) (hof.congr rfl rfl)
      have hlatest := hown.since
      rw [awaited_own hm hr ht hopened hc] at hlatest
      simp only [← Forecast.newcomers_epoch] at hlatest
      have hrest : Ends s registry c (work.job (f.draft u.id)) (f.since u.id) (f.due u.id)
        (f.turns u.id) := hown.ends
      have hdrawn := congrFun hd u.id
      simp only [drafts, hlt, if_true] at hdrawn
      rw [hdrawn] at hrest
      have hgoes := gives_now hw.fits (fun hfree => (hone hfree).job (draft u.id)) (turn (draft u.id))
      rw [← hjobs] at hgoes
      exact .goes _ hgoes hnew hlatest hrest
  · have hkept := congrFun hd u.id
    simp only [drafts, hr.id_lt hu, hid, if_true, if_false] at hkept
    obtain ⟨hsince, hends⟩ := h u ((hm.mem hr ht).mpr (.inl ⟨hu, hid⟩)) huof
    refine .of_eq (Function.update_of_ne hid ..) rfl (Function.update_of_ne hid ..) hkept.symm ?_ hends
    rw [← awaited_other hm hr ht hopened (fun _ _ => rfl) hid]
    exact hsince

theorem of_ends (h : Foreseeable s registry c I w')
    (htasks : w'.tasks = w.tasks.filter (·.id != t.id)) {outcome : Option Outcome}
    {left : List (Rose α) → List (Rose α)}
    (turn : ∀ draft, (t.work.job draft).turn s registry w.opened =
      some (.ends outcome (left draft))) : Foreseeable s registry c I w := by
  intro draft
  have hr := hw.orderly.sound.roster
  obtain ⟨f, rfl, h⟩ := h draft
  let y : Yield α := ⟨outcome, left (f.draft t.id), c.epoch w.opened⟩
  have hy : (Function.update f.due t.id y t.id).epoch = c.epoch w.opened := by
    rw [Function.update_self]
  refine ⟨⟨Function.update f.due t.id y, Function.update f.turns t.id 1,
    Function.update f.since t.id (c.epoch w.opened), f.draft⟩, rfl, fun u hu hof => ?_⟩
  by_cases hid : u.id = t.id
  · obtain rfl := hr.id_inj hu ht hid
    refine .of_eq (Function.update_self ..) (Function.update_self ..) (Function.update_self ..) rfl
      ?_ ?_
    · rw [awaited_of_alone hc]
      exact isGreatest_epoch
    · exact .ends (gives_now hw.fits (fun hfree => (hone hfree).job _) (turn _))
  · have hkept : ∀ v ∈ w'.tasks, Function.update f.due t.id y v.id = f.due v.id := by
      intro v hv
      rw [htasks] at hv
      exact Function.update_of_ne (bne_iff_ne.mp (List.mem_filter.mp hv).2) ..
    obtain ⟨hsince, hends⟩ := h u (htasks ▸ List.mem_filter.mpr ⟨hu, bne_iff_ne.mpr hid⟩) hof
    refine .of_eq (Function.update_of_ne hid ..) (Function.update_of_ne hid ..)
      (Function.update_of_ne hid ..) rfl ?_ hends
    rw [← awaited_dropped htasks hopened hr ht fun _ => hy, awaited_congr hkept]
    exact hsince

end

/-- What a task of no interest goes on with tells nothing. -/
theorem of_other (h : Foreseeable s registry c I w') (hnot : ¬t.IsOf I)
    (hm : Moved w t work works w') : Foreseeable s registry c I w := by
  intro draft
  have hr := hw.orderly.sound.roster
  obtain ⟨f, hd, h⟩ := h draft
  refine ⟨f, hd, fun u hu hof => ?_⟩
  have hid : u.id ≠ t.id := fun hid => hnot (hr.id_inj hu ht hid ▸ hof)
  obtain ⟨hsince, hends⟩ := h u ((hm.mem hr ht).mpr (.inl ⟨hu, hid⟩)) hof
  rw [awaited_other hm hr ht hopened (fun _ _ => rfl) hid] at hsince
  exact ⟨hsince, hends⟩

end

theorem of_stays (h : Foreseeable s registry c I w') (hs : Stays w w')
    (hepoch : c.epoch w'.opened = c.epoch w.opened) : Foreseeable s registry c I w := by
  intro draft
  obtain ⟨f, hd, h⟩ := h draft
  refine ⟨f, hd, fun t ht hof => ?_⟩
  obtain ⟨hsince, hends⟩ := h t ((hs.mem t).mpr ht) hof
  rw [awaited_stays hs, hepoch] at hsince
  exact ⟨hsince, hends⟩

/-- Those that wait for no other have waited in the epoch before too. -/
theorem of_opens (h : Foreseeable s registry c I w') (hw : Course registry c w) (hs : Stays w w')
    (hstalled : w.Stalled s) (hepoch : c.epoch w'.opened = c.epoch w.opened + 1)
    (htold : ∀ opened, c.Allows (c.epoch w.opened) opened → opened = w.opened) :
    Foreseeable s registry c I w := by
  intro draft
  obtain ⟨f, rfl, h⟩ := h draft
  refine ⟨⟨f.due, f.turns, fun i => if w.hasChildren i then f.since i else c.epoch w.opened,
    f.draft⟩, rfl, fun t ht hof => ?_⟩
  have ht' := (hs.mem t).mpr ht
  cases hc : w.hasChildren t.id with
  | false =>
    refine .of_eq (if_neg (Bool.eq_false_iff.mp hc)) rfl rfl rfl ?_ ?_
    · rw [awaited_of_alone hc]
      exact isGreatest_epoch
    · have hends := (h t ht' hof).ends
      rw [(h t ht' hof).since_of_alone ((hasChildren_stays hs).trans hc), hepoch] at hends
      exact hends.skip (turn_of_stalled hw hstalled htold ht hc _)
  | true =>
    have hsince := (h t ht' hof).since
    rw [awaited_stays hs, hepoch] at hsince
    refine .of_eq (if_pos hc) rfl rfl rfl ?_ (h t ht' hof).ends
    constructor
    · rcases hsince.1 with heq | hchild
      · obtain ⟨u, hu, ho⟩ := exists_child hc
        have hchild := hof.below (hw.orderly.sound.roster.child_owners ht hu ho)
        have hu' := h u ((hs.mem u).mpr hu) hchild
        have hle : (f.due u.id).epoch ≤ f.since t.id := hsince.2 (.inr ⟨u, hu, ho, rfl⟩)
        have hge : c.epoch w'.opened ≤ f.since u.id := hu'.since.2 (.inl rfl)
        have hends := hu'.ends.le
        have hdue : (f.due u.id).epoch = f.since t.id := by omega
        exact .inr ⟨u, hu, ho, hdue⟩
      · exact .inr hchild
    · rintro x (rfl | hchild)
      · exact Nat.le_of_succ_le (hsince.2 (.inl rfl))
      · exact hsince.2 (.inr hchild)

/-- What happens tells what was to come. -/
theorem of_act {a : Act F α} (h : Foreseeable s registry c I w') (hw : Course registry c w)
    (ha : a.Keeps s c w) (hact : w.act s a = some w')
    (hone : c = .free → ∀ t ∈ w.tasks, t.work.OneFails) : Foreseeable s registry c I w := by
  cases hw.proceeds ha hact with
  | @steps t mem alone works =>
    have hone : c = .free → _ := fun hfree => hone hfree _ mem
    cases works with
    | goes work works draw turn moved draws carries house =>
      by_cases hof : t.IsOf I
      · exact h.of_goes hw mem house.opened alone hone hof moved (hw.registry ▸ turn)
      · exact h.of_other hw mem house.opened hof moved
    | ends outcome left turn tasks next outcomes finished leaves house =>
      exact h.of_ends hw mem house.opened alone hone tasks (hw.registry ▸ turn)
  | stays other stays registry fits epoch => exact h.of_stays stays epoch
  | opens other stays registry fits stalled epoch told =>
    exact h.of_opens hw stays stalled epoch told

/-- A schedule in which all tasks of interest come to an end tells what is to come of them in the world it
begins in. -/
theorem of_history [LawfulMedium α] {u : World F α} {es : List (World F α × Act F α)}
    (h : History s (Act.Keeps s c) u es w) (hu : Course registry c u)
    (hone : c = .free → ∀ e ∈ es, ∀ t ∈ e.1.tasks, t.work.OneFails)
    (hended : ∀ t ∈ w.tasks, ¬t.IsOf I) : Foreseeable s registry c I u := by
  have hback : Foreseeable s registry c I w → Foreseeable s registry c I u := by
    clear hended
    induction h with
    | nil => exact id
    | snoc past ok next ih =>
      have hw := past.invariant hu fun v a _ hv ok next => hv.act ok next
      intro hf
      refine ih (fun hfree e he => hone hfree e (List.mem_append_left _ he)) ?_
      exact hf.of_act hw ok next fun hfree => hone hfree _ (List.mem_append_right _ List.mem_cons_self)
  exact hback fun draft => ⟨⟨fun _ => ⟨none, [], 0⟩, fun _ => 0, fun _ => 0, draft⟩, rfl,
    fun t ht hof => absurd hof (hended t ht)⟩

end Foreseeable

end World

end Montage
