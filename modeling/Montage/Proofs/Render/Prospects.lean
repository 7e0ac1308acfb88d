import Montage.Proofs.Render.Confined
import Montage.Proofs.Render.Forecasts

/-!
What nodes will show once all that is under way and of interest is done. The places of tasks of interest
are held for what their runs will leave there, as is forecast. Main statement: whatever is carried on, a
container shows the same then, and the forecast comes true.
-/

namespace Montage

variable {F α : Type} [Medium α]

namespace Work

theorem flatMap_places (works : List (Work F α)) :
    works.flatMap places = (works.flatMap runs).map Run.place := by
  rw [List.map_flatMap]
  exact congrArg (works.flatMap ·) (funext places_eq)

theorem flatMap_runs (rs : List (Run F α)) : (rs.map Work.run).flatMap runs = rs := by
  rw [List.flatMap_map]
  exact List.flatMap_singleton' rs

end Work

variable {s : Setup F α} {registry : Registry F} {c : Clock} {e n : Nat} {y : Yield α}
  {k : Work F α} {works : List (Work F α)} {rs : List (Run F α)} {below : List (Done F α)}
  {held held' : Holding α} {draft : List (Rose α)}

/-! Runs that have not begun to paint. -/

/-- What is closed shows what it had. -/
theorem Ends.of_close (h : Ends s registry c (.close draft) e y n) : y.shown = draft := by
  cases h with
  | ends turn =>
    obtain ⟨_, hmove⟩ := turn.always fun _ => rfl
    cases hmove
    rfl
  | goes below turn done latest rest => cases (turn.always fun _ => rfl).2

/-- Work that has not begun to paint ends with what its runs show. -/
theorem Ends.runs (h : Ends s registry c (k.job []) e y n) : ∃ below : List (Done F α),
    below.map Done.job = k.runs.map (Run.job []) ∧
      (∀ b ∈ below, Ends s registry c b.job e b.yield b.turns) ∧
      y.shown = below.flatMap (·.yield.shown) := by
  cases k with
  | run r =>
    refine ⟨[⟨r.job [], y, n⟩], rfl, ?_, (List.append_nil _).symm⟩
    intro b hb
    rw [List.mem_singleton.mp hb]
    exact h
  | errands es => exact ⟨[], rfl, by simp, h.of_close⟩
  | batch rs =>
    cases rs with
    | nil => exact ⟨[], rfl, by simp, h.of_close⟩
    | cons r rs =>
      cases h with
      | ends turn => cases (turn.always fun _ => rfl).2
      | goes below turn done latest rest =>
        obtain ⟨rfl, hmove⟩ := turn.always fun _ => rfl
        obtain ⟨rfl, hjobs⟩ := Move.goes.inj hmove
        exact ⟨below, hjobs.symm, done, rest.of_close⟩

theorem runs_of_below (hjobs : below.map Done.job = works.map (Work.job []))
    (hends : ∀ b ∈ below, Ends s registry c b.job e b.yield b.turns) : ∃ done : List (Done F α),
    done.map Done.job = (works.flatMap Work.runs).map (Run.job []) ∧
      (∀ b ∈ done, Ends s registry c b.job e b.yield b.turns) ∧
      below.flatMap (·.yield.shown) = done.flatMap (·.yield.shown) := by
  induction works generalizing below with
  | nil =>
    obtain rfl := List.map_eq_nil_iff.mp hjobs
    exact ⟨[], rfl, by simp, rfl⟩
  | cons k works ih =>
    cases below with
    | nil => cases hjobs
    | cons b below =>
      obtain ⟨hjob, hjobs⟩ := List.cons.inj hjobs
      obtain ⟨hb, hrest⟩ := List.forall_mem_cons.mp hends
      obtain ⟨first, hfirst, hfends, hfshown⟩ := (hjob ▸ hb).runs
      obtain ⟨done, hdone, hdends, hdshown⟩ := ih hjobs hrest
      refine ⟨first ++ done, ?_, ?_, ?_⟩
      · rw [List.map_append, hfirst, hdone, List.flatMap_cons, List.map_append]
      · exact fun b hb => (List.mem_append.mp hb).elim (hfends b) (hdends b)
      · rw [List.flatMap_cons, hfshown, hdshown, List.flatMap_append]

/-- The places of runs that begin in an epoch are held for what they show. -/
def Promised (s : Setup F α) (registry : Registry F) (c : Clock) (held : Holding α) (e : Nat)
    (rs : List (Run F α)) : Prop :=
  ∀ r ∈ rs, ∃ y n, Ends s registry c (r.job []) e y n ∧ held r.place = some y.shown

namespace Promised

/-- Places that are held for runs show what the runs end with. -/
theorem shows {t : Tree α} (h : Promised s registry c held e rs)
    (hjobs : below.map Done.job = rs.map (Run.job []))
    (hends : ∀ b ∈ below, Ends s registry c b.job e b.yield b.turns) :
    t.Shows held (rs.map Run.place) (below.flatMap (·.yield.shown)) := by
  induction rs generalizing below with
  | nil =>
    obtain rfl := List.map_eq_nil_iff.mp hjobs
    exact .nil
  | cons r rs ih =>
    cases below with
    | nil => cases hjobs
    | cons b below =>
      obtain ⟨hjob, hjobs⟩ := List.cons.inj hjobs
      obtain ⟨hb, hrest⟩ := List.forall_mem_cons.mp hends
      obtain ⟨⟨y, n, hy, hheld⟩, h⟩ := List.forall_mem_cons.mp h
      rw [(hy.unique (hjob ▸ hb)).1] at hheld
      exact .held hheld (ih h hjobs hrest)

/-- Runs with places of their own may be promised what they end with. -/
theorem exists_holding (hinj : ∀ r ∈ rs, ∀ r' ∈ rs, r.place = r'.place → r = r')
    (hjobs : below.map Done.job = rs.map (Run.job []))
    (hends : ∀ b ∈ below, Ends s registry c b.job e b.yield b.turns) :
    ∃ held : Holding α, Promised s registry c held e rs ∧
      ∀ x, x ∉ rs.map Run.place → held x = none := by
  have hall : ∀ r, ∃ y : Yield α, r ∈ rs → ∃ n, Ends s registry c (r.job []) e y n := by
    intro r
    by_cases hr : r ∈ rs
    · obtain ⟨b, hb, hjob⟩ := List.mem_map.mp (hjobs ▸ List.mem_map_of_mem hr)
      exact ⟨b.yield, fun _ => ⟨b.turns, hjob ▸ hends b hb⟩⟩
    · exact ⟨⟨none, [], 0⟩, fun h => absurd h hr⟩
  choose y hy using hall
  refine ⟨fun x => (rs.find? (·.place = x)).map fun r => (y r).shown, fun r hr => ?_, fun x hx => ?_⟩
  · obtain ⟨n, hn⟩ := hy r hr
    refine ⟨y r, n, hn, ?_⟩
    cases hfind : rs.find? (·.place = r.place) with
    | none => exact absurd (List.find?_eq_none.mp hfind r hr) (by simp)
    | some r' =>
      have hplace : r'.place = r.place := by simpa using List.find?_some hfind
      have hsame := hinj r' (List.mem_of_find?_eq_some hfind) r hr hplace
      exact (congrArg (Option.map _) hfind).trans (hsame ▸ rfl)
  · refine Option.map_eq_none_iff.mpr (List.find?_eq_none.mpr fun r hr he => hx ?_)
    exact List.mem_map.mpr ⟨r, hr, of_decide_eq_true he⟩

end Promised

/-- The places of a piece of work are held for what it will show. -/
def Work.Due (s : Setup F α) (registry : Registry F) (c : Clock) (held : Holding α) (e : Nat)
    (y : Yield α) : Work F α → Prop
  | .run r => held r.place = some y.shown
  | .batch rs => Promised s registry c held e rs
  | .errands _ => True

theorem Work.Due.congr (h : k.Due s registry c held e y)
    (hsame : ∀ p ∈ k.places, held' p = held p) : k.Due s registry c held' e y := by
  cases k with
  | run r => exact (hsame _ List.mem_cons_self).trans h
  | batch rs =>
    intro r hr
    obtain ⟨y, n, hy, hheld⟩ := h r hr
    exact ⟨y, n, hy, (hsame _ (List.mem_map_of_mem hr)).trans hheld⟩
  | errands es => trivial

/-- What is promised to the runs of new work is what the work is due. -/
theorem Promised.due (h : Promised s registry c held e k.runs)
    (hends : Ends s registry c (k.job []) e y n) : k.Due s registry c held e y := by
  cases k with
  | run r =>
    obtain ⟨y', n', hy, hheld⟩ := h r List.mem_cons_self
    rw [(hy.unique hends).1] at hheld
    exact hheld
  | batch rs => exact h
  | errands es => trivial

namespace World

/-- What will come of those renderings begun in a container that are of interest: the forecast, and what
each of their places is held for. Either all tasks are of interest, or none that is yet to begin is unless
it works for another that is. -/
structure Prospect (s : Setup F α) (registry : Registry F) (c : Clock) (I : TaskId → Prop) (d : NodeId)
    (shown : List (Rose α)) (f : Forecast α) (held : Holding α) (w : World F α) : Prop where
  course : Course registry c w
  confined : Confined d w
  known : (∀ i, I i) ∨ ∀ i, I i → i < w.nextTask
  foreseen : ∀ t ∈ w.tasks, t.IsOf I → Foreseen s registry c f w t
  only : ∀ {x}, held x ≠ none → ∃ t ∈ w.tasks, x ∈ t.work.places
  others : ∀ {t p}, t ∈ w.tasks → ¬t.IsOf I → p ∈ t.work.places → held p = none
  due : ∀ {t}, t ∈ w.tasks → t.IsOf I → t.work.Due s registry c held (f.since t.id) (f.due t.id)
  drafts : ∀ {t o}, t ∈ w.tasks → t.IsOf I → t.work.output? = some o →
    w.scene.tree.Shows held [o] (f.draft t.id)
  shows : w.scene.tree.Shows held [d] shown

/-- No task without interest gives up a place in the container. -/
def Defers (s : Setup F α) (I : TaskId → Prop) (d : NodeId) (w : World F α) (a : Act F α) : Prop :=
  ∀ t ∈ w.tasks, ¬t.IsOf I → ∀ p ∈ t.work.places, w.scene.tree.parent? p = some d →
    ∀ w', w.act s a = some w' → ∃ u ∈ w'.tasks, u.id = t.id


variable {w w' : World F α} {t u : Task F α} {r r' : Run F α} {a : Act F α} {d o x : NodeId}
  {f : Forecast α} {shown : List (Rose α)} {work : Work F α} {I : TaskId → Prop}

theorem Defers.of_all (hI : ∀ i, I i) (w : World F α) (a : Act F α) : Defers s I d w a :=
  fun t _ hnot => absurd (.of_all hI t) hnot

/-- An output is younger than the places that its task holds. -/
theorem Sound.place_lt_output (h : Sound w) (ht : t ∈ w.tasks) (ho : t.work.output? = some o)
    (hp : x ∈ t.work.places) : x < o := by
  obtain ⟨r, hwork, hr⟩ := Work.run_of_output ho
  rw [hwork] at hp
  rw [List.mem_singleton.mp hp]
  exact h.younger ht hwork hr

/-- A place tells its run. -/
theorem Sound.place_inj (h : Sound w) (ht : t ∈ w.tasks) (hu : u ∈ w.tasks) (hr : r ∈ t.work.runs)
    (hr' : r' ∈ u.work.runs) (hp : r.place = r'.place) : r = r' := by
  have hmem : ∀ {v : Task F α} {r}, r ∈ v.work.runs → r.place ∈ v.work.places := by
    intro v r hr
    rw [Work.places_eq]
    exact List.mem_map_of_mem hr
  obtain rfl := h.held_one ht hu (mem_holds_of_place (hmem hr))
    (mem_holds_of_place (hp ▸ hmem hr'))
  have hnodup := (List.nodup_append.mp (h.held_once ht)).1
  rw [Work.places_eq] at hnodup
  exact List.inj_on_of_nodup_map hnodup hr hr' hp

namespace Prospect

variable (h : Prospect s registry c I d shown f held w)
include h

theorem held_of_ge (hx : w.scene.tree.next ≤ x) : held x = none := by
  refine Classical.byContradiction fun hne => ?_
  obtain ⟨t, ht, hp⟩ := h.only hne
  exact Nat.not_lt.mpr hx (h.course.orderly.sound.place_lt ht hp)

theorem held_of_output (ht : t ∈ w.tasks) (ho : t.work.output? = some o) : held o = none := by
  refine Classical.byContradiction fun hne => ?_
  obtain ⟨u, hu, hp⟩ := h.only hne
  exact h.course.orderly.sound.place_not_output ht hu hp ho

theorem apart (ht : t ∈ w.tasks) (ho : t.work.output? = some o) : ¬w.scene.tree.Under o d := fun hu =>
  Nat.not_lt.mpr (h.course.orderly.sound.linked.le_of_under hu)
    (h.confined.young ht (mem_holds_of_output ho))

/-- When all that is of interest is done, the container shows what was to come. -/
theorem subtree (hdone : ∀ t ∈ w.tasks, ¬t.IsOf I) : (w.scene.tree.subtree? d).toList = shown := by
  have hnone : held = Tree.noneHeld := by
    funext x
    refine Classical.byContradiction fun hne => ?_
    obtain ⟨t, ht, hp⟩ := h.only hne
    exact hne (h.others ht (hdone t ht) hp)
  exact Tree.subtree?_of_shows (hnone ▸ h.shows) h.course.orderly.sound.linked

/-- New places may be held for what will be put there. -/
theorem exists_holding {draw : List (Rose α) → List (Rose α) → List (Rose α)} {w' : World F α}
    (hsound : Sound w') (ht : t ∈ w.tasks) (hof : t.IsOf I) (hc : w.hasChildren t.id = false)
    (hm : Moved w t work works w') (hdraws : Draws w.scene w'.scene t.work work works draw)
    (hjobs : below.map Done.job = (works.flatMap Work.runs).map (Run.job []))
    (hends : ∀ b ∈ below, Ends s registry c b.job (c.epoch w.opened) b.yield b.turns) :
    ∃ held' : Holding α, (∀ x < w.scene.tree.next, held' x = held x) ∧
      Promised s registry c held' (c.epoch w.opened) (works.flatMap Work.runs) ∧
      ∀ x, held' x ≠ none → held x ≠ none ∨ x ∈ works.flatMap Work.places := by
  have hr := h.course.orderly.sound.roster
  have hsame : ∀ x < w.scene.tree.next, held x = held x := fun _ _ => rfl
  cases hdraws with
  | keeps tree output same hworks =>
    refine ⟨held, hsame, ?_, fun x hx => .inl hx⟩
    rcases hworks with rfl | ⟨rs, hwork, rfl⟩
    · simp [Promised]
    · have hdue := h.due ht hof
      rw [hwork, (h.foreseen t ht hof).since_of_alone hc] at hdue
      rw [Work.flatMap_runs]
      exact hdue
  | begins v tree fresh output draws alone =>
    subst alone
    exact ⟨held, hsame, by simp [Promised], fun x hx => .inl hx⟩
  | marks o f before after tree draws alone =>
    subst alone
    exact ⟨held, hsame, by simp [Promised], fun x hx => .inl hx⟩
  | grows o ids extra before after grown items kids places adds draws =>
    have hinj : ∀ r ∈ works.flatMap Work.runs, ∀ r' ∈ works.flatMap Work.runs,
        r.place = r'.place → r = r' := by
      have htask : ∀ r ∈ works.flatMap Work.runs, ∃ u ∈ w'.tasks, r ∈ u.work.runs := by
        intro r hrun
        obtain ⟨k, hk, hrun⟩ := List.mem_flatMap.mp hrun
        obtain ⟨i, hi⟩ := List.mem_iff_getElem?.mp hk
        obtain ⟨u, hu, _, _, rfl⟩ := hm.exists_new hr ht hi
        exact ⟨u, hu, hrun⟩
      intro r hrun r' hrun' hp
      obtain ⟨u, hu, hur⟩ := htask r hrun
      obtain ⟨u', hu', hur'⟩ := htask r' hrun'
      exact hsound.place_inj hu hu' hur hur' hp
    obtain ⟨new, hnew, hnone⟩ := Promised.exists_holding hinj hjobs hends
    refine ⟨fun x => if x < w.scene.tree.next then held x else new x, fun x hx => if_pos hx, ?_, ?_⟩
    · intro r hrun
      obtain ⟨y, n, hy, hheld⟩ := hnew r hrun
      have hge : w.scene.tree.next ≤ r.place := by
        refine (places r.place ?_).1
        rw [Work.flatMap_places]
        exact List.mem_map_of_mem hrun
      exact ⟨y, n, hy, (if_neg (Nat.not_lt.mpr hge)).trans hheld⟩
    · intro x hx
      by_cases hlt : x < w.scene.tree.next
      · exact .inl fun hnone => hx ((if_pos hlt).trans hnone)
      · refine .inr (Classical.byContradiction fun hm => hx ((if_neg hlt).trans (hnone x ?_)))
        rw [← Work.flatMap_places]
        exact hm

/-- What the container shows stays the same when a task goes on. -/
theorem shows_goes {draw : List (Rose α) → List (Rose α) → List (Rose α)} (ht : t ∈ w.tasks)
    (hdraws : Draws w.scene w'.scene t.work work works draw)
    (hsame : ∀ x < w.scene.tree.next, held' x = held x) : w'.scene.tree.Shows held' [d] shown := by
  have hsound := h.course.orderly.sound
  refine hdraws.shows_other hsound.linked (fun o x ho => hsound.apart ht ho) h.shows (fun x hx => ?_)
    hsame
  obtain rfl := List.mem_singleton.mp hx
  exact ⟨h.confined.given, fun ho => Nat.lt_irrefl _ (h.confined.young ht (mem_holds_of_output ho))⟩

variable [LawfulMedium α]

/-- A task goes on. -/
theorem goes {draw : List (Rose α) → List (Rose α) → List (Rose α)}
    (hact : w.act s (.step t.id) = some w') (ht : t ∈ w.tasks) (hof : t.IsOf I)
    (hc : w.hasChildren t.id = false)
    (turn : ∀ draft, (t.work.job draft).turn s w.registry w.opened =
      some (.goes (fun shown => work.job (draw draft shown)) (works.map (Work.job []))))
    (hm : Moved w t work works w') (hdraws : Draws w.scene w'.scene t.work work works draw)
    (hcarries : Carries t.work work works) (hhouse : SameHouse w w') :
    ∃ f' held', Prospect s registry c I d shown f' held' w' ∧
      w.turnsLeft f = 1 + w'.turnsLeft f' ∧ ∀ i < w.nextTask, f'.due i = f.due i := by
  have hsound := h.course.orderly.sound
  have hr := hsound.roster
  have hlt := hr.id_lt ht
  have hcourse := h.course.act (a := .step t.id) trivial hact
  have hopened := hhouse.opened
  rw [h.course.registry] at turn
  obtain ⟨below, last, n, hjobs, hends, hturns, hforeseen⟩ :=
    Foreseen.goes h.course hc h.foreseen ht hof hm hopened turn
  obtain ⟨done, hdone, hdends, hshown⟩ := runs_of_below hjobs hends
  obtain ⟨held', hsame, hpromised, honly⟩ :=
    h.exists_holding hcourse.orderly.sound ht hof hc hm hdraws hdone hdends
  have hlength : below.length = works.length := by simpa using congrArg List.length hjobs
  have hnew : ∀ x, w.scene.tree.next ≤ x → x ∉ works.flatMap Work.places → held' x = none := by
    refine fun x hx hnot => Classical.byContradiction fun hne => ?_
    rcases honly x hne with hheld | hm
    · exact hheld (h.held_of_ge hx)
    · exact hnot hm
  have hplaces : w'.scene.tree.Shows held' (works.flatMap Work.places)
      (below.flatMap (·.yield.shown)) := by
    rw [Work.flatMap_places, hshown]
    exact hpromised.shows hdone hdends
  have hapart : ∀ o x, t.work.output? = some o → o ∉ w.scene.tree.children x :=
    fun o x ho => hsound.apart ht ho
  have hold : ∀ {u p}, u ∈ w.tasks → p ∈ u.work.places → held' p = held p :=
    fun hu hp => hsame _ (hsound.place_lt hu hp)
  generalize below.flatMap (·.yield.shown) = forest at hforeseen hplaces
  refine ⟨f.goes t.id w.nextTask (c.epoch w.opened) last n (draw (f.draft t.id) forest) below, held',
    ?_, turnsLeft_went hm hr ht hlength hturns, fun i hi => Forecast.goes_due hi⟩
  constructor
  case course => exact hcourse
  case confined => exact h.confined.act h.course (a := .step t.id) trivial hact
  case known =>
    exact h.known.imp_right fun hknown i hi => hm.next ▸ Nat.lt_add_right _ (hknown i hi)
  case foreseen => exact hforeseen
  case only =>
    intro x hx
    refine hm.holds hr ht (fun p hp => ?_) ((honly x hx).imp h.only List.mem_flatMap.mp)
    rcases hcarries.kind with ⟨r, phase, hwork, rfl⟩ | ⟨rs, hwork, _, rfl⟩
    · rw [hwork] at hp
      exact .inl hp
    · rw [hwork] at hp
      exact .inr (List.mem_flatMap.mp (places_runs rs ▸ hp))
  case others =>
    intro u p hu hnot hp
    rcases (hm.mem hr ht).mp hu with ⟨hu, _⟩ | rfl | hu
    · exact (hold hu hp).trans (h.others hu hnot hp)
    · exact absurd (hof.congr rfl rfl) hnot
    · obtain ⟨_, _, _, howners, _⟩ := mem_number.mp hu
      exact absurd (hof.below howners) hnot
  case due =>
    intro u hu huof
    rcases (hm.mem hr ht).mp hu with ⟨hu, hid⟩ | rfl | hu
    · obtain ⟨hdue, _, hsince, _⟩ := Forecast.goes_other (f := f) (hr.id_lt hu) hid
      rw [hdue, hsince]
      exact (h.due hu huof).congr fun p hp => hold hu hp
    · obtain ⟨hdue, _, _, _⟩ := Forecast.goes_own (f := f) hlt
      rw [hdue]
      have hown := h.due ht hof
      rcases hcarries.kind with ⟨r, phase, hwork, rfl⟩ | ⟨rs, _, rfl, _⟩
      · rw [hwork] at hown
        exact (hold ht (by rw [hwork]; exact List.mem_cons_self)).trans hown
      · simp [Work.Due, Promised]
    · obtain ⟨i, hi, hid, _⟩ := mem_number.mp hu
      obtain ⟨b, hb, hjob⟩ := Done.of_works hjobs hi
      obtain ⟨hdue, _, hsince, _⟩ := Forecast.goes_new (f := f) hlt hb
      rw [hid, hdue, hsince]
      have hk := List.mem_of_getElem? hi
      exact Promised.due (fun r hrun => hpromised r (List.mem_flatMap.mpr ⟨_, hk, hrun⟩))
        (hjob ▸ hends b (List.mem_of_getElem? hb))
  case drafts =>
    intro u o hu huof ho
    rcases (hm.mem hr ht).mp hu with ⟨hu, hid⟩ | rfl | hu
    · rw [(Forecast.goes_other (f := f) (hr.id_lt hu) hid).2.2.2]
      refine hdraws.shows_other hsound.linked hapart (h.drafts hu huof ho) (fun x hx => ?_) hsame
      obtain rfl := List.mem_singleton.mp hx
      refine ⟨hsound.output_lt hu ho, fun hto => hid ?_⟩
      rw [hsound.output_inj hu ht ho hto]
    · rw [(Forecast.goes_own (f := f) hlt).2.2.2]
      exact hdraws.shows_own hsound.linked (fun o ho => hsound.output_lt ht ho) hapart
        (fun o ho => h.drafts ht hof ho) (fun o ho => h.held_of_output ht ho) hsame hnew hplaces ho
    · obtain ⟨i, hi, _⟩ := mem_number.mp hu
      rw [(hcarries.fresh _ (List.mem_of_getElem? hi)).1] at ho
      cases ho
  case shows => exact h.shows_goes ht hdraws hsame

/-- A task without interest goes on. -/
theorem goes_other {draw : List (Rose α) → List (Rose α) → List (Rose α)}
    (hact : w.act s (.step t.id) = some w') (ht : t ∈ w.tasks) (hnot : ¬t.IsOf I)
    (hm : Moved w t work works w') (hdraws : Draws w.scene w'.scene t.work work works draw)
    (hcarries : Carries t.work work works) (hhouse : SameHouse w w') :
    Prospect s registry c I d shown f held w' := by
  have hsound := h.course.orderly.sound
  have hr := hsound.roster
  have hknown := h.known.resolve_left fun hall => hnot (.of_all hall t)
  have hback : ∀ {u}, u ∈ w'.tasks → u.IsOf I → u ∈ w.tasks ∧ u.id ≠ t.id :=
    fun hu hof => mem_of_other hm hr ht hnot hknown hu hof
  constructor
  case course => exact h.course.act (a := .step t.id) trivial hact
  case confined => exact h.confined.act h.course (a := .step t.id) trivial hact
  case known => exact .inr fun i hi => hm.next ▸ Nat.lt_add_right _ (hknown i hi)
  case foreseen => exact Foreseen.other hm hr ht hhouse.opened h.foreseen hnot hknown
  case only =>
    intro x hx
    obtain ⟨u, hu, hp⟩ := h.only hx
    have hid : u.id ≠ t.id := fun hid => hx (h.others hu (hr.id_inj hu ht hid ▸ hnot) hp)
    exact ⟨u, (hm.mem hr ht).mpr (.inl ⟨hu, hid⟩), hp⟩
  case others =>
    intro u p hu huof hp
    rcases (hm.mem hr ht).mp hu with ⟨hu, _⟩ | rfl | hu
    · exact h.others hu huof hp
    · exact h.others ht hnot (hcarries.places hp)
    · obtain ⟨i, hi, _⟩ := mem_number.mp hu
      have hnew := List.mem_flatMap.mpr ⟨_, List.mem_of_getElem? hi, hp⟩
      exact (hdraws.new_places hnew).elim (h.others ht hnot) fun hnew => h.held_of_ge hnew.1
  case due => exact fun hu hof => h.due (hback hu hof).1 hof
  case drafts =>
    intro u o hu hof ho
    obtain ⟨hu, hid⟩ := hback hu hof
    refine hdraws.shows_other hsound.linked (fun o x ho => hsound.apart ht ho) (h.drafts hu hof ho)
      (fun x hx => ?_) fun _ _ => rfl
    obtain rfl := List.mem_singleton.mp hx
    exact ⟨hsound.output_lt hu ho, fun hto => hid (hsound.output_inj hu ht ho hto ▸ rfl)⟩
  case shows => exact h.shows_goes ht hdraws fun _ _ => rfl

/-- A task ends. -/
theorem ends {outcome : Option Outcome} {left : List (Rose α) → List (Rose α)}
    (hact : w.act s (.step t.id) = some w') (ht : t ∈ w.tasks) (hof : t.IsOf I)
    (hc : w.hasChildren t.id = false)
    (turn : ∀ draft, (t.work.job draft).turn s w.registry w.opened =
      some (.ends outcome (left draft)))
    (htasks : w'.tasks = w.tasks.filter (·.id != t.id)) (hnext : w'.nextTask = w.nextTask)
    (hleaves : Leaves s w.scene w'.scene t.work left) (hhouse : SameHouse w w') :
    ∃ held', Prospect s registry c I d shown f held' w' ∧ w.turnsLeft f = 1 + w'.turnsLeft f := by
  have hsound := h.course.orderly.sound
  have hopened := hhouse.opened
  rw [h.course.registry] at turn
  obtain ⟨hdue, hturns⟩ := (h.foreseen t ht hof).ended h.course hc turn
  have hout : ∀ o, t.work.output? = some o → w.scene.tree.parent? o = none ∧
      o < w.scene.tree.next ∧ (∀ x, o ∉ w.scene.tree.children x) ∧ held o = none ∧
      w.scene.tree.Shows held [o] (f.draft t.id) ∧ ∀ p ∈ t.work.places, p < o := by
    intro o ho
    refine ⟨hsound.output_root ht ho, hsound.output_lt ht ho, fun y => hsound.apart ht ho,
      h.held_of_output ht ho, h.drafts ht hof ho, fun p hp => hsound.place_lt_output ht ho hp⟩
  have hshows : ∀ {x g}, w.scene.tree.Shows held [x] g → x < w.scene.tree.next →
      x ∉ t.work.places → (∀ o, t.work.output? = some o → ¬w.scene.tree.Under o x) →
      w'.scene.tree.Shows (held.without t.work.places) [x] g := by
    intro x g hg hlt hplace happart
    refine hleaves.shows hsound.linked hg (fun y hy => ?_) (fun p hp => h.confined.bare ht hp) hout
      (fun y hy => h.held_of_ge hy) fun r hwork => ?_
    · rw [List.mem_singleton.mp hy]
      exact ⟨hlt, hplace, happart⟩
    · have hown := h.due ht hof
      rw [hwork, hdue] at hown
      exact hown
  refine ⟨held.without t.work.places, ?_, by rw [turnsLeft_dropped htasks ht, hturns]⟩
  constructor
  case course => exact h.course.act (a := .step t.id) trivial hact
  case confined => exact h.confined.act h.course (a := .step t.id) trivial hact
  case known => exact hnext ▸ h.known
  case foreseen =>
    exact Foreseen.left h.foreseen hsound.roster ht (fun _ => by rw [hdue]) htasks hopened
  case only =>
    intro x hx
    have hnot : x ∉ t.work.places := fun hm => hx (if_pos hm)
    exact Holds.dropped (h.only fun hnone => hx ((if_neg hnot).trans hnone)) hsound.roster ht htasks
      hnot
  case others =>
    intro u p hu hnot hp
    have hnone := h.others (mem_of_dropped htasks hu).1 hnot hp
    unfold Holding.without
    rw [hnone, ite_self]
  case due =>
    intro u hu huof
    obtain ⟨hu, hne⟩ := mem_of_dropped htasks hu
    refine (h.due hu huof).congr fun p hp => if_neg fun hm => hne ?_
    exact hsound.held_one ht hu (mem_holds_of_place hm) (mem_holds_of_place hp)
  case drafts =>
    intro u o hu huof ho
    obtain ⟨hu, hne⟩ := mem_of_dropped htasks hu
    refine hshows (h.drafts hu huof ho) (hsound.output_lt hu ho)
      (fun hm => hsound.place_not_output hu ht hm ho) fun o' ho' hunder => hne ?_
    obtain rfl := hunder.eq_of_no_parent (hsound.output_root hu ho)
    exact hsound.output_inj ht hu ho' ho
  case shows =>
    refine hshows h.shows h.confined.given (fun hm => ?_) fun o ho => h.apart ht ho
    exact Nat.lt_irrefl _ (h.confined.young ht (mem_holds_of_place hm))

omit [LawfulMedium α] in
/-- The place of a task that is not in the container stands under no node that a task of interest works
on, unless that task waits for this one. -/
theorem place_apart (ht : t ∈ w.tasks) (hnot : ¬t.IsOf I) (hu : u ∈ w.tasks) (hof : u.IsOf I)
    (ho : u.work.output? = some o) (hp : x ∈ t.work.places) : ¬w.scene.tree.Under o x := by
  have hsound := h.course.orderly.sound
  intro hunder
  rcases hunder.cases_parent with rfl | ⟨q, hq, hoq⟩
  · exact hsound.place_not_output hu ht hp ho
  · rcases h.confined.home ht hp hq with rfl | ⟨v, hv, hvo⟩
    · exact h.apart hu ho hoq
    · obtain rfl := hoq.eq_of_no_parent (hsound.output_root hv hvo)
      have hin := h.course.orderly.nested ht hu ho hp hq
      exact hnot (.of_owner hsound.roster hu ht hof hin)

/-- A task without interest ends that has no place in the container. -/
theorem ends_other {left : List (Rose α) → List (Rose α)} (hact : w.act s (.step t.id) = some w')
    (ht : t ∈ w.tasks) (hnot : ¬t.IsOf I) (htasks : w'.tasks = w.tasks.filter (·.id != t.id))
    (hnext : w'.nextTask = w.nextTask) (hleaves : Leaves s w.scene w'.scene t.work left)
    (hhouse : SameHouse w w') (hdefers : ∀ p ∈ t.work.places, w.scene.tree.parent? p ≠ some d) :
    Prospect s registry c I d shown f held w' := by
  have hsound := h.course.orderly.sound
  have hr := hsound.roster
  have hshows : ∀ {x g}, w.scene.tree.Shows held [x] g → x < w.scene.tree.next →
      (∀ p ∈ t.work.places, ¬w.scene.tree.Under x p) →
      (∀ o, t.work.output? = some o → ¬w.scene.tree.Under o x) →
      w'.scene.tree.Shows held [x] g := by
    intro x g hg hlt hplace hout
    refine hleaves.shows_apart hsound.linked hg (fun y hy => ?_) (fun p hp => ?_) (fun o ho => ?_)
      fun y hy => h.held_of_ge hy
    · rw [List.mem_singleton.mp hy]
      exact ⟨hlt, hplace, hout⟩
    · exact ⟨(h.confined.bare ht hp).1, (h.confined.bare ht hp).2, h.others ht hnot hp⟩
    · exact ⟨hsound.output_root ht ho, hsound.output_lt ht ho, fun y => hsound.apart ht ho,
        h.held_of_output ht ho, fun p hp => hsound.place_lt_output ht ho hp⟩
  constructor
  case course => exact h.course.act (a := .step t.id) trivial hact
  case confined => exact h.confined.act h.course (a := .step t.id) trivial hact
  case known => exact hnext ▸ h.known
  case foreseen =>
    exact Foreseen.left h.foreseen hr ht (fun hof => absurd hof hnot) htasks hhouse.opened
  case only =>
    exact fun hx => Holds.dropped (h.only hx) hr ht htasks fun hp => hx (h.others ht hnot hp)
  case others => exact fun hu hnot hp => h.others (mem_of_dropped htasks hu).1 hnot hp
  case due => exact fun hu hof => h.due (mem_of_dropped htasks hu).1 hof
  case drafts =>
    intro u o hu hof ho
    obtain ⟨hu, hne⟩ := mem_of_dropped htasks hu
    refine hshows (h.drafts hu hof ho) (hsound.output_lt hu ho)
      (fun p hp => h.place_apart ht hnot hu hof ho hp) fun o' ho' hunder => hne ?_
    obtain rfl := hunder.eq_of_no_parent (hsound.output_root hu ho)
    exact hsound.output_inj ht hu ho' ho
  case shows =>
    refine hshows h.shows h.confined.given (fun p hp hunder => ?_) fun o ho => h.apart ht ho
    rcases hunder.cases_parent with rfl | ⟨q, hq, hdq⟩
    · exact Nat.lt_irrefl _ (h.confined.young ht (mem_holds_of_place hp))
    · rcases h.confined.home ht hp hq with rfl | ⟨v, hv, hvo⟩
      · exact hdefers p hp hq
      · obtain rfl := hdq.eq_of_no_parent (hsound.output_root hv hvo)
        exact Nat.lt_irrefl _ (h.confined.young hv (mem_holds_of_output hvo))

omit [LawfulMedium α] in
/-- Nothing happens to nodes and tasks. -/
theorem stays {f' : Forecast α} (hs : Stays w w') (hcourse : Course registry c w')
    (hconfined : Confined d w')
    (hforeseen : ∀ t ∈ w'.tasks, t.IsOf I → Foreseen s registry c f' w' t)
    (hdue : f'.due = f.due) (hdraft : f'.draft = f.draft)
    (hsince : ∀ t ∈ w.tasks, t.IsOf I → ∀ r rs, t.work = .batch (r :: rs) →
      f'.since t.id = f.since t.id) : Prospect s registry c I d shown f' held w' where
  course := hcourse
  confined := hconfined
  known := hs.next ▸ h.known
  foreseen := hforeseen
  only hx := by
    obtain ⟨t, ht, hp⟩ := h.only hx
    exact ⟨t, (hs.mem t).mpr ht, hp⟩
  others hu hnot hp := h.others ((hs.mem _).mp hu) hnot hp
  due := by
    intro t ht hof
    have ht := (hs.mem t).mp ht
    have hown := h.due ht hof
    rw [hdue]
    cases hwork : t.work with
    | run r =>
      rw [hwork] at hown
      exact hown
    | errands es => trivial
    | batch rs =>
      cases rs with
      | nil => simp [Work.Due, Promised]
      | cons r rs =>
        rw [hsince t ht hof r rs hwork]
        rw [hwork] at hown
        exact hown
  drafts ht hof ho := by
    rw [hs.scene, hdraft]
    exact h.drafts ((hs.mem _).mp ht) hof ho
  shows := hs.scene ▸ h.shows

/-- Whatever is carried on, what is to come stays the same; if all tasks are of interest, with one turn
less to go after a step. -/
theorem act (ha : a.Keeps s c w) (hact : w.act s a = some w') (hdefers : Defers s I d w a) :
    ∃ f' held', Prospect s registry c I d shown f' held' w' ∧
      ((∀ i, I i) → w.turnsLeft f = (if a.isStep then 1 else 0) + w'.turnsLeft f') ∧
      ∀ i < w.nextTask, f'.due i = f.due i := by
  have hcourse := h.course.act ha hact
  have hconfined := h.confined.act h.course ha hact
  cases h.course.proceeds ha hact with
  | @steps t mem alone works =>
    by_cases hof : t.IsOf I
    · cases works with
      | goes work works draw turn moved draws carries house =>
        obtain ⟨f', held', hp, hturns, hdue⟩ :=
          h.goes hact mem hof alone turn moved draws carries house
        exact ⟨f', held', hp, fun _ => hturns, hdue⟩
      | ends outcome left turn tasks next outcomes finished leaves house =>
        obtain ⟨held', hp, hturns⟩ := h.ends hact mem hof alone turn tasks next leaves house
        exact ⟨f, held', hp, fun _ => hturns, fun _ _ => rfl⟩
    · have hnone : (∀ i, I i) → False := fun hall => hof (.of_all hall t)
      refine ⟨f, held, ?_, fun hall => (hnone hall).elim, fun _ _ => rfl⟩
      cases works with
      | goes work works draw turn moved draws carries house =>
        exact h.goes_other hact mem hof moved draws carries house
      | ends outcome left turn tasks next outcomes finished leaves house =>
        refine h.ends_other hact mem hof tasks next leaves house fun p hp hparent => ?_
        obtain ⟨u, hu, hid⟩ := hdefers t mem hof p hp hparent w' hact
        rw [tasks] at hu
        exact bne_iff_ne.mp (List.mem_filter.mp hu).2 hid
  | stays other stays registry fits epoch =>
    rw [other]
    refine ⟨f, held, h.stays stays hcourse hconfined (Foreseen.stays h.foreseen stays epoch) rfl rfl
      fun _ _ _ _ _ _ => rfl, fun _ => ?_, fun _ _ => rfl⟩
    rw [turnsLeft_stays stays f f rfl]
    exact (Nat.zero_add _).symm
  | opens other stays registry fits stalled epoch told =>
    rw [other]
    refine ⟨_, held, h.stays stays hcourse hconfined
      (Foreseen.opened h.course stays stalled epoch told h.foreseen) rfl rfl
      fun t ht hof r rs hwork => ?_, fun _ => ?_, fun _ _ => rfl⟩
    · -- A batch that has runs to start is not held up.
      cases hc : w.hasChildren t.id with
      | true =>
        have hge := since_of_stalled h.course stalled told h.foreseen ht hof hc
        exact Nat.max_eq_left (epoch ▸ hge)
      | false =>
        have hnone := turn_of_stalled h.course stalled told ht hc [] _ h.course.fits
        rw [hwork] at hnone
        cases hnone
    · exact (turnsLeft_stays stays f _ rfl).symm.trans (Nat.zero_add _).symm

end Prospect

/-! What a call answers with. -/

/-- Each of these tasks is under way or has ended with the outcome that is due, and the call is done once
it is under way no more. -/
structure Answers (call : TaskId) (ids : List TaskId) (due : TaskId → Yield α) (w : World F α) :
    Prop where
  known : ∀ i ∈ ids, i < w.nextTask
  outcome : ∀ i ∈ ids, (∃ t ∈ w.tasks, t.id = i) ∨ w.outcomeOf? i = (due i).outcome
  done : (∃ t ∈ w.tasks, t.id = call ∧ t.work = .errands []) ∨ call ∈ w.finished

variable {call : TaskId} {ids : List TaskId} {due : TaskId → Yield α}

theorem Answers.mono {ids' : List TaskId} (h : Answers call ids due w) (hsub : ∀ i ∈ ids', i ∈ ids) :
    Answers call ids' due w :=
  ⟨fun i hi => h.known i (hsub i hi), fun i hi => h.outcome i (hsub i hi), h.done⟩

/-- Outcomes come as they are due. -/
theorem Answers.act (h : Answers call ids due w) (hp : Prospect s registry c I d shown f held w)
    (hids : ∀ i ∈ ids, I i) (hdue : ∀ i ∈ ids, f.due i = due i) (ha : a.Keeps s c w) (hact : w.act s a = some w') :
    Answers call ids due w' := by
  have hr := hp.course.orderly.sound.roster
  have hsame : Stays w w' → Answers call ids due w' := by
    intro hs
    refine ⟨fun i hi => hs.next ▸ h.known i hi, fun i hi => ?_, ?_⟩
    · rw [outcomeOf?, hs.outcomes]
      simp only [hs.mem]
      exact h.outcome i hi
    · rw [hs.finished]
      simp only [hs.mem]
      exact h.done
  cases hp.course.proceeds ha hact with
  | stays other stays registry fits epoch => exact hsame stays
  | opens other stays registry fits stalled epoch told => exact hsame stays
  | @steps t ht alone works =>
    cases works with
    | goes work works draw turn moved draws carries house =>
      refine ⟨fun i hi => ?_, fun i hi => ?_, ?_⟩
      · rw [moved.next]
        exact Nat.lt_add_right _ (h.known i hi)
      · rw [outcomeOf?, moved.outcomes]
        exact (h.outcome i hi).imp_left fun hm => (mem_ids_of_moved moved hr ht).mpr (.inl hm)
      · rw [moved.finished]
        refine h.done.imp_left ?_
        rintro ⟨u, hu, hid, hwork⟩
        refine ⟨u, (moved.mem hr ht).mpr (.inl ⟨hu, fun hut => ?_⟩), hid, hwork⟩
        rw [hr.id_inj hu ht hut] at hwork
        rcases carries.kind with ⟨r, _, hrun, _⟩ | ⟨rs, hbatch, _⟩
        · rw [hrun] at hwork
          cases hwork
        · rw [hbatch] at hwork
          cases hwork
    | ends outcome left turn tasks next outcomes finished leaves house =>
      have hmem : ∀ {u}, u ∈ w'.tasks ↔ u ∈ w.tasks ∧ u.id ≠ t.id := by
        simp [tasks, List.mem_filter]
      refine ⟨fun i hi => next ▸ h.known i hi, fun i hi => ?_, ?_⟩
      · by_cases hid : i = t.id
        · subst hid
          rw [hp.course.registry] at turn
          have hof : t.IsOf I := ⟨_, hids _ hi, Task.isWithin_iff.mpr (.inl rfl)⟩
          have hown := ((hp.foreseen t ht hof).ended hp.course alone turn).1
          rw [hdue _ hi] at hown
          rw [outcomeOf?, outcomes, hown]
          refine .inr ?_
          cases outcome with
          | none =>
            refine Option.eq_none_iff_forall_ne_some.mpr fun o ho => ?_
            exact (hr.settled ho).2 t ht rfl
          | some o => exact (Table.get?_insert ..).trans (if_pos rfl)
        · have hkept : w'.outcomes.get? i = w.outcomes.get? i := by
            rw [outcomes]
            cases outcome with
            | none => rfl
            | some o => exact (Table.get?_insert ..).trans (if_neg hid)
          rw [outcomeOf?, hkept]
          refine (h.outcome i hi).imp_left ?_
          rintro ⟨u, hu, rfl⟩
          exact ⟨u, hmem.mpr ⟨hu, hid⟩, rfl⟩
      · rw [finished]
        rcases h.done with ⟨u, hu, rfl, hwork⟩ | hdone
        · by_cases hid : u.id = t.id
          · rw [hr.id_inj hu ht hid] at hwork ⊢
            rw [hwork]
            exact .inr List.mem_cons_self
          · exact .inl ⟨u, hmem.mpr ⟨hu, hid⟩, rfl, hwork⟩
        · refine .inr ?_
          split
          · exact List.mem_cons_of_mem _ hdone
          · exact hdone

/-- How many of these acts carried a task on. -/
def steps (es : List (World F α × Act F α)) : Nat :=
  es.countP (·.2.isStep)

/-- What is to come in a world comes to be in every history from there. -/
theorem Prospect.history [LawfulMedium α] {v : World F α} {es : List (World F α × Act F α)}
    (hv : Prospect s registry c I d shown f held v) (hids : ∀ i ∈ ids, I i)
    (hans : Answers call ids f.due v)
    (h : History s (fun v a => a.Keeps s c v ∧ Defers s I d v a) v es w) : ∃ f' held',
      Prospect s registry c I d shown f' held' w ∧ Answers call ids f.due w ∧
        ((∀ i, I i) → v.turnsLeft f = steps es + w.turnsLeft f') := by
  have hall : ∃ f' held', Prospect s registry c I d shown f' held' w ∧ Answers call ids f.due w ∧
      ((∀ i, I i) → v.turnsLeft f = steps es + w.turnsLeft f') ∧
      ∀ i ∈ ids, f'.due i = f.due i := by
    refine h.invariant_past (I := fun es w => ∃ f' held',
      Prospect s registry c I d shown f' held' w ∧ Answers call ids f.due w ∧
        ((∀ i, I i) → v.turnsLeft f = steps es + w.turnsLeft f') ∧ ∀ i ∈ ids, f'.due i = f.due i)
      ⟨f, held, hv, hans, fun _ => (Nat.zero_add _).symm, fun _ _ => rfl⟩ ?_
    rintro es u a u' ⟨f', held', hu, hans, hturns, hdue⟩ ⟨ha, hdefers⟩ hact
    obtain ⟨f₂, held₂, hu', hleft, hkept⟩ := hu.act ha hact hdefers
    refine ⟨f₂, held₂, hu', hans.act hu hids hdue ha hact, fun hall => ?_, fun i hi => ?_⟩
    · have hstep : steps (es ++ [(u, a)]) = steps es + if a.isStep then 1 else 0 := by
        simp [steps, List.countP_append, List.countP_cons]
      rw [hturns hall, hleft hall, hstep, Nat.add_assoc]
    · exact (hkept i (hans.known i hi)).trans (hdue i hi)
  obtain ⟨f', held', hw, hans, hturns, _⟩ := hall
  exact ⟨f', held', hw, hans, hturns⟩

end World

end Montage
