import Montage.Proofs.Render.Hindsight
import Montage.Proofs.Render.Prospects

/-!
What a call to render comes to. Main statements: a schedule that comes to an end tells what each config
ends with, and what the configs end with tells the outcomes and the output of every schedule.
-/

namespace Montage

open Json (Value)

variable {F α : Type} [Medium α]

/-- There is a last epoch in which jobs end. -/
theorem exists_latest (k : Nat) (below : List (Done F α)) :
    ∃ last, IsGreatest {x | x = k ∨ ∃ b ∈ below, b.yield.epoch = x} last := by
  induction below with
  | nil => exact ⟨k, .inl rfl, by rintro x (rfl | ⟨b, hb, _⟩); exacts [Nat.le_refl _, nomatch hb]⟩
  | cons b below ih =>
    obtain ⟨last, hlast, hle⟩ := ih
    refine ⟨max last b.yield.epoch, ?_, ?_⟩
    · rcases Nat.le_total last b.yield.epoch with hmax | hmax
      · rw [Nat.max_eq_right hmax]
        exact .inr ⟨b, List.mem_cons_self, rfl⟩
      · rw [Nat.max_eq_left hmax]
        exact hlast.imp_right fun ⟨b', hb', hx⟩ => ⟨b', List.mem_cons_of_mem _ hb', hx⟩
    · rintro x (rfl | ⟨b', hb', rfl⟩)
      · exact Nat.le_trans (hle (.inl rfl)) (Nat.le_max_left ..)
      · rcases List.mem_cons.mp hb' with rfl | hb'
        · exact Nat.le_max_right ..
        · exact Nat.le_trans (hle (.inr ⟨b', hb', rfl⟩)) (Nat.le_max_left ..)

/-- What is left of a call when all its configs have ended. -/
theorem ends_close (s : Setup F α) (registry : Registry F) (c : Clock) (k : Nat)
    (shown : List (Rose α)) : Ends s registry c (.close shown) k ⟨none, shown, k⟩ 1 :=
  .ends (.of_always c k fun _ => rfl)

theorem toList_inj {β : Type} {a b : Option β} (h : a.toList = b.toList) : a = b := by
  cases a <;> cases b <;> simp_all

/-- A container that configs are taken up into shows what it showed, and then what their places are held
for. -/
theorem Takes.shows {d : NodeId} {sc sc' : Scene F α} {rs : List (Run F α)} {held : Holding α}
    {forest : List (Rose α)} (h : Takes d sc sc' rs) (hfree : ∀ x < sc.tree.next, held x = none)
    (hnew : sc'.tree.Shows held (rs.map Run.place) forest) :
    sc'.tree.Shows held [d] ((sc.tree.subtree? d).toList.map (Rose.put forest)) := by
  have hl := h.grown.tree.before
  obtain ⟨f, hf⟩ := Tree.Shows.exists_of_linked hl Tree.noneHeld [d]
  rw [Tree.subtree?_of_shows hf hl]
  rcases hf.single_cases rfl with ⟨hgone, rfl⟩ | ⟨v, kids, hv, hkids, rfl⟩
  · exact .gone (hfree d h.given) ((h.items d h.given).trans hgone) .nil
  · have hlive := Tree.get?_eq_some_live hv
    refine .node (hfree d h.given) ((h.items d h.given).trans hv) ?_ .nil
    rw [h.children hlive]
    refine Tree.Shows.append ?_ hnew
    -- Below the container all live nodes are younger.
    have hne : ∀ x, x < sc.tree.next ∧ (sc.tree.contains x → d < x) → some d ≠ some x := by
      rintro x ⟨_, hx⟩ he
      obtain rfl := Option.some.inj he
      exact Nat.lt_irrefl _ (hx hlive)
    refine hkids.congr (P := fun x => x < sc.tree.next ∧ (sc.tree.contains x → d < x)) ?_ ?_ ?_ ?_ ?_
    · exact fun x hx => ⟨hl.listed_lt hx, fun hxl => hl.ordered (hl.link hx hxl)⟩
    · rintro x ⟨_, hx⟩ _ y hy
      exact ⟨hl.listed_lt hy, fun hyl =>
        Nat.lt_trans (hx (Tree.live_of_listed hy)) (hl.ordered (hl.link hy hyl))⟩
    · exact fun x hx _ => h.items x hx.1
    · exact fun x hx _ => h.grown.tree.children hx.1 (hne x hx)
    · exact fun x hx => hfree x hx.1

/-- Places that are each held for a forest or stand as they were reserved show these forests. -/
theorem Tree.shows_of_places {t : Tree α} {held : Holding α} {ps : List NodeId}
    {fs : List (List (Rose α))} (h : List.Forall₂ (fun p f => held p = some f ∨ held p = none ∧
      t.get? p = some Medium.reserved ∧ t.children p = [] ∧ f = [.node Medium.reserved []]) ps fs) :
    t.Shows held ps fs.flatten := by
  induction h with
  | nil => exact .nil
  | cons hp _ ih =>
    rcases hp with hp | ⟨hp, hitem, hbare, rfl⟩
    · exact .held hp ih
    · refine .node hp hitem ?_ ih
      rw [hbare]
      exact .nil

omit [Medium α] in
/-- Different places may be held for any forests. -/
theorem exists_holding_of_nodup {ps : List NodeId} (h : ps.Nodup) (fs : List (Option (List (Rose α)))) :
    ∃ held : Holding α, (∀ (i : Nat) p, ps[i]? = some p → held p = (fs[i]?).join) ∧
      ∀ x, x ∉ ps → held x = none := by
  refine ⟨fun x => if x ∈ ps then (fs[ps.idxOf x]?).join else none, fun i p hi => ?_,
    fun x hx => if_neg hx⟩
  obtain ⟨hlt, rfl⟩ := List.getElem?_eq_some_iff.mp hi
  refine (if_pos (List.getElem_mem hlt)).trans ?_
  rw [h.idxOf_getElem i hlt]

/-- The places of those runs, numbered from `n` on, that are of interest are held for what these will
show. -/
structure HeldFor (rs : List (Run F α)) (n : TaskId) (below : List (Done F α)) (I : TaskId → Prop)
    (held : Holding α) : Prop where
  due : ∀ {i : Nat} {r b}, rs[i]? = some r → below[i]? = some b → I (n + i) →
    held r.place = some b.yield.shown
  others : ∀ {i : Nat} {r b}, rs[i]? = some r → below[i]? = some b → ¬I (n + i) → held r.place = none
  only : ∀ {x}, held x ≠ none → ∃ r ∈ rs, r.place = x

namespace HeldFor

variable {rs : List (Run F α)} {n : TaskId} {below : List (Done F α)} {I : TaskId → Prop}
  {held : Holding α} {d : NodeId} {sc sc' : Scene F α}

theorem exists_of_nodup (h : (rs.map Run.place).Nodup) (n : TaskId) (below : List (Done F α))
    (I : TaskId → Prop) : ∃ held, HeldFor rs n below I held := by
  let forests : List (Option (List (Rose α))) := below.mapIdx fun i b => open Classical in
    if I (n + i) then some b.yield.shown else none
  obtain ⟨held, hheld, hnone⟩ := exists_holding_of_nodup h forests
  have hplace : ∀ {i : Nat} {r b}, rs[i]? = some r → below[i]? = some b →
      held r.place = open Classical in if I (n + i) then some b.yield.shown else none := by
    intro i r b hi hb
    have hp := hheld i r.place (by rw [List.getElem?_map, hi]; rfl)
    rw [List.getElem?_mapIdx, hb] at hp
    exact hp
  refine ⟨held, fun hi hb hof => (hplace hi hb).trans (if_pos hof),
    fun hi hb hnot => (hplace hi hb).trans (if_neg hnot), fun {x} hx => ?_⟩
  exact List.mem_map.mp (Classical.byContradiction fun hnot => hx (hnone x hnot))

/-- The container then shows what all of them show, if places are shown as reserved for the others. -/
theorem shows (h : HeldFor rs n below I held) (htakes : Takes d sc sc' rs)
    (hlength : below.length = rs.length) (hothers : ∀ i b, below[i]? = some b → ¬I (n + i) →
      b.yield.shown = [.node Medium.reserved []]) :
    sc'.tree.Shows held [d]
      ((sc.tree.subtree? d).toList.map (Rose.put (below.flatMap (·.yield.shown)))) := by
  refine htakes.shows (fun x hx => Classical.byContradiction fun hne => ?_) ?_
  · obtain ⟨r, hr, rfl⟩ := h.only hne
    exact Nat.not_lt.mpr (htakes.fresh r hr).1 hx
  · rw [List.flatMap_def]
    refine Tree.shows_of_places (List.forall₂_iff_get.mpr ⟨by simp [hlength], fun i h₁ h₂ => ?_⟩)
    rw [List.length_map] at h₁ h₂
    have hi := List.getElem?_eq_getElem h₁
    have hb := List.getElem?_eq_getElem h₂
    simp only [List.get_eq_getElem, List.getElem_map]
    rcases Classical.em (I (n + i)) with hof | hnot
    · exact .inl (h.due hi hb hof)
    · have hr := List.mem_of_getElem? hi
      exact .inr ⟨h.others hi hb hnot, htakes.item _ hr, htakes.bare _ hr, hothers i _ hb hnot⟩

end HeldFor

namespace World

variable {s : Setup F α} {c : Clock} {w : World F α} {t u : Task F α} {d p x : NodeId}
  {raw : RawConfig F} {data context : Value} {below : List (Done F α)} {I : TaskId → Prop}

/-- The runs that a call to render begins with. -/
def taken (w : World F α) (s : Setup F α) (d : NodeId) (raw : RawConfig F) (data context : Value) :
    List (Run F α) :=
  (w.takeUpRaw s d ⟨data, context, none⟩ raw).2

section Beginning

variable (hw : Orderly w) (hidle : w.tasks = []) (hd : d < w.scene.tree.next)
include hw

variable (s d raw data context) in
theorem entered_render : Moved (w.enter []) ⟨w.nextTask, [], false, .errands []⟩ (.errands [])
    ((w.taken s d raw data context).map .run) (w.render s d raw data context).1 :=
  moved_of_called hw.sound.roster (sameTasks_takeUpAll d _ _) [] _

variable (s raw data context) in
include hd in
theorem takes_render : Takes d w.scene (w.render s d raw data context).1.scene
    (w.taken s d raw data context) :=
  takes_takeUpAll _ _ hw.sound.linked hd

variable (s d raw data context) in
omit hw in
/-- The runs of a call are numbered one after the other. -/
theorem runs_render : (w.render s d raw data context).2.runs =
    List.range' (w.nextTask + 1) (w.taken s d raw data context).length := by
  rw [← (sameTasks_takeUpAll (w := w) d ⟨data, context, none⟩ (raw.normalize s.engine)).next]
  rfl

theorem bounds_of_mem_runs {i : TaskId} (hi : i ∈ (w.render s d raw data context).2.runs) :
    w.nextTask < i ∧ i < (w.render s d raw data context).1.nextTask := by
  rw [runs_render, List.mem_range'_1] at hi
  rw [(entered_render s d raw data context hw).next, List.length_map]
  exact hi

/-- Each run of a call has its task. -/
theorem exists_task_render {i : Nat} {r : Run F α}
    (hi : (w.taken s d raw data context)[i]? = some r) :
    ∃ u ∈ (w.render s d raw data context).1.tasks, u.id = w.nextTask + 1 + i ∧ u.work = .run r := by
  have hwork : ((w.taken s d raw data context).map Work.run)[i]? = some (.run r) := by
    rw [List.getElem?_map, hi]
    rfl
  obtain ⟨u, hu, hid, _, hrun⟩ := (entered_render s d raw data context hw).exists_new
    (hw.sound.roster.entered []) (mem_enter []) hwork
  exact ⟨u, hu, hid, hrun⟩

omit hw in
theorem length_taken (hjobs : below.map Done.job = Job.ofRaw s w.registry ⟨data, context, none⟩ raw) :
    below.length = (w.taken s d raw data context).length := by
  have hruns := congrArg List.length (hjobs.trans (jobs_takeUpRaw (d := d) _ raw).symm)
  rw [List.length_map, List.length_map] at hruns
  exact hruns

omit hw in
theorem mem_runs_render {i : Nat} {b : Done F α}
    (hjobs : below.map Done.job = Job.ofRaw s w.registry ⟨data, context, none⟩ raw)
    (hb : below[i]? = some b) : w.nextTask + 1 + i ∈ (w.render s d raw data context).2.runs := by
  have hlt := length_taken (d := d) hjobs ▸ (List.getElem?_eq_some_iff.mp hb).1
  rw [runs_render, List.mem_range'_1]
  omega

omit hw in
/-- The outcomes of a call are those of its configs, in order. -/
theorem outcomesOf_of_below {v : World F α}
    (hjobs : below.map Done.job = Job.ofRaw s w.registry ⟨data, context, none⟩ raw)
    (hout : ∀ i b, below[i]? = some b → v.outcomeOf? (w.nextTask + 1 + i) = b.yield.outcome) :
    v.outcomesOf (w.render s d raw data context).2 = below.map (·.yield.outcome) := by
  rw [outcomesOf, runs_render, ← length_taken hjobs]
  refine List.ext_getElem (by simp) fun i h₁ h₂ => ?_
  rw [List.length_map] at h₂
  simp [hout i _ (List.getElem?_eq_getElem h₂)]

include hidle

/-- The tasks of a call are its own and one for each run, which works for it. -/
theorem mem_render (hu : u ∈ (w.render s d raw data context).1.tasks) :
    (u.id = w.nextTask ∧ u.owners = [] ∧ u.work = .errands []) ∨
      ∃ i r, (w.taken s d raw data context)[i]? = some r ∧ u.id = w.nextTask + 1 + i ∧
        u.owners = [w.nextTask] ∧ u.work = .run r := by
  rcases ((entered_render s d raw data context hw).mem (hw.sound.roster.entered []) (mem_enter [])).mp hu with
    ⟨hu, hne⟩ | rfl | hu
  · simp only [enter, hidle, List.nil_append, List.mem_singleton] at hu
    exact absurd (congrArg Task.id hu) hne
  · exact .inl ⟨rfl, rfl, rfl⟩
  · obtain ⟨i, hi, hid, howners, _⟩ := mem_number.mp hu
    rw [List.getElem?_map] at hi
    obtain ⟨r, hr, hwork⟩ := Option.map_eq_some_iff.mp hi
    exact .inr ⟨i, r, hr, hid, howners, hwork.symm⟩

/-- Whoever works for another works for the call. -/
theorem owners_render {i : TaskId} (hu : u ∈ (w.render s d raw data context).1.tasks)
    (hi : i ∈ u.owners) : i = w.nextTask := by
  rcases mem_render hw hidle hu with ⟨_, hnone, _⟩ | ⟨_, _, _, _, howners, _⟩
  · rw [hnone] at hi
    cases hi
  · exact List.mem_singleton.mp (howners ▸ hi)

theorem place_render (hu : u ∈ (w.render s d raw data context).1.tasks) (hp : p ∈ u.work.places) :
    ∃ i r, (w.taken s d raw data context)[i]? = some r ∧ r.place = p ∧ u.work = .run r ∧
      u.id = w.nextTask + 1 + i := by
  rcases mem_render hw hidle hu with ⟨_, _, hcall⟩ | ⟨i, r, hi, hid, _, hrun⟩
  · rw [hcall] at hp
    cases hp
  · rw [hrun] at hp
    exact ⟨i, r, hi, (List.mem_singleton.mp hp).symm, hrun, hid⟩

include hd in
/-- No run of a call has begun to paint. -/
theorem output_render (hu : u ∈ (w.render s d raw data context).1.tasks) : u.work.output? = none := by
  rcases mem_render hw hidle hu with ⟨_, _, hcall⟩ | ⟨_, r, hr, _, _, hrun⟩
  · rw [hcall]
    rfl
  · rw [hrun]
    exact (takes_render s raw data context hw hd).unpainted r (List.mem_of_getElem? hr)

/-- The task of a run is of interest if the run is, unless others than runs are. -/
theorem isOf_render {i : Nat}
    (hI : (∀ i, I i) ∨ ∀ i, I i → i ∈ (w.render s d raw data context).2.runs)
    (hu : u ∈ (w.render s d raw data context).1.tasks) (hid : u.id = w.nextTask + 1 + i) :
    u.IsOf I ↔ I (w.nextTask + 1 + i) := by
  refine ⟨fun ⟨j, hj, hin⟩ => ?_, fun hi => ⟨_, hi, Task.isWithin_iff.mpr (.inl hid)⟩⟩
  rcases Task.isWithin_iff.mp hin with rfl | hin
  · exact hid ▸ hj
  · have hcall := owners_render hw hidle hu hin
    rcases hI with hall | hsome
    · exact hall _
    · exact absurd (hcall ▸ (bounds_of_mem_runs hw (hsome _ hj)).1) (Nat.lt_irrefl _)

/-- A call that has begun is a course. -/
theorem course_render [LawfulMedium α] (hd : d < w.scene.tree.next) (hfits : c.Fits w.opened) :
    Course w.registry c (w.render s d raw data context).1 where
  orderly := by
    refine hw.act (a := .render d raw data context) ⟨hd, fun n _ t ht => ?_⟩ rfl
    rw [hidle] at ht
    cases ht
  registry := (sameHouse_takeUpAll (d := d) _ _).registry
  fits := by
    have hopened : (w.render s d raw data context).1.opened = w.opened :=
      (sameHouse_takeUpAll (d := d) _ _).opened
    rw [hopened]
    exact hfits
  plain {t} ht e es he := by
    rcases mem_render hw hidle ht with ⟨_, _, hcall⟩ | ⟨_, r, _, _, _, hrun⟩
    · rw [hcall] at he
      cases he
    · rw [hrun] at he
      cases he

/-- All places of a call are held in its container. -/
theorem confined_render (hd : d < w.scene.tree.next) :
    Confined d (w.render s d raw data context).1 := by
  have htakes := takes_render s raw data context hw hd
  have hplace : ∀ {u p}, u ∈ (w.render s d raw data context).1.tasks → p ∈ u.work.places →
      ∃ r ∈ w.taken s d raw data context, r.place = p := by
    intro u p hu hp
    obtain ⟨_, r, hr, hp, _⟩ := place_render hw hidle hu hp
    exact ⟨r, List.mem_of_getElem? hr, hp⟩
  constructor
  case given => exact Nat.lt_of_lt_of_le hd htakes.grown.tree.next_le
  case young =>
    intro u x hu hx
    rcases List.mem_append.mp hx with hp | ho
    · obtain ⟨r, hr, rfl⟩ := hplace hu hp
      exact Nat.lt_of_lt_of_le hd (htakes.fresh r hr).1
    · rw [output_render hw hidle hd hu] at ho
      cases ho
  case home =>
    intro u p q hu hp hq
    obtain ⟨r, hr, rfl⟩ := hplace hu hp
    exact .inl (htakes.parent r hr q hq)
  case bare =>
    intro u p hu hp
    obtain ⟨r, hr, rfl⟩ := hplace hu hp
    exact ⟨htakes.item r hr, htakes.bare r hr⟩

/-- What those configs of a call end with that are of interest may be forecast. -/
theorem forecast_render
    (hjobs : below.map Done.job = (w.taken s d raw data context).map (Run.job []))
    (hends : ∀ i b, below[i]? = some b → I (w.nextTask + 1 + i) →
      Ends s w.registry c b.job (c.epoch w.opened) b.yield b.turns)
    (hI : I w.nextTask → ∀ i, I i) :
    ∃ f : Forecast α,
      (∀ u ∈ (w.render s d raw data context).1.tasks, u.IsOf I →
        Foreseen s w.registry c f (w.render s d raw data context).1 u) ∧
      (∀ i b, below[i]? = some b → f.due (w.nextTask + 1 + i) = b.yield ∧
        f.since (w.nextTask + 1 + i) = c.epoch w.opened) ∧
      (w.render s d raw data context).1.turnsLeft f = 1 + (below.map Done.turns).sum := by
  have hm := entered_render s d raw data context hw
  have hr := hw.sound.roster.entered []
  have hopened : (w.render s d raw data context).1.opened = (w.enter []).opened :=
    (sameHouse_takeUpAll (d := d) _ _).opened
  have hworks : below.map Done.job =
      ((w.taken s d raw data context).map Work.run).map (Work.job []) := by
    rw [hjobs, List.map_map]
    rfl
  have htasks : (w.enter []).tasks = [⟨w.nextTask, [], false, .errands []⟩] := by
    rw [enter, hidle]
    rfl
  obtain ⟨last, hlatest⟩ := exists_latest (c.epoch w.opened) below
  -- The call itself ends once all that it waits for has ended.
  let f : Forecast α := ⟨fun _ => ⟨none, [], last⟩, fun _ => 1 + (below.map Done.turns).sum + 1,
    fun _ => c.epoch w.opened, fun _ => []⟩
  let t : Task F α := ⟨w.nextTask, [], false, .errands []⟩
  have ht : t ∈ (w.enter []).tasks := mem_enter []
  have hlt : t.id < (w.enter []).nextTask := Nat.lt_succ_self _
  have hnew : ∀ k b, below[k]? = some b → t.IsOf I ∨ I (w.nextTask + 1 + k) →
      Ends s w.registry c b.job (c.epoch w.opened) b.yield b.turns := by
    rintro k b hb (⟨i, hi, hin⟩ | hof)
    · rcases Task.isWithin_iff.mp hin with rfl | hin
      · exact hends k b hb (hI hi _)
      · cases hin
    · exact hends k b hb hof
  have hforeseen := Foreseen.went (f := f) (t := t) hm hr ht hopened
    (fun u hu _ hne => by
      rw [htasks] at hu
      exact absurd (congrArg Task.id (List.mem_singleton.mp hu)) hne)
    (by rw [hasChildren, htasks]; rfl) hworks hnew (fun _ => hlatest)
    fun _ => ends_close s w.registry c last []
  refine ⟨_, hforeseen, fun i b hb => ?_, ?_⟩
  · exact ⟨(Forecast.goes_new hlt hb).1, (Forecast.goes_new hlt hb).2.2.1⟩
  · have hlength : below.length = ((w.taken s d raw data context).map Work.run).length := by
      simpa using congrArg List.length hworks
    have hone : (w.enter []).turnsLeft f = 1 + (below.map Done.turns).sum + 1 := by
      simp [turnsLeft, htasks, f]
    refine Nat.add_left_cancel (n := 1) ?_
    rw [← turnsLeft_went hm hr ht hlength rfl, hone, Nat.add_comm]

/-- What those configs of a call end with that are of interest tells what is to come, while the places of
the others stay as they are. -/
theorem prospect_render [LawfulMedium α] (hd : d < w.scene.tree.next) (hfits : c.Fits w.opened)
    (hjobs : below.map Done.job = Job.ofRaw s w.registry ⟨data, context, none⟩ raw)
    (hends : ∀ i b, below[i]? = some b → I (w.nextTask + 1 + i) →
      Ends s w.registry c b.job (c.epoch w.opened) b.yield b.turns)
    (hothers : ∀ i b, below[i]? = some b → ¬I (w.nextTask + 1 + i) →
      b.yield.shown = [.node Medium.reserved []])
    (hI : (∀ i, I i) ∨ ∀ i, I i → i ∈ (w.render s d raw data context).2.runs) :
    ∃ f held, Prospect s w.registry c I d ((w.scene.tree.subtree? d).toList.map
        (Rose.put (below.flatMap (·.yield.shown)))) f held (w.render s d raw data context).1 ∧
      Answers w.nextTask (w.render s d raw data context).2.runs f.due
        (w.render s d raw data context).1 ∧
      (w.render s d raw data context).1.turnsLeft f = 1 + (below.map Done.turns).sum ∧
      ∀ i b, below[i]? = some b → f.due (w.nextTask + 1 + i) = b.yield := by
  have htakes := takes_render s raw data context hw hd
  have hruns : below.map Done.job = (w.taken s d raw data context).map (Run.job []) :=
    hjobs.trans (jobs_takeUpRaw _ raw).symm
  have hlength := length_taken (d := d) hjobs
  obtain ⟨f, hforeseen, hdue, hleft⟩ := forecast_render hw hidle hruns hends fun hcall =>
    hI.resolve_right fun hsome => Nat.lt_irrefl _ (bounds_of_mem_runs hw (hsome _ hcall)).1
  obtain ⟨held, hheld⟩ := HeldFor.exists_of_nodup htakes.nodup (w.nextTask + 1) below I
  have hdone : ∀ {i : Nat} {r}, (w.taken s d raw data context)[i]? = some r →
      ∃ b, below[i]? = some b := by
    intro i r hi
    exact ⟨_, List.getElem?_eq_getElem (hlength ▸ (List.getElem?_eq_some_iff.mp hi).1)⟩
  refine ⟨f, held, ?prospect, ?answers, hleft, fun i b hb => (hdue i b hb).1⟩
  case prospect =>
    constructor
    case course => exact course_render hw hidle hd hfits
    case confined => exact confined_render hw hidle hd
    case known => exact hI.imp_right fun hsome i hi => (bounds_of_mem_runs hw (hsome i hi)).2
    case foreseen => exact hforeseen
    case only =>
      intro x hx
      obtain ⟨r, hr, rfl⟩ := hheld.only hx
      obtain ⟨i, hi⟩ := List.mem_iff_getElem?.mp hr
      obtain ⟨u, hu, _, hwork⟩ := exists_task_render hw hi
      exact ⟨u, hu, by rw [hwork]; exact List.mem_cons_self⟩
    case others =>
      intro u p hu hnot hp
      obtain ⟨i, r, hi, rfl, _, hid⟩ := place_render hw hidle hu hp
      obtain ⟨b, hb⟩ := hdone hi
      exact hheld.others hi hb fun hof => hnot ((isOf_render hw hidle hI hu hid).mpr hof)
    case due =>
      intro u hu hof
      rcases mem_render hw hidle hu with ⟨_, _, hcall⟩ | ⟨i, r, hi, hid, _, hrun⟩
      · rw [hcall]
        trivial
      · obtain ⟨b, hb⟩ := hdone hi
        rw [hid, hrun, (hdue i b hb).1]
        exact hheld.due hi hb ((isOf_render hw hidle hI hu hid).mp hof)
    case drafts =>
      intro u o hu _ ho
      rw [output_render hw hidle hd hu] at ho
      cases ho
    case shows => exact hheld.shows htakes hlength hothers
  case answers =>
    constructor
    case known => exact fun i hi => (bounds_of_mem_runs hw hi).2
    case outcome =>
      intro i hi
      rw [runs_render, List.mem_range'_1] at hi
      obtain ⟨k, rfl⟩ := Nat.exists_eq_add_of_le hi.1
      have hk : k < (w.taken s d raw data context).length := by omega
      obtain ⟨u, hu, hid, _⟩ := exists_task_render hw (List.getElem?_eq_getElem hk)
      exact .inl ⟨u, hu, hid⟩
    case done =>
      have hm := entered_render s d raw data context hw
      exact .inl ⟨_, (hm.mem (hw.sound.roster.entered []) (mem_enter [])).mpr (.inr (.inl rfl)), rfl,
        rfl⟩

end Beginning

/-- What a schedule of a call comes to if its configs end as these jobs do: it takes so many steps at
most, it is held up by closed gates only, and in the end the call is done, has the outcomes of the
configs, and has left in its container what they show. -/
structure ComesTo (s : Setup F α) (c : Clock) (w : World F α) (d : NodeId) (ticket : Ticket)
    (below : List (Done F α)) (es : List (World F α × Act F α)) (v : World F α) : Prop where
  steps_le : steps es ≤ 1 + (below.map Done.turns).sum
  ended : v.Stalled s → (∀ t ∈ v.tasks, v.blockedOn t = []) → v.tasks = []
  drained : c.Last w.opened → v.Stalled s → v.tasks = []
  steps_eq : v.tasks = [] → steps es = 1 + (below.map Done.turns).sum
  outcomes : v.tasks = [] → v.outcomesOf ticket = below.map (·.yield.outcome)
  output : v.tasks = [] → v.scene.tree.subtree? d =
    (w.scene.tree.subtree? d).map (Rose.put (below.flatMap (·.yield.shown)))
  finished : v.tasks = [] → ticket.call ∈ v.finished

section Coming

variable [LawfulMedium α] (hw : Orderly w) (hidle : w.tasks = []) (hd : d < w.scene.tree.next)
  (hfits : c.Fits w.opened)
include hw hidle hd hfits

/-- At the end of an order, the gates of a schedule stay as they are. -/
theorem opened_of_render {v : World F α} {es : List (World F α × Act F α)} (hlast : c.Last w.opened)
    (h : History s (Act.Keeps s c) (w.render s d raw data context).1 es v) : v.opened = w.opened := by
  have hopened : (w.render s d raw data context).1.opened = w.opened :=
    (sameHouse_takeUpAll (d := d) _ _).opened
  have hall : Course w.registry c v ∧ v.opened = w.opened := by
    refine h.invariant (I := fun v => Course w.registry c v ∧ v.opened = w.opened)
      ⟨course_render hw hidle hd hfits, hopened⟩ ?_
    rintro u a u' ⟨hu, hsame⟩ ha hact
    exact ⟨hu.act ha hact, (hu.opened_of_last (hsame.symm ▸ hlast) ha hact).trans hsame⟩
  exact hall.2

/-- What the configs of a call end with tells what every schedule comes to. -/
theorem comesTo_of_ends {v : World F α} {es : List (World F α × Act F α)}
    (hjobs : below.map Done.job = Job.ofRaw s w.registry ⟨data, context, none⟩ raw)
    (hends : ∀ b ∈ below, Ends s w.registry c b.job (c.epoch w.opened) b.yield b.turns)
    (h : History s (Act.Keeps s c) (w.render s d raw data context).1 es v) :
    ComesTo s c w d (w.render s d raw data context).2 below es v := by
  obtain ⟨f, held, hprospect, hanswers, hturns, hdue⟩ :=
    prospect_render (I := fun _ => True) hw hidle hd hfits hjobs
      (fun _ b hb _ => hends b (List.mem_of_getElem? hb)) (fun _ _ _ hnot => absurd trivial hnot)
      (.inl fun _ => trivial)
  obtain ⟨f', held', hv, hans, hleft⟩ := hprospect.history (fun _ _ => trivial) hanswers
    (h.imp fun v a ha => ⟨ha, .of_all (fun _ => trivial) v a⟩)
  have hleft := hleft fun _ => trivial
  rw [hturns] at hleft
  have hnone : v.tasks = [] → v.turnsLeft f' = 0 := fun hdone => by simp [turnsLeft, hdone]
  constructor
  case steps_le => omega
  case ended =>
    intro hstalled hopen
    refine Classical.byContradiction fun hne => ?_
    have hr := hv.course.orderly.sound.roster
    obtain ⟨t, ht, hc⟩ := hr.exists_alone hne
    exact blocked_of_stuck hr ht hc (Option.isNone_iff_eq_none.mp (hstalled t ht)) (hopen t ht)
  case drained =>
    intro hlast hstalled
    refine Classical.byContradiction fun hne => ?_
    have hopened := opened_of_render hw hidle hd hfits hlast h
    have hr := hv.course.orderly.sound.roster
    obtain ⟨t, ht, hc⟩ := hr.exists_alone hne
    -- What a task without others under it ends with it may have now.
    have hforeseen := hv.foreseen t ht (.of_all (fun _ => trivial) t)
    have hends := hforeseen.ends
    rw [hforeseen.since_of_alone hc, hopened] at hends
    obtain ⟨m, k, opened, hle, ha, hturn⟩ := hends.exists_turn
    have hstuck := turn_of_stuck hv.course ht hc (Option.isNone_iff_eq_none.mp (hstalled t ht))
      (f'.draft t.id)
    rw [hopened, ← hlast hle ha, hturn] at hstuck
    cases hstuck
  case steps_eq =>
    intro hdone
    rw [hleft, hnone hdone, Nat.add_zero]
  case outcomes =>
    intro hdone
    refine outcomesOf_of_below hjobs fun i b hb => ?_
    have hi : w.nextTask + 1 + i ∈ (w.render s d raw data context).2.runs :=
      mem_runs_render hjobs hb
    rcases hans.outcome _ hi with ⟨t, ht, _⟩ | ho
    · rw [hdone] at ht
      cases ht
    · rw [ho, hdue i b hb]
  case output =>
    intro hdone
    have hsub := hv.subtree fun t ht => by rw [hdone] at ht; cases ht
    rw [← Option.toList_map] at hsub
    exact toList_inj hsub
  case finished =>
    intro hdone
    have hcall : (w.render s d raw data context).2.call = w.nextTask :=
      (sameTasks_takeUpAll (w := w) d ⟨data, context, none⟩ (raw.normalize s.engine)).next
    rw [hcall]
    rcases hans.done with ⟨t, ht, _⟩ | hm
    · rw [hdone] at ht
      cases ht
    · exact hm

/-- A schedule tells what those configs of the call end with whose runs have come to an end. -/
theorem ends_of_ended {v : World F α} {es : List (World F α × Act F α)}
    (h : History s (Act.Keeps s c) (w.render s d raw data context).1 es v)
    (hended : ∀ t ∈ v.tasks, ¬t.IsOf I)
    (hone : c = .free → ∀ e ∈ es, ∀ t ∈ e.1.tasks, t.work.OneFails) :
    ∃ below : List (Done F α),
      below.map Done.job = Job.ofRaw s w.registry ⟨data, context, none⟩ raw ∧
        ∀ i b, below[i]? = some b → I (w.nextTask + 1 + i) →
          Ends s w.registry c b.job (c.epoch w.opened) b.yield b.turns := by
  obtain ⟨f, hdraft, hf⟩ :=
    Foreseeable.of_history h (course_render hw hidle hd hfits) hone hended fun _ => []
  have hm := entered_render s d raw data context hw
  have hopened : (w.render s d raw data context).1.opened = (w.enter []).opened :=
    (sameHouse_takeUpAll (d := d) _ _).opened
  refine ⟨f.newcomers (w.enter []).nextTask ((w.taken s d raw data context).map .run), ?_,
    fun i b hb hi => ?_⟩
  · rw [Forecast.map_job_newcomers, List.map_map]
    exact jobs_takeUpRaw _ raw
  · exact ends_of_newcomers hm (hw.sound.roster.entered []) (mem_enter []) hopened hf
      (fun i _ => by rw [hdraft]) hb (.inr hi)

/-- A schedule that comes to an end tells what the configs of the call end with. -/
theorem ends_of_schedule {v : World F α} {es : List (World F α × Act F α)}
    (h : History s (Act.Keeps s c) (w.render s d raw data context).1 es v) (hended : v.tasks = [])
    (hone : c = .free → ∀ e ∈ es, ∀ t ∈ e.1.tasks, t.work.OneFails) :
    ∃ below : List (Done F α),
      below.map Done.job = Job.ofRaw s w.registry ⟨data, context, none⟩ raw ∧
        ∀ b ∈ below, Ends s w.registry c b.job (c.epoch w.opened) b.yield b.turns := by
  obtain ⟨below, hjobs, hends⟩ := ends_of_ended (I := fun _ => True) hw hidle hd hfits h
    (fun t ht => by rw [hended] at ht; cases ht) hone
  refine ⟨below, hjobs, fun b hb => ?_⟩
  obtain ⟨i, hi⟩ := List.mem_iff_getElem?.mp hb
  exact hends i b hi trivial

end Coming

/-- Every config of a call ends with an outcome. -/
theorem outcomes_of_ends {k : Nat}
    (hjobs : below.map Done.job = Job.ofRaw s w.registry ⟨data, context, none⟩ raw)
    (hends : ∀ b ∈ below, Ends s w.registry c b.job k b.yield b.turns) :
    none ∉ below.map (·.yield.outcome) := by
  intro hnone
  obtain ⟨b, hb, hout⟩ := List.mem_map.mp hnone
  exact (hends b hb).outcome_ne_none (Job.isConfig_of_ofRaw (hjobs ▸ List.mem_map_of_mem hb)) hout

end World

end Montage
