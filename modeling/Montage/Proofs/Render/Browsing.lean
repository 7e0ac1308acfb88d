import Montage.Proofs.Render.Clicks
import Montage.Proofs.Render.Discarding

/-!
Lists that are looked through: tasks take steps, gates open, and the buttons of a list are clicked, where
a click waits until the page of the one before it is shown. Main statements: at most one click waits at a
time, and the task that waits with it can take its step.
-/

namespace Montage

open Json (Value)

variable {F α : Type} [Medium α]

/-- What a piece of work is still to show of a list in a container. -/
def Work.turned? (c : NodeId) : Work F α → Option Bool
  | .errands es => es.findSome? (·.turned? c)
  | _ => none

namespace Act

/-- What a click is to show of a list in a container: the next page, or all that is left. -/
def clicked? (c : NodeId) (w : World F α) : Act F α → Option Bool
  | .click n => (w.scene.clicks.get? n).bind (Click.turned? c)
  | _ => none

/-- What a step shows of a list in a container for a click. -/
def turned? (c : NodeId) (w : World F α) : Act F α → Option Bool
  | .step id =>
    match (w.task? id).map Task.work with
    | some (.errands (e :: _)) => e.turned? c
    | _ => none
  | _ => none

/-- Looks through a list: tasks take steps, gates open, and buttons of the list are clicked once what was
clicked before is shown. -/
def Browses (c : NodeId) (w : World F α) : Act F α → Prop
  | .step _ | .note _ | .release _ => True
  | .click n => (Act.click n : Act F α).clicked? c w ≠ none ∧ ∀ t ∈ w.tasks, t.work.turned? c = none
  | _ => False

instance (c : NodeId) (w : World F α) (a : Act F α) : Decidable (a.Browses c w) :=
  match a with
  | .step _ | .note _ | .release _ => inferInstanceAs (Decidable True)
  | .click n => inferInstanceAs (Decidable
      ((Act.click n : Act F α).clicked? c w ≠ none ∧ ∀ t ∈ w.tasks, t.work.turned? c = none))
  | .render .. | .renderConfig .. | .renderList .. | .discard _ | .create _ | .plant .. | .mark ..
  | .popup _ | .define _ => inferInstanceAs (Decidable False)

end Act

namespace World

/-- The clicks on a list, and what each is to show. -/
def clicksOn (c : NodeId) (es : List (World F α × Act F α)) : List Bool :=
  es.filterMap fun e => e.2.clicked? c e.1

/-- What was shown of a list for clicks. -/
def turnsOf (c : NodeId) (es : List (World F α × Act F α)) : List Bool :=
  es.filterMap fun e => e.2.turned? c e.1

variable {s : Setup F α} {es : List (World F α × Act F α)} {u w w' : World F α} {a : Act F α}
  {t : Task F α} {c x : NodeId} {e : Errand F} {turn : Option (Errand F)}

/-! Clicks that wait. -/

/-- A turn leaves a task with no further errands and begins none, or ends it. -/
theorem Turn.tasks (h : Turn s w t w') :
    (∃ work works, Moved w t work works w' ∧ (∀ k ∈ works, ∀ errands, k ≠ .errands errands) ∧
      ∀ errands, work = .errands errands → ∃ e, t.work = .errands (e :: errands)) ∨
    w'.tasks = w.tasks.filter (·.id != t.id) := by
  have hruns : ∀ {rs : List (Run F α)}, ∀ k ∈ rs.map Work.run, ∀ errands, k ≠ .errands errands := by
    intro rs k hk
    obtain ⟨r, _, rfl⟩ := List.mem_map.mp hk
    exact fun _ he => by cases he
  have hbatches : ∀ {bs : List (List (Run F α))}, ∀ k ∈ bs.map Work.batch, ∀ errands,
      k ≠ .errands errands := by
    intro bs k hk
    obtain ⟨r, _, rfl⟩ := List.mem_map.mp hk
    exact fun _ he => by cases he
  cases h with
  | waits r phase work output scene moved =>
    exact .inl ⟨_, _, moved, by simp, fun _ he => by cases he⟩
  | begins r phase shape work fresh output scene moved =>
    exact .inl ⟨_, _, moved, by simp, fun _ he => by cases he⟩
  | draws r o phase work painting output step script drawn moved =>
    exact .inl ⟨_, _, moved, by simp, fun _ he => by cases he⟩
  | nests r o phase raw around work painting output script scene moved =>
    exact .inl ⟨_, _, moved, hruns, fun _ he => by cases he⟩
  | starts r o phase raw around work painting output script scene moved =>
    exact .inl ⟨_, _, moved, by simp, fun _ he => by cases he⟩
  | lists r o phase page work painting output script own scene moved =>
    exact .inl ⟨_, _, moved, hbatches, fun _ he => by cases he⟩
  | expands rs work scene moved => exact .inl ⟨_, _, moved, hruns, fun _ he => by cases he⟩
  | passes e es work scene moved =>
    exact .inl ⟨_, _, moved, by simp, fun _ he => by cases he; exact ⟨e, work⟩⟩
  | turns wrapper container page all es work scene moved =>
    exact .inl ⟨_, _, moved, hbatches, fun _ he => by cases he; exact ⟨_, work⟩⟩
  | skips r work fresh scene settled => exact .inr settled.tasks
  | fails r e offending o work fresh wrong scene settled => exact .inr settled.tasks
  | abandons r o e work painting scene settled => exact .inr settled.tasks
  | completes r o p work painting scene settled => exact .inr settled.tasks
  | ends work scene ended => exact .inr ended.tasks

/-- Errands are left to tasks that took no step, and to one that has done the errand before. -/
theorem errands_of_turn {v : Task F α} {errands : List (Errand F)} (h : Roster w) (ht : t ∈ w.tasks)
    (hturn : Turn s w t w') (hv : v ∈ w'.tasks) (hwork : v.work = .errands (e :: errands)) :
    (v ∈ w.tasks ∧ v.id ≠ t.id) ∨ ∃ e₀, t.work = .errands (e₀ :: e :: errands) := by
  rcases hturn.tasks with ⟨work, works, moved, hnew, hown⟩ | htasks
  · rcases (moved.mem h ht).mp hv with hv | rfl | hv
    · exact .inl hv
    · exact .inr (hown _ hwork)
    · obtain ⟨i, hi, _⟩ := mem_number.mp hv
      exact absurd hwork (hnew _ (List.mem_of_getElem? hi) _)
  · rw [htasks, List.mem_filter] at hv
    exact .inl ⟨hv.1, bne_iff_ne.mp hv.2⟩

/-- New tasks work for the one that took a step. -/
theorem owners_of_turn {v : Task F α} (h : Roster w) (ht : t ∈ w.tasks) (hturn : Turn s w t w')
    (hv : v ∈ w'.tasks) :
    (∃ v₀ ∈ w.tasks, v₀.owners = v.owners) ∨ v.owners = t.id :: t.owners := by
  rcases hturn.tasks with ⟨work, works, moved, _⟩ | htasks
  · rcases (moved.mem h ht).mp hv with ⟨hv, _⟩ | rfl | hv
    · exact .inl ⟨v, hv, rfl⟩
    · exact .inl ⟨t, ht, rfl⟩
    · obtain ⟨i, _, _, howners, _⟩ := mem_number.mp hv
      exact .inr howners
  · rw [htasks, List.mem_filter] at hv
    exact .inl ⟨v, hv.1, rfl⟩

theorem kept_of_turn {v : Task F α} (h : Roster w) (ht : t ∈ w.tasks) (hturn : Turn s w t w')
    (hv : v ∈ w.tasks) (hne : v.id ≠ t.id) : v ∈ w'.tasks := by
  rcases hturn.tasks with ⟨work, works, moved, _⟩ | htasks
  · exact (moved.mem h ht).mpr (.inl ⟨hv, hne⟩)
  · rw [htasks]
    exact List.mem_filter.mpr ⟨hv, bne_iff_ne.mpr hne⟩

/-- A click is one more task. -/
theorem mem_openErrands {v : Task F α} (e : Errand F) : v ∈ (w.openErrands [] [e]).1.tasks ↔
    v ∈ w.tasks ∨ v = ⟨w.nextTask, [], false, .errands [e]⟩ := by
  have htasks : (w.openErrands [] [e]).1.tasks = (w.enter [e]).tasks := insertBefore_nil ..
  rw [htasks]
  simp [enter]

/-- At most one task has an errand left, this one, and nobody works for it. -/
structure Awaits (w : World F α) (turn : Option (Errand F)) : Prop where
  plain : ∀ {t e errands}, t ∈ w.tasks → t.work = .errands (e :: errands) →
    errands = [] ∧ turn = some e
  one : ∀ {t u e es e' es'}, t ∈ w.tasks → u ∈ w.tasks → t.work = .errands (e :: es) →
    u.work = .errands (e' :: es') → t = u
  waiting : ∀ {e}, turn = some e →
    ∃ t ∈ w.tasks, t.work = .errands [e] ∧ ∀ v ∈ w.tasks, t.id ∉ v.owners

namespace Awaits

theorem congr (h : Awaits w turn) (hm : ∀ v, v ∈ w'.tasks ↔ v ∈ w.tasks) : Awaits w' turn where
  plain hv := h.plain ((hm _).mp hv)
  one hv hv' := h.one ((hm _).mp hv) ((hm _).mp hv')
  waiting he := by
    obtain ⟨t, ht, hwork, halone⟩ := h.waiting he
    exact ⟨t, (hm t).mpr ht, hwork, fun v hv => halone v ((hm v).mp hv)⟩

/-- The other tasks go on by themselves. -/
theorem step (h : Awaits w turn) (hr : Roster w) (ht : t ∈ w.tasks)
    (hplain : ∀ e errands, t.work ≠ .errands (e :: errands)) (hturn : Turn s w t w') :
    Awaits w' turn := by
  have hold : ∀ {v e errands}, v ∈ w'.tasks → v.work = .errands (e :: errands) → v ∈ w.tasks := by
    intro v e errands hv hwork
    rcases errands_of_turn hr ht hturn hv hwork with ⟨hv, _⟩ | ⟨e₀, hwork⟩
    · exact hv
    · exact absurd hwork (hplain _ _)
  constructor
  case plain => exact fun hv hwork => h.plain (hold hv hwork) hwork
  case one => exact fun hv hv' hwork hwork' => h.one (hold hv hwork) (hold hv' hwork') hwork hwork'
  case waiting =>
    intro e he
    obtain ⟨v, hv, hwork, halone⟩ := h.waiting he
    have hne : v.id ≠ t.id := fun hid => hplain _ _ (hr.id_inj hv ht hid ▸ hwork)
    refine ⟨v, kept_of_turn hr ht hturn hv hne, hwork, fun x hx hm => ?_⟩
    rcases owners_of_turn hr ht hturn hx with ⟨x₀, hx₀, howners⟩ | howners
    · exact halone x₀ hx₀ (howners ▸ hm)
    · rw [howners] at hm
      rcases List.mem_cons.mp hm with hid | hm
      · exact hne hid
      · exact halone t ht hm

/-- The task that waited has done its errand. -/
theorem done (h : Awaits w turn) (hr : Roster w) (ht : t ∈ w.tasks) (hwork : t.work = .errands [e])
    (hturn : Turn s w t w') : Awaits w' none := by
  have hnone : ∀ {v e errands}, v ∈ w'.tasks → v.work ≠ .errands (e :: errands) := by
    intro v e' errands hv hv'
    rcases errands_of_turn hr ht hturn hv hv' with ⟨hv, hne⟩ | ⟨e₀, hold⟩
    · exact hne (congrArg Task.id (h.one hv ht hv' hwork))
    · rw [hwork] at hold
      cases hold
  exact ⟨fun hv hv' => absurd hv' (hnone hv), fun hv _ hv' _ => absurd hv' (hnone hv),
    fun he => by cases he⟩

/-- A click begins to wait. -/
theorem click (h : Awaits w none) (hr : Roster w) (e : Errand F) :
    Awaits (w.openErrands [] [e]).1 (some e) := by
  have hplain : ∀ {v e errands}, v ∈ w.tasks → v.work ≠ .errands (e :: errands) := fun hv hwork => by
    cases (h.plain hv hwork).2
  have hmem := fun {v} => mem_openErrands (w := w) (v := v) e
  have hone : ∀ {v e' errands}, v ∈ (w.openErrands [] [e]).1.tasks →
      v.work = .errands (e' :: errands) → v = ⟨w.nextTask, [], false, .errands [e]⟩ :=
    fun hv hwork => (hmem.mp hv).resolve_left fun hv => hplain hv hwork
  constructor
  case plain =>
    intro v e' errands hv hwork
    rw [hone hv hwork] at hwork
    cases hwork
    exact ⟨rfl, rfl⟩
  case one => exact fun hv hv' hwork hwork' => (hone hv hwork).trans (hone hv' hwork').symm
  case waiting =>
    rintro _ ⟨⟩
    refine ⟨_, hmem.mpr (.inr rfl), rfl, fun v hv hm => ?_⟩
    rcases hmem.mp hv with hv | rfl
    · obtain ⟨v', hv', hid, _⟩ := hr.suffix hv hm
      exact Nat.ne_of_lt (hr.id_lt hv') hid
    · cases hm

/-- A call that waits for what was taken up has no errands. -/
theorem called (hr : Roster w) (hidle : w.tasks = []) {v : World F α} {bs : List (List (Run F α))}
    (hm : Moved (w.enter []) ⟨w.nextTask, [], false, .errands []⟩ (.errands []) (bs.map .batch) v) :
    Awaits v none := by
  have hnone : ∀ {t e errands}, t ∈ v.tasks → t.work ≠ .errands (e :: errands) := by
    intro t e errands ht hwork
    rcases (hm.mem (hr.entered []) (mem_enter [])).mp ht with ⟨ht, hne⟩ | rfl | ht
    · simp only [enter, hidle, List.nil_append, List.mem_singleton] at ht
      exact hne (congrArg Task.id ht)
    · cases hwork
    · obtain ⟨i, hi, _⟩ := mem_number.mp ht
      obtain ⟨rs, _, hrs⟩ := List.mem_map.mp (List.mem_of_getElem? hi)
      rw [hwork] at hrs
      cases hrs
  exact ⟨fun ht hwork => absurd hwork (hnone ht), fun ht _ hwork _ => absurd hwork (hnone ht),
    fun he => by cases he⟩

end Awaits

end World

end Montage
