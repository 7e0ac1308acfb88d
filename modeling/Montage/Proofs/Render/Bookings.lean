import Montage.Proofs.Render.Nesting

/-!
Which configs are taken up into a container, by calls of the host or by a run that renders into its own
output, and which tasks render them. Main statement: what an act books is what it puts at the end of the
container, and the tasks for it are waited for.
-/

namespace Montage

open Json (Value)

variable {F α : Type}

/-- A config that was taken up into a container: the task that renders it, the one that waits for that
task, and the place held for it. -/
structure Booking (F : Type) where
  task : TaskId
  waiter : TaskId
  place : NodeId
  config : Config F

namespace Booking

/-- Configs taken up in a row. -/
def line (waiter : TaskId) : TaskId → NodeId → List (Config F) → List (Booking F)
  | _, _, [] => []
  | task, place, c :: cs => ⟨task, waiter, place, c.ensureView⟩ :: line waiter (task + 1) (place + 1) cs

variable [Medium α]

def ofRuns (waiter : TaskId) : TaskId → List (Run F α) → List (Booking F)
  | _, [] => []
  | task, r :: rs => ⟨task, waiter, r.place, r.config⟩ :: ofRuns waiter (task + 1) rs

variable {waiter first : TaskId} {rs : List (Run F α)} {b : Booking F} {w : World F α} {d : NodeId}

theorem mem_ofRuns : b ∈ ofRuns waiter first rs ↔
    ∃ i r, rs[i]? = some r ∧ b = ⟨first + i, waiter, r.place, r.config⟩ := by
  induction rs generalizing first with
  | nil => simp [ofRuns]
  | cons r rs ih =>
    rw [ofRuns, List.mem_cons, ih]
    constructor
    · rintro (rfl | ⟨i, r', hr', rfl⟩)
      · exact ⟨0, r, rfl, rfl⟩
      · exact ⟨i + 1, r', hr', by rw [Nat.succ_add_eq_add_succ]⟩
    · rintro ⟨i, r', hr', rfl⟩
      cases i with
      | zero =>
        cases hr'
        exact .inl rfl
      | succ i => exact .inr ⟨i, r', hr', by rw [Nat.succ_add_eq_add_succ]⟩

theorem map_task_ofRuns :
    (ofRuns waiter first rs).map task = List.range' first rs.length := by
  induction rs generalizing first with
  | nil => rfl
  | cons r rs ih => simp [ofRuns, ih, List.range'_succ]

theorem map_place_ofRuns : (ofRuns waiter first rs).map place = rs.map Run.place := by
  induction rs generalizing first with
  | nil => rfl
  | cons r rs ih => simp [ofRuns, ih]

/-- What is taken up is what was booked. -/
theorem line_takeUpAll (around : World.Surroundings) (cs : List (Config F)) :
    line waiter first w.scene.tree.next cs = ofRuns waiter first (w.takeUpAll d around cs).2 := by
  induction cs generalizing w first with
  | nil => rfl
  | cons c cs ih =>
    have hnext : (w.takeUp d around c).1.scene.tree.next = w.scene.tree.next + 1 :=
      Tree.next_attach
    have hrest : line waiter (first + 1) (w.takeUp d around c).1.scene.tree.next cs =
        ofRuns waiter (first + 1) ((w.takeUp d around c).1.takeUpAll d around cs).2 := ih
    rw [hnext] at hrest
    rw [line, hrest]
    rfl

end Booking

variable [Medium α]

/-- Comes to put something in a node other than configs that it waits for. -/
def Task.fills (t : Task F α) (c : NodeId) : Bool :=
  match t.work with
  | .run r => r.output? == some c && r.step?.any Step.fills
  | _ => false

namespace Act

/-- What an act books in a container. -/
def booked (s : Setup F α) (c : NodeId) (w : World F α) : Act F α → List (Booking F)
  | .render d raw _ _ =>
    if d = c then
      Booking.line w.nextTask (w.nextTask + 1) w.scene.tree.next (raw.normalize s.engine)
    else []
  | .renderConfig d k _ _ =>
    if d = c then Booking.line w.nextTask (w.nextTask + 1) w.scene.tree.next [k] else []
  | .step id =>
    match (w.task? id).map Task.work with
    | some (.run r) =>
      match r.step? with
      | some (.render raw _ _ _) =>
        if r.output? = some c then
          Booking.line id w.nextTask w.scene.tree.next (raw.normalize s.engine)
        else []
      | _ => []
    | _ => []
  | _ => []

/-- Renders configs somewhere. -/
def isRender : Act F α → Bool
  | .render .. | .renderConfig .. => true
  | _ => false

def isStepOf (id : TaskId) : Act F α → Bool
  | .step i => i == id
  | _ => false

/-- Leaves a container to the configs that are rendered into it: puts nothing else there, takes away or
changes none of its children, and lets no run but put configs there that it waits for. -/
structure Spares (w : World F α) (c : NodeId) (a : Act F α) : Prop where
  children : ∀ n ∈ a.discarded w ++ a.marked, w.scene.tree.parent? n ≠ some c
  containers : c ∈ a.containers w → a.isRender = true
  runs : ∀ t ∈ w.tasks, a.isStepOf t.id = true → t.fills c = false

instance (w : World F α) (c : NodeId) (a : Act F α) : Decidable (a.Spares w c) :=
  decidable_of_iff ((∀ n ∈ a.discarded w ++ a.marked, w.scene.tree.parent? n ≠ some c) ∧
      (c ∈ a.containers w → a.isRender = true) ∧
      ∀ t ∈ w.tasks, a.isStepOf t.id = true → t.fills c = false)
    ⟨fun ⟨h₁, h₂, h₃⟩ => ⟨h₁, h₂, h₃⟩, fun h => ⟨h.children, h.containers, h.runs⟩⟩

/-- A child of the container is neither discarded nor changed. -/
theorem Spares.child {w : World F α} {c x : NodeId} {a : Act F α} (h : a.Spares w c)
    (hx : w.scene.tree.parent? x = some c) : x ∉ a.discarded w ++ a.marked :=
  fun hm => h.children x hm hx

theorem Spares.step {w : World F α} {c : NodeId} {a : Act F α} {t : Task F α} {r : Run F α}
    {st : Step F α} (h : a.Spares w c) (hs : a.Steps w t r) (ho : r.output? = some c)
    (hst : r.step? = some st) : st.fills = false := by
  obtain ⟨ht, hwork, rfl⟩ := hs
  simpa [Task.fills, hwork, ho, hst] using h.runs t ht (by simp [isStepOf])

end Act

namespace World

/-- Runs were taken up at the end of a container, and tasks started for them that one task waits for. -/
structure Books (w w' : World F α) (c : NodeId) (waiter first : TaskId)
    (rs : List (Run F α)) : Prop where
  takes : Takes c w.scene w'.scene rs
  fresh : w.nextTask ≤ first
  next : first + rs.length ≤ w'.nextTask
  started : ∀ i r, rs[i]? = some r →
    ∃ t ∈ w'.tasks, t.id = first + i ∧ t.owner? = some waiter ∧ t.work = .run r
  only : ∀ t ∈ w'.tasks, w.nextTask ≤ t.id → t.work.places ≠ [] →
    ∃ i r, rs[i]? = some r ∧ t.id = first + i

variable {s : Setup F α} {w w' v : World F α} {a : Act F α} {t : Task F α} {r : Run F α}
  {c o : NodeId}

theorem books_of_moved {rs : List (Run F α)} {work : Work F α} {u : World F α} (h : Roster u)
    (ht : t ∈ u.tasks) (hu : ∀ v ∈ u.tasks, v.id ≠ t.id → v.id < w.nextTask)
    (hn : w.nextTask ≤ u.nextTask) (hm : Moved u t work (rs.map .run) w')
    (hwork : t.id < w.nextTask ∨ work.places = []) (htakes : Takes c w.scene w'.scene rs) :
    Books w w' c t.id u.nextTask rs where
  takes := htakes
  fresh := hn
  next := by simp [hm.next]
  started i r hr := by
    have hi : (rs.map Work.run)[i]? = some (.run r) := by simp [hr]
    obtain ⟨v, hv, hid, howners, hwork⟩ := hm.exists_new h ht hi
    exact ⟨v, hv, hid, by rw [Task.owner?, howners]; rfl, hwork⟩
  only v hv hge hpl := by
    rcases (hm.mem h ht).mp hv with ⟨hv, hne⟩ | rfl | hv
    · exact absurd (hu v hv hne) (Nat.not_lt.mpr hge)
    · rcases hwork with hlt | hnil
      · exact absurd hlt (Nat.not_lt.mpr hge)
      · exact absurd hnil hpl
    · obtain ⟨i, hi, hid, _⟩ := mem_number.mp hv
      rw [List.getElem?_map, Option.map_eq_some_iff] at hi
      obtain ⟨r, hr, _⟩ := hi
      exact ⟨i, r, hr, hid⟩

theorem books_of_call {rs : List (Run F α)} (h : Roster w) (hv : SameTasks w v)
    (htakes : Takes c w.scene v.scene rs) :
    Books w (v.openRuns rs).1 c w.nextTask (w.nextTask + 1) rs := by
  have hm := moved_of_called h hv [] (rs.map Work.run)
  refine books_of_moved (h.entered []) (mem_enter []) ?_
    (Nat.le_succ _) hm (.inr rfl) htakes
  intro u hu hne
  rcases List.mem_append.mp hu with hu | hu
  · exact h.id_lt hu
  · exact absurd (congrArg Task.id (List.mem_singleton.mp hu)) hne

/-- An act that may put configs in a container books them, or it does not work on the container. -/
theorem books_of_act (h : Sound w) (ha : a.Known w.scene.tree.next) (hspares : a.Spares w c)
    (hact : w.act s a = some w') :
    (∃ waiter first rs, a.booked s c w = Booking.ofRuns waiter first rs ∧
      Books w w' c waiter first rs ∧ ∀ t r o, ¬a.Ends w w' t r o) ∨
    a.booked s c w = [] ∧ c ∉ a.containers w ∧
      ¬∃ t r, a.Steps w t r ∧ r.output? = some c ∧ r.grows := by
  have hl := h.linked
  have hnot : a.isRender = false → a.booked s c w = [] →
      (¬∃ t r, a.Steps w t r ∧ r.output? = some c ∧ r.grows) → a.booked s c w = [] ∧
        c ∉ a.containers w ∧ ¬∃ t r, a.Steps w t r ∧ r.output? = some c ∧ r.grows := by
    refine fun hr hb hs => ⟨hb, fun hm => ?_, hs⟩
    rw [hspares.containers hm] at hr
    cases hr
  have hidle : (∀ id, a ≠ .step id) → ¬∃ t r, a.Steps w t r ∧ r.output? = some c ∧ r.grows := by
    rintro hne ⟨t, r, ⟨_, _, rfl⟩, _⟩
    exact hne _ rfl
  cases a with
  | render d raw data context =>
    cases hact
    by_cases hd : d = c
    · subst hd
      have ht := takes_takeUpAll (w := w) ⟨data, context, none⟩ (raw.normalize s.engine) hl ha
      refine .inl ⟨_, _, _, ?_, books_of_call h.roster (sameTasks_takeUpAll d _ _) ht, ?_⟩
      · exact (if_pos rfl).trans (Booking.line_takeUpAll ..)
      · rintro t r o ⟨⟨_, _, hstep⟩, _⟩
        cases hstep
    · exact .inr ⟨if_neg hd, by simpa [Act.containers] using Ne.symm hd, hidle (by simp)⟩
  | renderConfig d k data context =>
    cases hact
    by_cases hd : d = c
    · subst hd
      have ht := takes_takeUp (w := w) hl ha ⟨data, context, none⟩ k
      refine .inl ⟨_, _, _, ?_, books_of_call (v := (w.takeUp d ⟨data, context, none⟩ k).1) h.roster
        ⟨rfl, rfl, rfl, rfl⟩ ht, ?_⟩
      · exact (if_pos rfl).trans (Booking.line_takeUpAll (d := d) ⟨data, context, none⟩ [k])
      · rintro t r o ⟨⟨_, _, hstep⟩, _⟩
        cases hstep
    · exact .inr ⟨if_neg hd, by simpa [Act.containers] using Ne.symm hd, hidle (by simp)⟩
  | step i =>
    by_cases hex : ∃ t r, (Act.step i).Steps w t r ∧ r.output? = some c ∧ r.grows
    · obtain ⟨t, r, hstep, ho, st, hst, hfills⟩ := hex
      obtain ⟨ht, hwork, hid⟩ := id hstep
      cases hid
      have hrender : ∃ raw data context item, st = .render raw data context item := by
        refine hfills.resolve_left fun hf => ?_
        rw [hspares.step hstep ho hst] at hf
        cases hf
      obtain ⟨raw, data, context, item, rfl⟩ := hrender
      obtain ⟨hscene, phase, hm⟩ := moved_of_render (h.roster.task? ht) hwork ho hst hact
      have hout : c < w.scene.tree.next := h.output_lt ht (hwork ▸ ho)
      have htakes := takes_takeUpAll (w := w) ⟨data, context, item⟩ (raw.normalize s.engine) hl hout
      refine .inl ⟨t.id, w.nextTask, _, ?_, books_of_moved h.roster ht (fun u hu _ => h.roster.id_lt hu)
        (Nat.le_refl _) hm (.inl (h.roster.id_lt ht)) (hscene ▸ htakes), ?_⟩
      · simp only [Act.booked, h.roster.task? ht, Option.map_some, hwork, hst, ho, ↓reduceIte]
        exact Booking.line_takeUpAll ..
      · rintro u q o ⟨⟨hu, _, hid⟩, settled⟩
        have := h.roster.id_inj ht hu (Act.step.inj hid)
        subst this
        exact hm.not_settled h.roster ht settled
    · refine .inr (hnot rfl ?_ hex)
      simp only [Act.booked]
      split
      · rename_i r hr
        split
        · rename_i raw data context item hst
          refine if_neg fun ho => hex ?_
          obtain ⟨t, ht, hwork⟩ := Option.map_eq_some_iff.mp hr
          obtain ⟨hm, hid⟩ := task?_eq_some ht
          exact ⟨t, r, ⟨hm, hwork, by rw [hid]⟩, ho, _, hst, .inr ⟨_, _, _, _, rfl⟩⟩
        · rfl
      · rfl
  | _ => exact .inr (hnot rfl rfl (hidle (by simp)))

end World

end Montage
