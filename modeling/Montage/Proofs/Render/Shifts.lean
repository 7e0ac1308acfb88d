import Montage.Proofs.Render.Soundness

/-!
How the tasks under way change in an act. Main statements: `Shift` names what can happen to them, every
act does one of these, and the places of new tasks are new or those of the batch they come from.
-/

namespace Montage

variable {F α : Type} [Medium α]

namespace World

/-- New work: it paints nothing yet, and its places are old ones of its kind or new, and then in a node
of the given kind. -/
structure Fresh (w w' : World F α) (old : List NodeId) (Q : NodeId → Prop) (k : Work F α) :
    Prop where
  unpainted : k.output? = none
  places : ∀ p ∈ k.places, p ∈ old ∨
    w.scene.tree.next ≤ p ∧ ∀ q, w'.scene.tree.parent? p = some q → Q q

/-- What happens to the tasks in an act. -/
inductive Shift (w w' : World F α) : Act F α → Prop
  | stays {a : Act F α} (mem : ∀ u, u ∈ w'.tasks ↔ u ∈ w.tasks) (next : w'.nextTask = w.nextTask)
      (outcomes : w'.outcomes = w.outcomes) (finished : w'.finished = w.finished) : Shift w w' a
  /-- A call is entered and waits for its work. -/
  | calls {a : Act F α} {es : List (Errand F)} {works : List (Work F α)}
      (moved : Moved (w.enter es) ⟨w.nextTask, [], false, .errands es⟩ (.errands es) works w')
      (fresh : ∀ k ∈ works, Fresh w w' [] (· ∈ a.containers w) k) : Shift w w' a
  /-- A run goes on, and perhaps waits for new tasks in its output. -/
  | goes {t : Task F α} {r : Run F α} {phase : Phase F α} {works : List (Work F α)}
      (mem : t ∈ w.tasks) (alone : w.hasChildren t.id = false) (work : t.work = .run r)
      (output : Run.output? { r with phase := phase } = r.output? ∨ r.output? = none ∧
        Run.output? { r with phase := phase } = some w.scene.tree.next ∧ ∃ shape,
          w'.scene = (w.withTree (w.scene.tree.create (Medium.output shape)).1).scene)
      (moved : Moved w t (.run { r with phase := phase }) works w')
      (fresh : ∀ k ∈ works, Fresh w w' [] (fun q => r.output? = some q ∧ r.grows) k) :
      Shift w w' (.step t.id)
  /-- A batch or a call goes on. -/
  | turns {t : Task F α} {work : Work F α} {works : List (Work F α)}
      (mem : t ∈ w.tasks) (alone : w.hasChildren t.id = false) (idle : ¬t.work.IsRun)
      (rest : ¬work.IsRun) (empty : work.places = []) (moved : Moved w t work works w')
      (fresh : ∀ k ∈ works, Fresh w w' t.work.places (· ∈ (Act.step t.id).containers w) k)
      (calls : t.owners = [] ∨ ∀ k ∈ works, ∀ p ∈ k.places, p ∈ t.work.places) :
      Shift w w' (.step t.id)
  | settles {t : Task F α} {r : Run F α} {o : Outcome} (mem : t ∈ w.tasks)
      (alone : w.hasChildren t.id = false) (work : t.work = .run r) (settled : Settled w t o w') :
      Shift w w' (.step t.id)
  | ends {t : Task F α} (mem : t ∈ w.tasks) (alone : w.hasChildren t.id = false)
      (idle : ¬t.work.IsRun) (ended : Ended w t w') : Shift w w' (.step t.id)

variable {s : Setup F α} {w w' v : World F α} {a : Act F α} {t u : Task F α} {r : Run F α}
  {p q x : NodeId} {d : NodeId} {old : List NodeId} {Q : NodeId → Prop}

theorem Fresh.of_reserved {rs : List (Run F α)} {k : Work F α}
    (h : Reserves d w.scene w'.scene rs) (hd : Q d) (hk : k.output? = none)
    (hp : ∀ p ∈ k.places, p ∈ rs.map Run.place) : Fresh w w' old Q k where
  unpainted := hk
  places p hm := by
    obtain ⟨r, hr, rfl⟩ := List.mem_map.mp (hp p hm)
    exact .inr ⟨(h.fresh r hr).1, fun q hq => h.parent r hr q hq ▸ hd⟩

theorem fresh_of_runs {rs : List (Run F α)} (h : Reserves d w.scene w'.scene rs) (hd : Q d) :
    ∀ k ∈ rs.map Work.run, Fresh w w' old Q k := by
  intro k hk
  obtain ⟨r, hr, rfl⟩ := List.mem_map.mp hk
  refine .of_reserved h hd (h.unpainted r hr) fun p hp => ?_
  exact List.mem_singleton.mp hp ▸ List.mem_map_of_mem hr

theorem fresh_of_batches {bs : List (List (Run F α))}
    (h : Reserves d w.scene w'.scene bs.flatten) (hd : Q d) :
    ∀ k ∈ bs.map Work.batch, Fresh w w' old Q k := by
  intro k hk
  obtain ⟨b, hb, rfl⟩ := List.mem_map.mp hk
  refine .of_reserved h hd rfl fun p hp => ?_
  obtain ⟨r, hr, rfl⟩ := List.mem_map.mp hp
  exact List.mem_map_of_mem (List.mem_flatten.mpr ⟨b, hb, hr⟩)

theorem moved_of_called (h : Roster w) (hv : SameTasks w v) (es : List (Errand F))
    (works : List (Work F α)) :
    Moved (w.enter es) ⟨w.nextTask, [], false, .errands es⟩ (.errands es) works
      (v.openCall works es).1 := by
  have hr : Roster v := h.perm (fun _ => hv.tasks ▸ Iff.rfl) hv.next hv.outcomes
  have hm := hr.opened es works
  rw [hv.next] at hm
  refine ⟨hm.tasks.trans ?_, hm.next.trans ?_, hm.outcomes.trans hv.outcomes,
    hm.finished.trans hv.finished⟩ <;> simp [World.enter, hv.tasks, hv.next]

theorem shift_of_turn (h : Sound w) (ht : t ∈ w.tasks) (hc : w.hasChildren t.id = false)
    (hturn : Turn s w t w') : Shift w w' (.step t.id) := by
  have hl := h.linked
  cases hturn with
  | waits r phase work output scene moved => exact .goes ht hc work (.inl output) moved (by simp)
  | begins r phase shape work fresh output scene moved =>
    exact .goes ht hc work (.inr ⟨fresh, output, shape, scene⟩) moved (by simp)
  | draws r o phase work painting output step script drawn moved =>
    exact .goes ht hc work (.inl (output.trans painting.symm)) moved (by simp)
  | nests r o phase raw around work painting output script scene moved =>
    have ho : t.work.output? = some o := work ▸ painting
    have hr := (h.takes_own ht ho s around raw).reserves
    exact .goes ht hc work (.inl (output.trans painting.symm)) moved
      (fresh_of_runs (scene ▸ hr) ⟨painting, _, script, .inr ⟨_, _, _, _, rfl⟩⟩)
  | starts r o phase raw around work painting output script scene moved =>
    exact .goes ht hc work (.inl (output.trans painting.symm)) moved (by simp)
  | lists r o phase page work painting output script own scene moved =>
    have ho : t.work.output? = some o := work ▸ painting
    have hr := (h.takesList_own ht ho s own).reserves
    exact .goes ht hc work (.inl (output.trans painting.symm)) moved
      (fresh_of_batches (scene ▸ hr) ⟨painting, _, script, .inl rfl⟩)
  | skips r work fresh scene settled => exact .settles ht hc work settled
  | fails r e offending o work fresh wrong scene settled => exact .settles ht hc work settled
  | abandons r o e work painting scene settled => exact .settles ht hc work settled
  | completes r o p work painting scene settled => exact .settles ht hc work settled
  | expands rs work scene moved =>
    have hold : ∀ k ∈ rs.map Work.run, ∀ p ∈ k.places, p ∈ t.work.places := by
      intro k hk p hp
      obtain ⟨r, hr, rfl⟩ := List.mem_map.mp hk
      rw [work, List.mem_singleton.mp hp]
      exact List.mem_map_of_mem hr
    refine .turns ht hc (not_isRun (by simp [work])) (not_isRun (by simp)) rfl moved
      (fun k hk => ?_) (.inr hold)
    refine ⟨?_, fun p hp => .inl (hold k hk p hp)⟩
    obtain ⟨r, hr, rfl⟩ := List.mem_map.mp hk
    exact h.unpainted ht work hr
  | passes e es work scene moved =>
    exact .turns ht hc (not_isRun (by simp [work])) (not_isRun (by simp)) rfl moved (by simp)
      (.inr (by simp))
  | turns wrapper container page all es work scene moved =>
    have hr := (h.takesList_turn ht work s).reserves
    rw [← scene] at hr
    have hnext : (w.discard wrapper).scene.tree.next = w.scene.tree.next :=
      (Tree.Pruned.remove hl wrapper).next
    refine .turns ht hc (not_isRun (by simp [work])) (not_isRun (by simp)) rfl moved
      (fun k hk => ?_) (.inl (h.roster.calls ht work))
    have hfresh : Fresh (w.discard wrapper) w' t.work.places
        (· ∈ (Act.step t.id).containers w) k :=
      fresh_of_batches hr (by simp [Act.containers, h.roster.task? ht, work]) k hk
    exact ⟨hfresh.unpainted, hnext ▸ hfresh.places⟩
  | ends work scene ended =>
    refine .ends ht hc (not_isRun ?_) ended
    rcases work with work | work <;> simp [work]

/-- Every act does to the tasks one of these things. -/
theorem shift_of_act (h : Sound w) (ha : a.Known w.scene.tree.next) (hact : w.act s a = some w') :
    Shift w w' a := by
  have hr := h.roster
  have hl := h.linked
  have hstay : SameTasks w w' → Shift w w' a := fun hs =>
    .stays (fun _ => hs.tasks ▸ Iff.rfl) hs.next hs.outcomes hs.finished
  cases a with
  | render d raw data context =>
    cases hact
    have ht := takes_takeUpAll (w := w) ⟨data, context, none⟩ (raw.normalize s.engine) hl ha
    exact .calls (moved_of_called hr (sameTasks_takeUpAll d _ _) [] _)
      (fresh_of_runs (d := d) ht.reserves (by simp [Act.containers]))
  | renderConfig d c data context =>
    cases hact
    have ht := takes_takeUp (w := w) hl ha ⟨data, context, none⟩ c
    exact .calls (moved_of_called (v := (w.takeUp d ⟨data, context, none⟩ c).1) hr
      ⟨rfl, rfl, rfl, rfl⟩ [] _) (fresh_of_runs (d := d) ht.reserves (by simp [Act.containers]))
  | renderList d page =>
    cases hact
    have ht := takes_takeUpList (w := w) s page false hl ha.1 ha.2
    exact .calls (moved_of_called hr (sameTasks_takeUpList d page false) [] _)
      (fresh_of_batches (d := d) ht.reserves (by simp [Act.containers]))
  | click n =>
    simp only [World.act, World.click] at hact
    split at hact
    · cases hact
      exact .calls (moved_of_called hr (.refl w) [] []) (by simp)
    · rename_i c _
      cases hact
      exact .calls (moved_of_called (v := { w with reported := c.events.reverse ++ w.reported }) hr
        ⟨rfl, rfl, rfl, rfl⟩ c.errands []) (by simp)
  | discard n => cases hact; exact hstay ⟨rfl, rfl, rfl, rfl⟩
  | create item => cases hact; exact hstay ⟨rfl, rfl, rfl, rfl⟩
  | plant d rose => cases hact; exact hstay ⟨rfl, rfl, rfl, rfl⟩
  | mark n m => cases hact; exact hstay ⟨rfl, rfl, rfl, rfl⟩
  | popup n => cases hact; exact hstay ⟨rfl, rfl, rfl, rfl⟩
  | define v =>
    simp only [World.act] at hact
    split at hact
    · cases hact
      exact hstay ⟨rfl, rfl, rfl, rfl⟩
    · cases hact
  | release g => cases hact; exact .stays (fun u => mem_release g) rfl rfl rfl
  | note ts => cases hact; exact hstay (noteWaiting_frame (w := w) ts).2
  | step id =>
    obtain ⟨t, ht, rfl, hc, hturn⟩ := turn_of_step hact
    exact shift_of_turn h ht hc hturn

namespace Shift

/-- Tasks go on under their names and owners, and new ones have new names. -/
theorem origin (hs : Shift w w' a) (h : Roster w) (hu : u ∈ w'.tasks) :
    (∃ v ∈ w.tasks, v.id = u.id ∧ v.owners = u.owners ∧
        (u.work.IsRun → v.work.IsRun) ∧ ∀ p ∈ u.work.places, p ∈ v.work.places) ∨
      w.nextTask ≤ u.id ∧ u.work.output? = none ∧
        ∀ p ∈ u.work.places, (∃ v ∈ w.tasks, ¬v.work.IsRun ∧ p ∈ v.work.places ∧
            u.owners = v.id :: v.owners) ∨
          w.scene.tree.next ≤ p ∧
            ((∃ v ∈ w'.tasks, ¬v.work.IsRun ∧ u.owners = [v.id] ∧
                ∀ q, w'.scene.tree.parent? p = some q → q ∈ a.containers w) ∨
              ∃ v ∈ w.tasks, ∃ r, a = .step v.id ∧ v.work = .run r ∧ u.owners = v.id :: v.owners ∧
                ∀ q, w'.scene.tree.parent? p = some q → r.output? = some q ∧ r.grows) := by
  cases hs with
  | stays mem next outcomes finished =>
    exact .inl ⟨u, (mem u).mp hu, rfl, rfl, id, fun p hp => hp⟩
  | @calls a es works moved fresh =>
    have hr := h.entered es
    rcases (moved.mem hr (mem_enter es)).mp hu with ⟨hu, hne⟩ | rfl | hu
    · rcases List.mem_append.mp hu with hu | hu
      · exact .inl ⟨u, hu, rfl, rfl, id, fun p hp => hp⟩
      · exact absurd (congrArg Task.id (List.mem_singleton.mp hu)) hne
    · exact .inr ⟨Nat.le_refl _, rfl, fun p hp => nomatch hp⟩
    · obtain ⟨i, hi, hid, ho, _⟩ := mem_number.mp hu
      have hf := fresh _ (List.mem_of_getElem? hi)
      refine .inr ⟨?_, hf.unpainted, fun p hp => ?_⟩
      · rw [hid]
        exact Nat.le_trans (Nat.le_succ _) (Nat.le_add_right _ _)
      · rcases hf.places p hp with hp | ⟨hge, hq⟩
        · cases hp
        · have hcall := (moved.mem hr (mem_enter es)).mpr (.inr (.inl rfl))
          exact .inr ⟨hge, .inl ⟨_, hcall, not_isRun (by simp), ho, hq⟩⟩
  | @goes t r phase works mem alone work output moved fresh =>
    rcases (moved.mem h mem).mp hu with ⟨hu, _⟩ | rfl | hu
    · exact .inl ⟨u, hu, rfl, rfl, id, fun p hp => hp⟩
    · exact .inl ⟨t, mem, rfl, rfl, fun _ => ⟨r, work⟩, fun p hp => by rw [work]; exact hp⟩
    · obtain ⟨i, hi, hid, ho, _⟩ := mem_number.mp hu
      have hf := fresh _ (List.mem_of_getElem? hi)
      refine .inr ⟨hid ▸ Nat.le_add_right _ _, hf.unpainted, fun p hp => ?_⟩
      rcases hf.places p hp with hp | ⟨hge, hq⟩
      · cases hp
      · exact .inr ⟨hge, .inr ⟨t, mem, r, rfl, work, ho, hq⟩⟩
  | @turns t work works mem alone idle rest empty moved fresh calls =>
    rcases (moved.mem h mem).mp hu with ⟨hu, _⟩ | rfl | hu
    · exact .inl ⟨u, hu, rfl, rfl, id, fun p hp => hp⟩
    · refine .inl ⟨t, mem, rfl, rfl, fun hrun => absurd hrun rest, fun p hp => ?_⟩
      rw [show (work.places : List NodeId) = [] from empty] at hp
      cases hp
    · obtain ⟨i, hi, hid, ho, _⟩ := mem_number.mp hu
      have hk := List.mem_of_getElem? hi
      have hf := fresh _ hk
      refine .inr ⟨hid ▸ Nat.le_add_right _ _, hf.unpainted, fun p hp => ?_⟩
      rcases hf.places p hp with hp | ⟨hge, hq⟩
      · exact .inl ⟨t, mem, idle, hp, ho⟩
      · rcases calls with hcall | hold
        · have hmem := (moved.mem h mem).mpr (.inr (.inl rfl))
          exact .inr ⟨hge, .inl ⟨_, hmem, rest, hcall ▸ ho, hq⟩⟩
        · exact .inl ⟨t, mem, idle, hold _ hk p hp, ho⟩
  | settles mem alone work settled =>
    exact .inl ⟨u, (List.mem_filter.mp (settled.tasks ▸ hu)).1, rfl, rfl, id, fun p hp => hp⟩
  | ends mem alone idle ended =>
    exact .inl ⟨u, (List.mem_filter.mp (ended.tasks ▸ hu)).1, rfl, rfl, id, fun p hp => hp⟩

/-- No task paints into another node than before, except that a run begins to paint into a new one. -/
theorem output (hs : Shift w w' a) (h : Roster w) (hu : u ∈ w'.tasks)
    (ho : u.work.output? = some x) :
    (∃ v ∈ w.tasks, v.id = u.id ∧ v.owners = u.owners ∧ v.work.output? = some x) ∨
      x = w.scene.tree.next ∧ a = .step u.id ∧ (∃ shape,
        w'.scene = (w.withTree (w.scene.tree.create (Medium.output shape)).1).scene) ∧
        ∃ v ∈ w.tasks, v.id = u.id ∧ v.owners = u.owners := by
  cases hs with
  | stays mem next outcomes finished => exact .inl ⟨u, (mem u).mp hu, rfl, rfl, ho⟩
  | @calls a es works moved fresh =>
    have hr := h.entered es
    rcases (moved.mem hr (mem_enter es)).mp hu with ⟨hu, hne⟩ | rfl | hu
    · rcases List.mem_append.mp hu with hu | hu
      · exact .inl ⟨u, hu, rfl, rfl, ho⟩
      · exact absurd (congrArg Task.id (List.mem_singleton.mp hu)) hne
    · cases ho
    · obtain ⟨i, hi, _⟩ := mem_number.mp hu
      rw [(fresh _ (List.mem_of_getElem? hi)).unpainted] at ho
      cases ho
  | @goes t r phase works mem alone work output moved fresh =>
    rcases (moved.mem h mem).mp hu with ⟨hu, _⟩ | rfl | hu
    · exact .inl ⟨u, hu, rfl, rfl, ho⟩
    · have ho : Run.output? { r with phase := phase } = some x := ho
      rcases output with hout | ⟨_, hout, hscene⟩
      · exact .inl ⟨t, mem, rfl, rfl, by rw [work]; exact hout.symm.trans ho⟩
      · rw [hout] at ho
        exact .inr ⟨(Option.some.inj ho).symm, rfl, hscene, t, mem, rfl, rfl⟩
    · obtain ⟨i, hi, _⟩ := mem_number.mp hu
      rw [(fresh _ (List.mem_of_getElem? hi)).unpainted] at ho
      cases ho
  | @turns t work works mem alone idle rest empty moved fresh calls =>
    rcases (moved.mem h mem).mp hu with ⟨hu, _⟩ | rfl | hu
    · exact .inl ⟨u, hu, rfl, rfl, ho⟩
    · cases work with
      | run r => exact absurd ⟨r, rfl⟩ rest
      | batch rs => cases ho
      | errands es => cases ho
    · obtain ⟨i, hi, _⟩ := mem_number.mp hu
      rw [(fresh _ (List.mem_of_getElem? hi)).unpainted] at ho
      cases ho
  | settles mem alone work settled =>
    exact .inl ⟨u, (List.mem_filter.mp (settled.tasks ▸ hu)).1, rfl, rfl, ho⟩
  | ends mem alone idle ended =>
    exact .inl ⟨u, (List.mem_filter.mp (ended.tasks ▸ hu)).1, rfl, rfl, ho⟩

/-- A task is as it was after every act but its own step. -/
theorem kept (hs : Shift w w' a) (h : Roster w) (ht : t ∈ w.tasks) (hne : a ≠ .step t.id) :
    t ∈ w'.tasks := by
  have hother : ∀ {u : Task F α}, (Act.step u.id : Act F α) ≠ .step t.id → t.id ≠ u.id :=
    fun hne hid => hne (congrArg Act.step hid.symm)
  cases hs with
  | stays mem next outcomes finished => exact (mem t).mpr ht
  | @calls a es works moved fresh =>
    refine (moved.mem (h.entered es) (mem_enter es)).mpr (.inl ⟨List.mem_append_left _ ht, ?_⟩)
    exact Nat.ne_of_lt (h.id_lt ht)
  | goes mem alone work output moved fresh =>
    exact (moved.mem h mem).mpr (.inl ⟨ht, hother hne⟩)
  | turns mem alone idle rest empty moved fresh calls =>
    exact (moved.mem h mem).mpr (.inl ⟨ht, hother hne⟩)
  | settles mem alone work settled =>
    exact settled.tasks ▸ List.mem_filter.mpr ⟨ht, bne_iff_ne.mpr (hother hne)⟩
  | ends mem alone idle ended =>
    exact ended.tasks ▸ List.mem_filter.mpr ⟨ht, bne_iff_ne.mpr (hother hne)⟩

/-- A run goes on with its config, its place and its output, or it is the one that ends. -/
theorem run (hs : Shift w w' a) (h : Roster w) (ht : t ∈ w.tasks) (hwork : t.work = .run r) :
    (∃ phase, { t with work := .run { r with phase := phase } } ∈ w'.tasks ∧
        ∀ x, r.output? = some x → Run.output? { r with phase := phase } = some x) ∨
      a = .step t.id ∧ ∃ o, Settled w t o w' := by
  have hsame : ({ t with work := .run { r with phase := r.phase } } : Task F α) = t := by
    rw [show ({ r with phase := r.phase } : Run F α) = r from rfl, ← hwork]
  have hold : t ∈ w'.tasks → ∃ phase, { t with work := .run { r with phase := phase } } ∈ w'.tasks ∧
      ∀ x, r.output? = some x → Run.output? { r with phase := phase } = some x :=
    fun hm => ⟨r.phase, hsame.symm ▸ hm, fun _ ho => ho⟩
  cases hs with
  | stays mem next outcomes finished => exact .inl (hold ((mem t).mpr ht))
  | @calls a es works moved fresh =>
    have hr := h.entered es
    refine .inl (hold ((moved.mem hr (mem_enter es)).mpr (.inl ⟨List.mem_append_left _ ht, ?_⟩)))
    exact Nat.ne_of_lt (h.id_lt ht)
  | @goes u q phase works mem alone work output moved fresh =>
    by_cases hid : t.id = u.id
    · have := h.id_inj ht mem hid
      subst this
      rw [hwork] at work
      cases work
      refine .inl ⟨phase, (moved.mem h ht).mpr (.inr (.inl rfl)), fun x hx => ?_⟩
      rcases output with hout | ⟨hnone, _⟩
      · exact hout.trans hx
      · rw [hnone] at hx
        cases hx
    · exact .inl (hold ((moved.mem h mem).mpr (.inl ⟨ht, hid⟩)))
  | @turns u work works mem alone idle rest empty moved fresh calls =>
    refine .inl (hold ((moved.mem h mem).mpr (.inl ⟨ht, fun hid => idle ?_⟩)))
    exact h.id_inj ht mem hid ▸ ⟨r, hwork⟩
  | @settles u q o mem alone work settled =>
    by_cases hid : t.id = u.id
    · have := h.id_inj ht mem hid
      subst this
      exact .inr ⟨rfl, o, settled⟩
    · exact .inl (hold (settled.tasks ▸ List.mem_filter.mpr ⟨ht, by simpa using hid⟩))
  | @ends u mem alone idle ended =>
    refine .inl (hold (ended.tasks ▸ List.mem_filter.mpr ⟨ht, ?_⟩))
    have hne : t.id ≠ u.id := fun hid => idle (h.id_inj ht mem hid ▸ ⟨r, hwork⟩)
    simpa using hne

theorem next_le (hs : Shift w w' a) : w.nextTask ≤ w'.nextTask := by
  cases hs with
  | stays mem next outcomes finished => exact Nat.le_of_eq next.symm
  | calls moved fresh =>
    rw [moved.next]
    exact Nat.le_trans (Nat.le_succ _) (Nat.le_add_right _ _)
  | goes mem alone work output moved fresh => exact moved.next ▸ Nat.le_add_right _ _
  | turns mem alone idle rest empty moved fresh calls => exact moved.next ▸ Nat.le_add_right _ _
  | settles mem alone work settled => exact Nat.le_of_eq settled.next.symm
  | ends mem alone idle ended => exact Nat.le_of_eq ended.next.symm

/-- Outcomes are noted once, when a run ends. -/
theorem outcomes (hs : Shift w w' a) : w'.outcomes = w.outcomes ∨
    ∃ t ∈ w.tasks, ∃ o, t.work.IsRun ∧ a = .step t.id ∧ Settled w t o w' := by
  cases hs with
  | stays mem next outcomes finished => exact .inl outcomes
  | calls moved fresh => exact .inl moved.outcomes
  | goes mem alone work output moved fresh => exact .inl moved.outcomes
  | turns mem alone idle rest empty moved fresh calls => exact .inl moved.outcomes
  | settles mem alone work settled => exact .inr ⟨_, mem, _, ⟨_, work⟩, rfl, settled⟩
  | ends mem alone idle ended => exact .inl ended.outcomes

theorem outcome_kept (hs : Shift w w' a) (h : Roster w) {id : TaskId} {o : Outcome}
    (ho : w.outcomeOf? id = some o) : w'.outcomeOf? id = some o := by
  rcases hs.outcomes with heq | ⟨t, ht, o', _, _, settled⟩
  · rw [outcomeOf?, heq]
    exact ho
  · rw [outcomeOf?, settled.outcomes, Table.get?_insert, if_neg]
    · exact ho
    · exact fun hid => (h.settled ho).2 t ht hid.symm

/-- A call is noted as finished when its task ends. -/
theorem finished (hs : Shift w w' a) : w'.finished = w.finished ∨
    ∃ t ∈ w.tasks, w'.finished = t.id :: w.finished ∧ ∀ u ∈ w'.tasks, u.id ≠ t.id := by
  cases hs with
  | stays mem next outcomes finished => exact .inl finished
  | calls moved fresh => exact .inl moved.finished
  | goes mem alone work output moved fresh => exact .inl moved.finished
  | turns mem alone idle rest empty moved fresh calls => exact .inl moved.finished
  | settles mem alone work settled => exact .inl settled.finished
  | ends mem alone idle ended =>
    refine ended.finished.imp_right fun hf => ⟨_, mem, hf, fun u hu => ?_⟩
    rw [ended.tasks] at hu
    exact bne_iff_ne.mp (List.mem_filter.mp hu).2

end Shift

end World

end Montage
