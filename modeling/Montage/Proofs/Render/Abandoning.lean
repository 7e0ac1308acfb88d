import Montage.Proofs.Arena.Shown
import Montage.Proofs.Render.Discarding

/-!
Runs that fail while they paint. Whatever a run has painted and has had rendered in its output goes when
it fails, and an error stands where its place was. Main statement: apart from that all is as it was when
the view was asked to paint; only a place whose container is gone is left behind.
-/

namespace Montage

variable {F α : Type}

/-- What stands under an output that is no fragment stands under it in its place too. -/
theorem Tree.Spliced.path_self {t t' : Tree α} {p q o x : NodeId} (h : Spliced p q o false t t')
    (hu : t.Under o x) (hx : t'.contains x) : t'.Under o x := by
  refine hu.kept h.after hx fun y b hy hl => ?_
  rw [h.parent hl, if_neg, hy]
  intro hm
  rw [List.mem_singleton.mp hm, h.ready.root] at hy
  cases hy

variable [Medium α]

namespace Scene

/-- An output was taken back and an error put in the place held for it; apart from these the nodes are
those that were there before, and where they were. -/
structure Withdrawn (p o : NodeId) (e : Error) (s s' : Scene F α) : Prop where
  kept : ∀ {x}, s.tree.contains x → s'.tree.contains x →
    s'.tree.get? x = s.tree.get? x ∧ s'.tree.parent? x = s.tree.parent? x ∧
      (s.tree.parent? p ≠ some x → s'.tree.children x = s.tree.children x)
  attached : ∀ {q}, s.tree.parent? p = some q → ∃ n, s.tree.next ≤ n ∧
    s'.tree.subtree? n = some (Medium.failure e none) ∧
    s'.tree.children q = Tree.putAt p [n] (s.tree.children q) ∧
    ∀ x, s'.tree.contains x ↔ s.tree.contains x ∧ ¬s.tree.Under p x ∧ x ≠ o ∨
      s'.tree.contains x ∧ s'.tree.Under n x
  detached : s.tree.parent? p = none → ∀ x, s'.tree.contains x ↔ s.tree.contains x ∧ x ≠ o

variable {s s' s'' : Scene F α} {p q o x : NodeId}

omit [Medium α] in
theorem Intact.trans (h : Intact s s' x) (h' : Intact s' s'' x) : Intact s s'' x :=
  ⟨h'.live, h'.item.trans h.item, h'.parent.trans h.parent, h'.children.trans h.children⟩

variable [LawfulMedium α]

/-- A failure leaves all nodes alone but those at its place. -/
theorem live_of_failure (e : Error) (h : s.tree.Linked) (hp : p < s.tree.next) :
    (s.tree.parent? p = none → ∀ x, (s.fillWithError p e none).tree.contains x ↔ s.tree.contains x) ∧
      ∀ q, s.tree.parent? p = some q → ∀ x, (s.fillWithError p e none).tree.contains x ↔
        s.tree.contains x ∧ ¬s.tree.Under p x ∨
          (s.fillWithError p e none).tree.contains x ∧
            (s.fillWithError p e none).tree.Under s.tree.next x := by
  have hf := fillWithError_filled e none h hp
  generalize s.fillWithError p e none = s' at hf
  cases hf with
  | @kept q' t₁ attached root spliced =>
    refine ⟨fun hnone => (by simp [attached] at hnone), fun q _ x => ?_⟩
    have hold : x < s.tree.next →
        (s'.tree.contains x ↔ s.tree.contains x ∧ ¬s.tree.Under p x) := by
      intro hx
      rw [spliced.live, root.grown.live hx]
      constructor
      · exact fun ⟨hl, hu, _⟩ => ⟨hl, fun hu' => hu (root.grown.path hu' hl)⟩
      · exact fun ⟨hl, hu⟩ => ⟨hl, fun hu' => hu (root.grown.steady.path_back hu' hx), by simp⟩
    constructor
    · intro hl
      by_cases hx : x < s.tree.next
      · exact .inl ((hold hx).mp hl)
      · have hu := root.under (Nat.not_lt.mp hx) (spliced.live.mp hl).1
        exact .inr ⟨hl, spliced.path_self hu hl⟩
    · rintro (hx | hx)
      · exact (hold (h.live_lt hx.1)).mpr hx
      · exact hx.1
  | @lost t₁ root detached pruned =>
    refine ⟨fun _ x => ?_, fun q hq => (by simp [detached] at hq)⟩
    rw [pruned.live]
    constructor
    · rintro ⟨hl, hu⟩
      have hx : x < s.tree.next := Nat.not_le.mp fun hge => hu (root.under hge hl)
      rwa [root.grown.live hx] at hl
    · intro hl
      refine ⟨root.grown.lives hl, fun hu => ?_⟩
      exact Nat.not_lt.mpr (root.grown.after.le_of_under hu) (h.live_lt hl)

/-- Where a place is attached, the tree of the failure stands there. -/
theorem shows_failure (e : Error) (h : s.tree.Linked) (hp : p < s.tree.next)
    (hq : s.tree.parent? p = some q) :
    (s.fillWithError p e none).tree.subtree? s.tree.next = some (Medium.failure e none) ∧
      (s.fillWithError p e none).tree.children q =
        Tree.putAt p [s.tree.next] (s.tree.children q) := by
  have hspliced := spliced_fillWithError e none h hp hq
  have hgrown := Tree.Grown.grow (Medium.failure (α := α) e none) h
  have hshows : Tree.Shows _ Tree.noneHeld [s.tree.next] [_] :=
    Tree.shows_grow (Medium.failure (α := α) e none) h fun _ _ => rfl
  have hlive : (s.fillWithError p e none).tree.contains q := by
    refine hspliced.live.mpr ⟨hgrown.lives (h.parent_live hq), fun hu => ?_, by simp⟩
    exact h.not_under_parent hq (hgrown.steady.path_back hu (h.live_lt (h.parent_live hq)))
  have hsub := Tree.subtree?_of_shows (hspliced.shows_output hshows fun _ _ => rfl) hspliced.after
  constructor
  · cases hv : (s.fillWithError p e none).tree.subtree? s.tree.next with
    | none =>
      rw [hv] at hsub
      cases hsub
    | some r =>
      rw [hv] at hsub
      exact congrArg some (List.cons.inj hsub).1
  · rw [hspliced.children hlive, if_pos rfl,
      hgrown.children (h.live_lt (h.parent_live hq)) (by simp)]
    rfl

/-- A failure brings back nothing of what is forgotten. -/
theorem Forgotten.failure (h : s.Forgotten x) (e : Error) (hs : s.tree.Linked) (hp : p < s.tree.next)
    (hx : x < s.tree.next) : (s.fillWithError p e none).Forgotten x := by
  have hfades := (fillWithError_filled e none hs hp).fades
  obtain ⟨hplaces, hprov, _⟩ := fillWithError_frame (s := s) (p := p) e none
  constructor
  case dead => exact fun hl => h.dead (hfades.live hx hl)
  case place =>
    rw [hplaces, Table.get?_erase, h.place]
    exact ite_self _
  case provenance => rw [hprov, h.provenance]
  all_goals
    unfold fillWithError
    generalize s.tree.grow (Medium.failure (α := α) e none) = grown
    obtain ⟨gone, hgone⟩ := splice_forgets { s with tree := grown.1 } p grown.2
  case click => exact (hgone x).1.trans ((congrArg _ h.click).trans (ite_self _))
  case tooltip => exact (hgone x).2.trans ((congrArg _ h.tooltip).trans (ite_self _))

/-- A failure in a scene in which an output was taken back. -/
theorem withdrawn_of_failure (e : Error) (h : s.tree.Linked) (h' : s'.tree.Linked)
    (hnext : s.tree.next ≤ s'.tree.next) (hp : p < s.tree.next) (hpo : p ≠ o)
    (hroot : s.tree.parent? o = none)
    (hlive : ∀ x, s'.tree.contains x ↔ s.tree.contains x ∧ x ≠ o)
    (hsame : ∀ x, s'.tree.contains x → s.Intact s' x) :
    Withdrawn p o e s (s'.fillWithError p e none) := by
  have hp' : p < s'.tree.next := Nat.lt_of_lt_of_le hp hnext
  have hparent : s'.tree.parent? p = s.tree.parent? p := by
    by_cases hl : s'.tree.contains p
    · exact (hsame p hl).parent
    · have hd : ¬s.tree.contains p := fun hl' => hl ((hlive p).mpr ⟨hl', hpo⟩)
      rw [Tree.parent?_of_dead hl, Tree.parent?_of_dead hd]
  have hunder : ∀ x, s'.tree.Under p x ↔ s.tree.Under p x := by
    refine fun x => ⟨fun hu => hu.congr fun y b _ hy _ _ => ?_, fun hu => hu.congr fun y b _ hy _ _ => ?_⟩
    · rw [← (hsame y (Tree.live_of_parent hy)).parent]
      exact hy
    · have hl : s'.tree.contains y := (hlive y).mpr ⟨Tree.live_of_parent hy, fun he => by
        rw [he, hroot] at hy
        cases hy⟩
      rw [(hsame y hl).parent]
      exact hy
  have hframe := Frame.of_filled (fillWithError_filled e none h' hp') hp'
    (fillWithError_frame e none).1
  obtain ⟨hdetached, hattached⟩ := live_of_failure e h' hp'
  constructor
  case kept =>
    intro x hx hl
    have hxlt := Nat.lt_of_lt_of_le (h.live_lt hx) hnext
    have hl' := hframe.fades.live hxlt hl
    have hintact := hsame x hl'
    refine ⟨(hframe.item hxlt hl id).trans hintact.item,
      (hframe.parent hxlt hl id).trans hintact.parent, fun hne => ?_⟩
    exact (hframe.children hxlt hl fun hm => hne (hparent ▸ hm)).trans hintact.children
  case attached =>
    intro q hq
    have hq' := hparent.trans hq
    obtain ⟨hsub, hchildren⟩ := shows_failure e h' hp' hq'
    refine ⟨s'.tree.next, hnext, hsub, ?_, fun x => ?_⟩
    · rw [hchildren, (hsame q (h'.parent_live hq')).children]
    · refine (hattached q hq' x).trans (or_congr_left ?_)
      rw [hlive, hunder, and_assoc, and_comm (a := x ≠ o)]
  case detached =>
    intro hnone x
    exact (hdetached (hparent.trans hnone) x).trans (hlive x)

end Scene

namespace Act

/-- A step of a task or of one that works for it, or something that touches no node. -/
def IsWithin (w : World F α) (id : TaskId) : Act F α → Prop
  | .step i => ∃ t ∈ w.tasks, t.isWithin id ∧ t.id = i
  | .release _ | .note _ => True
  | _ => False

instance (w : World F α) (id : TaskId) (a : Act F α) : Decidable (a.IsWithin w id) :=
  match a with
  | .step i => inferInstanceAs (Decidable (∃ t ∈ w.tasks, t.isWithin id ∧ t.id = i))
  | .release _ | .note _ => inferInstanceAs (Decidable True)
  | .render .. | .renderConfig .. | .renderList .. | .click _ | .discard _ | .create _ | .plant ..
  | .mark .. | .popup _ | .define _ => inferInstanceAs (Decidable False)

end Act

namespace World

variable {s : Setup F α} {es : List (World F α × Act F α)} {v w w' : World F α} {a : Act F α}
  {t u : Task F α} {r : Run F α} {id : TaskId} {p o x : NodeId}

/-- What is no step touches no node and no task. -/
theorem scene_of_isWithin (h : a.IsWithin w id) (hstep : ∀ i, a ≠ .step i)
    (hact : w.act s a = some w') : w'.scene = w.scene ∧ ∀ u, u ∈ w'.tasks ↔ u ∈ w.tasks := by
  cases a with
  | release g =>
    cases hact
    exact ⟨rfl, fun u => mem_release g⟩
  | note ts =>
    cases hact
    obtain ⟨hs, ht⟩ := noteWaiting_frame (w := w) ts
    exact ⟨hs, fun u => ht.tasks ▸ Iff.rfl⟩
  | step i => exact absurd rfl (hstep i)
  | _ => exact h.elim

/-- A run still paints into `o` for the place `p`, and only it and those that work for it have done
anything since it began to paint: what is older is as it was then, and what is new they have made. -/
structure Paints (s : Setup F α) (es : List (World F α × Act F α)) (v w : World F α) (id : TaskId)
    (p o : NodeId) : Prop where
  orderly : Orderly w
  tended : Tended s es w id
  known : id < w.nextTask
  run : ∀ {t}, t ∈ w.tasks → t.id = id →
    ∃ r, t.work = .run r ∧ r.place = p ∧ r.output? = some o
  given : o < w.scene.tree.next
  younger : ∀ {u n}, u ∈ w.tasks → u.isWithin id → u.work.output? = some n → o ≤ n
  live : ∀ {x}, x < o → (w.scene.tree.contains x ↔ v.scene.tree.contains x)
  intact : ∀ {x}, x < o → w.scene.tree.contains x → v.scene.Intact w.scene x
  made : ∀ {x}, o ≤ x → w.scene.tree.contains x → Made s id es x

namespace Paints

theorem proper (h : Paints s es v w id p o) (ha : a.IsWithin w id) : a.IsProper w := by
  cases a with
  | step i =>
    obtain ⟨t, ht, hin, rfl⟩ := ha
    obtain ⟨hcontainers, hdiscarded⟩ :=
      targets_of_within h.orderly.sound.roster ht hin fun hid => by
        obtain ⟨r, hwork, _⟩ := h.run ht hid
        exact ⟨r, hwork⟩
    refine ⟨trivial, fun n hn => ?_⟩
    simp [Act.targets, hcontainers, hdiscarded, Act.marked] at hn
  | release g => exact ⟨trivial, fun n hn => by simp [Act.targets, Act.containers, Act.discarded, Act.marked] at hn⟩
  | note ts => exact ⟨trivial, fun n hn => by simp [Act.targets, Act.containers, Act.discarded, Act.marked] at hn⟩
  | _ => exact ha.elim

variable [LawfulMedium α]

/-- As long as the run goes on, this stays so. -/
theorem act (h : Paints s es v w id p o) (ha : a.IsWithin w id) (hact : w.act s a = some w')
    (hgoes : ∃ t ∈ w'.tasks, t.id = id) : Paints s (es ++ [(w, a)]) v w' id p o := by
  have hs := h.orderly.sound
  have hp := h.proper ha
  have hs' := hs.act hp.1 hact
  have hshift := shift_of_act hs hp.1 hact
  have hfades := (frame_of_act hs hp.1 hact).fades
  obtain ⟨g, hg, hgid⟩ := hgoes
  have hunsettled : ∀ {t}, t ∈ w.tasks → t.id = id → ∀ oc, ¬Settled w t oc w' :=
    fun _ hid oc settled => settled.ne_of_mem hg (hgid.trans hid.symm)
  have hrun : ∀ {t}, t ∈ w'.tasks → t.id = id →
      ∃ r, t.work = .run r ∧ r.place = p ∧ r.output? = some o := by
    intro t ht hid
    rcases hshift.origin hs.roster ht with ⟨u, hu, hid', _⟩ | ⟨hge, _⟩
    · obtain ⟨r, hwork, hplace, ho⟩ := h.run hu (hid'.trans hid)
      rcases hshift.run hs.roster hu hwork with ⟨phase, hmem, hout⟩ | ⟨_, oc, settled⟩
      · rw [hs'.roster.id_inj ht hmem hid'.symm]
        exact ⟨_, rfl, hplace, hout o ho⟩
      · exact absurd settled (hunsettled hu (hid'.trans hid) oc)
    · exact absurd (hid ▸ h.known) (Nat.not_lt.mpr hge)
  have hisRun : ∀ {t}, t ∈ w.tasks → t.id = id → t.work.IsRun := by
    intro t ht hid
    obtain ⟨r, hwork, _⟩ := h.run ht hid
    exact ⟨r, hwork⟩
  have hintact : ∀ {x}, x < o → w.scene.tree.contains x → w.scene.Intact w'.scene x := by
    intro x hx hl
    by_cases hstep : ∃ i, a = .step i
    · obtain ⟨i, rfl⟩ := hstep
      obtain ⟨t, ht, hin, rfl⟩ := ha
      refine intact_of_step hs ht hin (hisRun ht) (fun r oc hwork settled hlive => ?_) hact hl ?_
      · rcases Task.isWithin_iff.mp hin with hid | howned
        · exact absurd settled (hunsettled ht hid oc)
        · exact h.tended.confined (h.tended.made ht howned (hwork ▸ List.mem_cons_self)) hlive
      · rintro ⟨u, hu, huin, n, hn, hux⟩
        exact Nat.not_lt.mpr (Nat.le_trans (h.younger hu huin hn) (hs.linked.le_of_under hux)) hx
    · obtain ⟨hscene, _⟩ := scene_of_isWithin ha (fun i he => hstep ⟨i, he⟩) hact
      exact ⟨hscene ▸ hl, by rw [hscene], by rw [hscene], by rw [hscene]⟩
  constructor
  case orderly => exact h.orderly.act hp hact
  case tended =>
    refine h.tended.act hs hp.1 ?_ hact (fun t => hisRun) (fun t ht hid => ?_) ?_
    · exact fun n hn u hu _ => hp.2 n (List.mem_append_left _ (List.mem_append_right _ hn)) u hu
    · obtain ⟨r, hwork, _⟩ := hrun ht hid
      exact ⟨r, hwork⟩
    · rintro t ht hid ⟨oc, settled⟩
      exact absurd settled (hunsettled ht hid oc)
  case known => exact Nat.lt_of_lt_of_le h.known hshift.next_le
  case run => exact hrun
  case given => exact Nat.lt_of_lt_of_le h.given hfades.next_le
  case younger =>
    intro u n hu hin hn
    rcases hshift.output hs.roster hu hn with ⟨t, ht, hid, howners, hto⟩ | ⟨rfl, _⟩
    · exact h.younger ht ((Task.isWithin_congr hid howners).mpr hin) hto
    · exact Nat.le_of_lt h.given
  case live =>
    intro x hx
    refine Iff.trans ⟨fun hl => ?_, fun hl => (hintact hx hl).live⟩ (h.live hx)
    exact hfades.live (Nat.lt_trans hx h.given) hl
  case intact =>
    intro x hx hl
    have hold := hfades.live (Nat.lt_trans hx h.given) hl
    exact (h.intact hx hold).trans (hintact hx hold)
  case made =>
    intro x hx hl
    by_cases hlt : x < w.scene.tree.next
    · exact (h.made hx (hfades.live hlt hl)).mono (List.subset_append_left _ _)
    · by_cases hstep : ∃ i, a = .step i
      · obtain ⟨i, rfl⟩ := hstep
        obtain ⟨t, ht, hin, rfl⟩ := ha
        exact ⟨_, List.mem_append_right _ List.mem_cons_self, t, ht, hin, rfl, w', hact,
          Nat.not_lt.mp hlt, hs'.linked.live_lt hl⟩
      · obtain ⟨hscene, _⟩ := scene_of_isWithin ha (fun i he => hstep ⟨i, he⟩) hact
        exact absurd (hs.linked.live_lt (hscene ▸ hl)) hlt

omit [LawfulMedium α] in
/-- A run that begins to paint. -/
theorem of_begins (h : Orderly v) (htended : Tended s es v id) (ht : t ∈ v.tasks) (hid : t.id = id)
    (hwork : t.work = .run r) (ho : r.output? = some o) (hnew : v.scene.tree.next = o + 1)
    (hmade : Made s id es o)
    (hyounger : ∀ {u n}, u ∈ v.tasks → u.isWithin id → u.work.output? = some n → o ≤ n) :
    Paints s es v v id r.place o where
  orderly := h
  tended := htended
  known := hid ▸ h.sound.roster.id_lt ht
  run hu huid := by
    rw [h.sound.roster.id_inj hu ht (huid.trans hid.symm)]
    exact ⟨r, hwork, rfl, ho⟩
  given := hnew ▸ Nat.lt_succ_self o
  younger := hyounger
  live _ := Iff.rfl
  intact _ hl := ⟨hl, rfl, rfl, rfl⟩
  made {x} hx hl := by
    have hlt := h.sound.linked.live_lt hl
    rw [hnew] at hlt
    exact Nat.le_antisymm hx (Nat.le_of_lt_succ hlt) ▸ hmade

end Paints

section

variable [LawfulMedium α]

/-- As long as the run goes on, only its drafts grow. -/
theorem Paints.history (h : Paints s es v v id p o) {es' : List (World F α × Act F α)}
    (hes : History s (fun w a => a.IsWithin w id) v es' w) (hgoes : ∃ t ∈ w.tasks, t.id = id) :
    Paints s (es ++ es') v w id p o := by
  have hall : Orderly w ∧ id < w.nextTask ∧
      ((∃ t ∈ w.tasks, t.id = id) → Paints s (es ++ es') v w id p o) := by
    refine hes.invariant_past (I := fun es' w => Orderly w ∧ id < w.nextTask ∧
      ((∃ t ∈ w.tasks, t.id = id) → Paints s (es ++ es') v w id p o)) ?_ ?_
    · exact ⟨h.orderly, h.known, fun _ => (List.append_nil es).symm ▸ h⟩
    · rintro es' w a w' ⟨horderly, hknown, hpaints⟩ ok hact
      have hroster := horderly.sound.roster
      have hproper : a.IsProper w := by
        by_cases hgoes : ∃ t ∈ w.tasks, t.id = id
        · exact (hpaints hgoes).proper ok
        · -- Nobody works for a run that has ended.
          cases a with
          | step i =>
            obtain ⟨t, ht, hin, rfl⟩ := ok
            refine absurd ?_ hgoes
            rcases Task.isWithin_iff.mp hin with hid | howned
            · exact ⟨t, ht, hid⟩
            · obtain ⟨u, hu, hid, _⟩ := hroster.suffix ht howned
              exact ⟨u, hu, hid⟩
          | release g => exact ⟨trivial, by simp [Act.SparesOutputs, Act.targets, Act.containers,
              Act.discarded, Act.marked]⟩
          | note ts => exact ⟨trivial, by simp [Act.SparesOutputs, Act.targets, Act.containers,
              Act.discarded, Act.marked]⟩
          | _ => exact ok.elim
      have hshift := shift_of_act horderly.sound hproper.1 hact
      refine ⟨horderly.act hproper hact, Nat.lt_of_lt_of_le hknown hshift.next_le, ?_⟩
      rintro ⟨t, ht, hid⟩
      rw [← List.append_assoc]
      refine (hpaints ?_).act ok hact ⟨t, ht, hid⟩
      rcases hshift.origin hroster ht with ⟨u, hu, huid, _⟩ | ⟨hge, _⟩
      · exact ⟨u, hu, huid.trans hid⟩
      · exact absurd (hid ▸ hknown) (Nat.not_lt.mpr hge)
  exact hall.2.2 hgoes

omit [LawfulMedium α] in
/-- A run that paints and ends with an error takes back its output. -/
theorem scene_of_failing (h : Sound w) (ht : t ∈ w.tasks) (hwork : t.work = .run r)
    (ho : r.output? = some o) (hact : w.act s (.step t.id) = some w')
    (herr : w'.outcomeOf? t.id = some .renderedError) :
    ∃ e, w'.scene = (w.scene.discard o).fillWithError r.place e none := by
  have hsame : w'.outcomes ≠ w.outcomes := fun hs => by
    rw [outcomeOf?, hs] at herr
    exact (h.roster.settled herr).2 t ht rfl
  have hother : ∀ {oc}, Settled w t oc w' → oc = .renderedError := fun settled => by
    rw [outcomeOf?, settled.outcomes, Table.get?_insert, if_pos rfl] at herr
    exact Option.some.inj herr
  have hrun : ∀ {r'}, t.work = .run r' → r'.output? = none → False := by
    intro r' work fresh
    rw [hwork] at work
    cases work
    rw [ho] at fresh
    cases fresh
  cases turn_of_mem h.roster ht hact with
  | abandons r' o' e work painting scene settled =>
    rw [hwork] at work
    cases work
    rw [ho] at painting
    cases painting
    exact ⟨e, scene⟩
  | skips r' work fresh scene settled => exact (hrun work fresh).elim
  | fails r' e offending oc work fresh wrong scene settled => exact (hrun work fresh).elim
  | completes r' o' pr work painting scene settled ready => cases hother settled
  | waits r' phase work output scene moved => exact absurd moved.outcomes hsame
  | begins r' phase shape work fresh output scene moved => exact absurd moved.outcomes hsame
  | draws r' o' phase work painting output step script drawn moved =>
    exact absurd moved.outcomes hsame
  | nests r' o' phase raw around work painting output script scene moved =>
    exact absurd moved.outcomes hsame
  | starts r' o' phase raw around work painting output script scene moved =>
    exact absurd moved.outcomes hsame
  | lists r' o' phase page work painting output script own scene moved =>
    exact absurd moved.outcomes hsame
  | expands rs work scene moved => exact absurd moved.outcomes hsame
  | passes e es work scene moved => exact absurd moved.outcomes hsame
  | turns wrapper container page all es work scene moved => exact absurd moved.outcomes hsame
  | ends work scene ended => exact absurd ended.outcomes hsame

/-- A run begins to paint in a step, it and those that work for it take any steps, and then it ends with
an error: its output is taken back with all that is known about it, an error stands where its place was,
and else all nodes are those that were there when it began, and as they were then. If its place stands
in no node, no error is shown, and the place is left. -/
theorem failed_run_withdrawn {registry : Registry F} {tree : Tree α} (htree : tree.Linked)
    {v₀ : World F α} {es₀ : List (World F α × Act F α)}
    (h₀ : History s (fun v a => a.IsProper v) (start registry tree) es₀ v₀)
    (hbegins : v₀.act s (.step t.id) = some v) (ht : t ∈ v.tasks) (hwork : t.work = .run r)
    (ho : r.output? = some v₀.scene.tree.next)
    (h : History s (fun w a => a.IsWithin w t.id) v es w) (hends : w.act s (.step t.id) = some w')
    (herr : w'.outcomeOf? t.id = some .renderedError) :
    (∃ e, Scene.Withdrawn r.place v₀.scene.tree.next e v.scene w'.scene) ∧
      ∀ x, w.scene.tree.contains x → w.scene.tree.Under v₀.scene.tree.next x →
        w'.scene.Forgotten x := by
  obtain ⟨horderly₀, -, -⟩ := tended_of_history htree h₀
  have hs₀ := horderly₀.sound
  obtain ⟨t₀, ht₀, hid₀, halone₀, -⟩ := turn_of_step hbegins
  have hrun₀ : t₀.work.IsRun := by
    rcases (shift_of_act (a := .step t.id) hs₀ trivial hbegins).origin hs₀.roster ht with
      ⟨u, hu, huid, _, hback, _⟩ | ⟨hge, _⟩
    · exact hs₀.roster.id_inj ht₀ hu (hid₀.trans huid.symm) ▸ hback ⟨r, hwork⟩
    · exact absurd (hid₀ ▸ hs₀.roster.id_lt ht₀) (Nat.not_lt.mpr hge)
  have hproper : (Act.step t.id).IsProper v₀ := by
    obtain ⟨hcontainers, hdiscarded⟩ := targets_of_within hs₀.roster ht₀
      (Task.isWithin_iff.mpr (.inl rfl)) fun _ => hrun₀
    rw [hid₀] at hcontainers hdiscarded
    exact ⟨trivial, by simp [Act.SparesOutputs, Act.targets, hcontainers, hdiscarded, Act.marked]⟩
  obtain ⟨horderly, -, htended⟩ := tended_of_history htree (h₀.snoc hproper hbegins)
  have hs := horderly.sound
  have hshift := shift_of_act (a := .step t.id) hs₀ trivial hbegins
  have hnew : v.scene.tree.next = v₀.scene.tree.next + 1 := by
    have hout : t.work.output? = some v₀.scene.tree.next := hwork ▸ ho
    rcases hshift.output hs₀.roster ht hout with ⟨u, hu, _, _, hold⟩ | ⟨_, _, ⟨_, scene⟩, _⟩
    · exact absurd (hs₀.output_lt hu hold) (Nat.lt_irrefl _)
    · rw [scene]
      rfl
  have hmade : Made s t.id (es₀ ++ [(v₀, .step t.id)]) v₀.scene.tree.next :=
    ⟨_, List.mem_append_right _ List.mem_cons_self, t₀, ht₀, Task.isWithin_iff.mpr (.inl hid₀),
      congrArg Act.step hid₀.symm, v, hbegins, Nat.le_refl _, hnew ▸ Nat.lt_succ_self _⟩
  have hyounger : ∀ {u n}, u ∈ v.tasks → u.isWithin t.id → u.work.output? = some n →
      v₀.scene.tree.next ≤ n := by
    intro u n hu hin hn
    rcases hshift.output hs₀.roster hu hn with ⟨u₀, hu₀, hid, howners, _⟩ | ⟨rfl, _⟩
    · rcases Task.isWithin_iff.mp hin with huid | howned
      · rw [hs.roster.id_inj hu ht huid, hwork] at hn
        exact Nat.le_of_eq (Option.some.inj (ho.symm.trans hn))
      · exact absurd (howners ▸ howned) (hs₀.roster.not_owner halone₀ hu₀)
    · exact Nat.le_refl _
  obtain ⟨t', ht', hid', halone, -⟩ := turn_of_step hends
  have hpaints := (Paints.of_begins horderly (htended t ht ⟨r, hwork⟩) ht rfl hwork ho hnew hmade
    hyounger).history h ⟨t', ht', hid'⟩
  have hs' := hpaints.orderly.sound
  obtain ⟨r', hwork', hplace, ho'⟩ := hpaints.run ht' hid'
  rw [← hid'] at hends herr
  obtain ⟨e, hscene⟩ := scene_of_failing hs' ht' hwork' ho' hends herr
  rw [hplace] at hscene
  generalize v₀.scene.tree.next = o at *
  have hpruned := Tree.Pruned.remove hs'.linked o
  have hroot : w.scene.tree.parent? o = none := hs'.output_root ht' (hwork' ▸ ho')
  have hlow : ∀ {x}, x < o → ¬w.scene.tree.Under o x := fun hx hu =>
    Nat.not_lt.mpr (hs'.linked.le_of_under hu) hx
  -- All that is not under the output is older.
  have hold : ∀ {x}, (w.scene.discard o).tree.contains x → x < o ∧ w.scene.tree.contains x := by
    intro x hx
    obtain ⟨hl, hu⟩ := hpruned.live.mp hx
    refine ⟨Nat.not_le.mp fun hge => ?_, hl⟩
    obtain ⟨u, hmem, hin, n, hn, hup⟩ := hpaints.tended.confined (hpaints.made hge hl) hl
    rcases Task.isWithin_iff.mp hin with huid | howned
    · rw [hs'.roster.id_inj hmem ht' (huid.trans hid'.symm), hwork'] at hn
      exact hu (Option.some.inj (ho'.symm.trans hn) ▸ hup)
    · exact hs'.roster.not_owner halone hmem howned
  have hp : r.place < v.scene.tree.next := hs.place_lt ht (hwork ▸ List.mem_cons_self)
  have hpo : r.place < o := hs.younger ht hwork ho
  have hnext : v.scene.tree.next ≤ w.scene.tree.next := hnew ▸ hpaints.given
  rw [hscene]
  constructor
  · refine ⟨e, Scene.withdrawn_of_failure e hs.linked hpruned.after
      (hpruned.next.symm ▸ hnext) hp (Nat.ne_of_lt hpo) (hs.output_root ht (hwork ▸ ho))
      (fun x => ⟨fun hx => ?_, fun hx => ?_⟩) fun x hx => ?_⟩
    · obtain ⟨hlt, hl⟩ := hold hx
      exact ⟨(hpaints.live hlt).mp hl, Nat.ne_of_lt hlt⟩
    · have hlt : x < o := Nat.lt_of_le_of_ne
        (Nat.le_of_lt_succ (Nat.lt_of_lt_of_le (hs.linked.live_lt hx.1) (Nat.le_of_eq hnew))) hx.2
      exact hpruned.live.mpr ⟨(hpaints.live hlt).mpr hx.1, hlow hlt⟩
    · obtain ⟨hlt, hl⟩ := hold hx
      have hspared := Scene.spared_discard hs'.linked hl (hlow hlt)
      refine (hpaints.intact hlt hl).trans ⟨hspared.live, hspared.item, hspared.parent, ?_⟩
      rw [hspared.children, hroot, if_neg (by simp)]
  · intro x hl hu
    exact (Scene.forgotten_discard hs'.linked hl hu).failure e hpruned.after
      (hpruned.next.symm ▸ Nat.lt_of_lt_of_le hp hnext)
      (hpruned.next.symm ▸ hs'.linked.live_lt hl)

end

/-- Functions that render a config and then fail, and paint a text. -/
def failingScripts : Fin 2 → List (Step (Fin 2) Html.Item)
  | 0 => [.render (.inline 1) .null .null none, .panic none]
  | 1 => [.plant (Html.leaf (.text "inner"))]

/-- The failing view is rendered into a container that is gone. -/
def stepsToPainting : List (Act (Fin 2) Html.Item) :=
  [.create (Html.Item.ofTag "div"), .discard 2, .render 2 (.inline 0) .null .null, .step 2]

def stepsToFailure : List (Act (Fin 2) Html.Item) :=
  [.step 2, .step 3, .step 3, .step 3, .step 3]

/-- The output of the failing view is gone with what was rendered in it, but its place is left. -/
theorem place_left_by_failure :
    let s : Setup (Fin 2) Html.Item := .scripted failingScripts
    ∃ v₀ v w w' : World (Fin 2) Html.Item, v₀.act s (.step 2) = some v ∧
      w.act s (.step 2) = some w' ∧ w'.outcomeOf? 2 = some .renderedError ∧
      v.scene.tree.contains 4 ∧ w.scene.tree.Under 4 6 ∧ w'.scene.Forgotten 6 ∧
      w'.scene.tree.contains 3 ∧ ∀ x, w'.scene.tree.contains x ↔ v.scene.tree.contains x ∧ x ≠ 4 := by
  intro s
  have hplay : (play s (fun v a => a.IsProper v)
      (start .empty (.single (Html.Item.ofTag "body"))) stepsToPainting).any (fun v₀ =>
        v₀.scene.tree.next == 4 && (v₀.act s (.step 2)).any fun v =>
          v.scene.tree.contains 4 && v.scene.tree.contains 3 && v.scene.tree.parent? 3 == none &&
          (v.task? 2).any (fun t => t.work.places == [3] && t.work.output? == some 4) &&
          (play s (fun w a => a.IsWithin w 2) v stepsToFailure).any fun w =>
            w.scene.tree.contains 6 && w.scene.tree.parent? 6 == some 4 &&
            (w.act s (.step 2)).any fun w' => w'.outcomeOf? 2 == some .renderedError) = true := by
    cbv
  obtain ⟨v₀, hv₀, hrest⟩ := (Option.any_eq_true _ _).mp hplay
  rw [Bool.and_eq_true, beq_iff_eq] at hrest
  obtain ⟨hnext, hrest⟩ := hrest
  obtain ⟨v, hbegins, hrest⟩ := (Option.any_eq_true _ _).mp hrest
  simp only [Bool.and_eq_true, beq_iff_eq] at hrest
  obtain ⟨⟨⟨⟨houtput, hplace⟩, hdetached⟩, htask⟩, hrest⟩ := hrest
  obtain ⟨w, hw, hrest⟩ := (Option.any_eq_true _ _).mp hrest
  simp only [Bool.and_eq_true, beq_iff_eq] at hrest
  obtain ⟨⟨hinner, hparent⟩, hrest⟩ := hrest
  obtain ⟨w', hends, herr⟩ := (Option.any_eq_true _ _).mp hrest
  obtain ⟨t, ht, htwork⟩ := (Option.any_eq_true _ _).mp htask
  simp only [Bool.and_eq_true, beq_iff_eq] at htwork herr
  obtain ⟨hmem, hid⟩ := task?_eq_some ht
  obtain ⟨r, hwork, ho⟩ := Work.run_of_output htwork.2
  have hplaced : r.place = 3 := by simpa [hwork, Work.places] using htwork.1
  obtain ⟨es₀, -, hes₀⟩ := History.of_play hv₀
  obtain ⟨es, -, hes⟩ := History.of_play hw
  have hunder : w.scene.tree.Under 4 6 := .of_parent hparent
  obtain ⟨⟨e, hwithdrawn⟩, hforgotten⟩ := failed_run_withdrawn (t := t) (.single _) hes₀
    (by rw [hid]; exact hbegins) hmem hwork (by rw [hnext]; exact ho) (by rw [hid]; exact hes)
    (by rw [hid]; exact hends) (by rw [hid]; exact herr)
  rw [hplaced, hnext] at hwithdrawn
  have hlive := hwithdrawn.detached hdetached
  exact ⟨v₀, v, w, w', hbegins, hends, herr, houtput, hunder, hforgotten 6 hinner (hnext ▸ hunder),
    (hlive 3).mpr ⟨hplace, by decide⟩, hlive⟩

end World

end Montage
