import Montage.Proofs.Render.Nesting

/-!
What a run and those that work for it have painted and not put in its place yet. Main statements: all
that they made and that is still there stands in such a draft, and an act that spares the drafts leaves
it there.
-/

namespace Montage

variable {F α : Type}

/-! Paths that survive. -/

namespace Tree.Grown

variable {t t' : Tree α} {o x : NodeId}

/-- What is new or stood under the node that grew stands under it. -/
theorem below (h : Grown (some o) t t') (ho : t.contains o) (hl : t'.contains x)
    (hx : t.next ≤ x ∨ t.Under o x) : t'.Under o x := by
  by_cases hlt : x < t.next
  · exact h.path (hx.resolve_left (Nat.not_le.mpr hlt)) (h.live hlt ▸ hl)
  · exact h.under rfl ho (Nat.not_lt.mp hlt) hl

end Tree.Grown

namespace Scene

variable {s s' : Scene F α} {n p o x : NodeId}

theorem Filled.path {item : α} {t t' : Tree α} (h : Filled p item t t') (hu : t.Under o x)
    (hx : x < t.next) (hl : t'.contains x) : t'.Under o x := by
  have hx' := h.fades.live hx hl
  cases h with
  | kept attached root spliced =>
    refine spliced.path (root.grown.path hu hx') hl (Nat.ne_of_lt ?_)
    exact Nat.lt_of_le_of_lt (root.grown.before.le_of_under hu) hx
  | lost root detached pruned => exact pruned.steady.path (root.grown.path hu hx') hl

/-- What a failure makes stands where the place was. -/
theorem Filled.new {item : α} {t t' : Tree α} (h : Filled p item t t') (hx : t.next ≤ x)
    (hl : t'.contains x) : ∃ q, t.parent? p = some q ∧ t'.Under q x := by
  cases h with
  | @kept q t₁ attached root spliced =>
    exact ⟨q, attached, spliced.path_output (root.under hx (spliced.live.mp hl).1) hl⟩
  | lost root detached pruned =>
    obtain ⟨hl₁, hu⟩ := pruned.live.mp hl
    exact absurd (root.under hx hl₁) hu

variable [Medium α]

/-- What was painted stands where the place was. -/
theorem Finished.new {prov : Provenance F} (h : Finished p n prov s s') (hn : s.tree.contains n)
    (hx : s.tree.next ≤ x ∨ s.tree.Under n x) (hl : s'.tree.contains x) :
    ∃ q, s.tree.parent? p = some q ∧ s'.tree.Under q x := by
  cases h with
  | @kept q t₁ attached decorated same spliced provenance places =>
    have hu := decorated.below hn (spliced.live.mp hl).1 hx
    exact ⟨q, attached, spliced.path_output hu hl⟩
  | lost decorated detached pruned provenance places =>
    obtain ⟨hl₁, hu⟩ := pruned.live.mp hl
    exact absurd (decorated.below hn hl₁ hx) hu

/-- Paths survive that do not begin at the output. -/
theorem Finished.path {prov : Provenance F} (h : Finished p n prov s s') (hu : s.tree.Under o x)
    (hx : x < s.tree.next) (hl : s'.tree.contains x) (ho : o ≠ n) : s'.tree.Under o x := by
  have hx' := h.fades.live hx hl
  cases h with
  | kept attached decorated same spliced provenance places =>
    exact spliced.path (decorated.path hu hx') hl ho
  | lost decorated detached pruned provenance places =>
    exact pruned.steady.path (decorated.path hu hx') hl

end Scene

variable [Medium α]

/-- A list that is shown in one node grows at that node. -/
theorem TakesList.own {sc sc' : Scene F α} {o : NodeId} {bs : List (List (Run F α))}
    (h : TakesList o none sc sc' bs) : Scene.Grown (some o) sc sc' := by
  cases h with
  | all takes => exact takes.grown
  | part s₁ takes grown items => exact takes.grown.trans grown (.inl rfl)

namespace World

/-- A node in the output of a task, or of one that works for it, that is not in its place yet. -/
def InDraft (w : World F α) (id : TaskId) (x : NodeId) : Prop :=
  ∃ u ∈ w.tasks, u.isWithin id ∧ ∃ o, u.work.output? = some o ∧ w.scene.tree.Under o x

/-- A node that was made by a step of a task, or of one that works for it. -/
def Made (s : Setup F α) (id : TaskId) (es : List (World F α × Act F α)) (x : NodeId) : Prop :=
  ∃ e ∈ es, ∃ t ∈ e.1.tasks, t.isWithin id ∧ e.2 = .step t.id ∧ ∃ v, e.1.act s e.2 = some v ∧
    e.1.scene.tree.next ≤ x ∧ x < v.scene.tree.next

variable {s : Setup F α} {es es' : List (World F α × Act F α)} {w w' : World F α} {a : Act F α}
  {t u : Task F α} {r : Run F α} {id : TaskId} {o p q x : NodeId}

theorem Made.mono (h : Made s id es x) (hsub : es ⊆ es') : Made s id es' x := by
  obtain ⟨e, he, h⟩ := h
  exact ⟨e, hsub he, h⟩

theorem Made.cases_snoc (h : Made s id (es ++ [(w, a)]) x) (hact : w.act s a = some w') :
    Made s id es x ∨ ∃ t ∈ w.tasks, t.isWithin id ∧ a = .step t.id ∧ w.scene.tree.next ≤ x ∧
      x < w'.scene.tree.next := by
  obtain ⟨e, he, t, ht, hin, hstep, v, hv, hge, hlt⟩ := h
  rcases List.mem_append.mp he with he | he
  · exact .inl ⟨e, he, t, ht, hin, hstep, v, hv, hge, hlt⟩
  · rw [List.mem_singleton.mp he] at ht hstep hv hge
    rw [hact] at hv
    cases hv
    exact .inr ⟨t, ht, hin, hstep, hge, hlt⟩

/-- The tasks that others work for have their numbers already. -/
theorem lt_of_isWithin (h : Roster w) (ht : t ∈ w.tasks) (hin : t.isWithin id) :
    id < w.nextTask := by
  rcases Task.isWithin_iff.mp hin with rfl | hin
  · exact h.id_lt ht
  · obtain ⟨u, hu, rfl, _⟩ := h.suffix ht hin
    exact h.id_lt hu

/-- A batch that works for others makes nothing. -/
theorem scene_of_batch (h : Roster w) (ht : t ∈ w.tasks) (howned : id ∈ t.owners)
    (hidle : ¬t.work.IsRun) (hturn : Turn s w t w') : w'.scene = w.scene := by
  have hno : ∀ {es}, t.work ≠ .errands es := fun hes => by
    rw [h.calls ht hes] at howned
    cases howned
  cases hturn with
  | expands rs work scene moved => exact scene
  | ends work scene ended => exact scene
  | passes e es work scene moved => exact scene
  | turns wrapper container page all es work scene moved => exact absurd work hno
  | waits r phase work => exact absurd ⟨r, work⟩ hidle
  | begins r phase shape work => exact absurd ⟨r, work⟩ hidle
  | draws r o phase work => exact absurd ⟨r, work⟩ hidle
  | nests r o phase raw around work => exact absurd ⟨r, work⟩ hidle
  | starts r o phase raw around work => exact absurd ⟨r, work⟩ hidle
  | lists r o phase page work => exact absurd ⟨r, work⟩ hidle
  | skips r work => exact absurd ⟨r, work⟩ hidle
  | fails r e offending o work => exact absurd ⟨r, work⟩ hidle
  | abandons r o e work => exact absurd ⟨r, work⟩ hidle
  | completes r o p work => exact absurd ⟨r, work⟩ hidle

section

variable [LawfulMedium α]

/-- Paths survive an act, those apart that begin at the output of the run that takes a step. -/
theorem path_of_act (h : Sound w) (ha : a.Known w.scene.tree.next) (hact : w.act s a = some w')
    (hu : w.scene.tree.Under o x) (hx : x < w.scene.tree.next) (hl : w'.scene.tree.contains x)
    (ho : ∀ t ∈ w.tasks, a = .step t.id → t.work.output? ≠ some o) : w'.scene.tree.Under o x := by
  cases deed_of_act h ha hact with
  | mild mild quiet => exact mild.steady.path hu hl
  | @fails t r sc e offending oc mem alone work before wrong scene settled =>
    obtain ⟨hmild, hnext, hf⟩ := filled_of_fails h mem work before e offending
    rw [← scene] at hf
    have hx' := Nat.lt_of_lt_of_le hx hmild.steady.next_le
    exact hf.path (hmild.steady.path hu (hf.fades.live hx' hl)) hx' hl
  | @completes t r n p mem alone work output scene settled ready =>
    have hf := finished_of_completes h mem work output s.settings p
    rw [← scene] at hf
    refine hf.path hu hx hl ?_
    rintro rfl
    exact ho t mem rfl (work ▸ output)

/-- What a failure puts in the place of a run stands where the place was, and what the run had painted is
gone with its output. -/
theorem placed_of_failed (h : Sound w) (ht : t ∈ w.tasks) (hwork : t.work = .run r) {sc : Scene F α}
    (hsc : r.output? = none ∧ sc = w.scene ∨ ∃ n, r.output? = some n ∧ sc = w.scene.discard n)
    {e : Error} {offending : Option Json.Value} (hs : w'.scene = sc.fillWithError r.place e offending)
    (hl : w'.scene.tree.contains x)
    (hx : w.scene.tree.next ≤ x ∨ ∃ n, t.work.output? = some n ∧ w.scene.tree.Under n x) :
    ∃ q, w.scene.tree.parent? r.place = some q ∧ w'.scene.tree.Under q x := by
  have hplace : r.place ∈ t.work.places := hwork ▸ List.mem_cons_self
  obtain ⟨hmild, hnext, hf⟩ := filled_of_fails h ht hwork (hsc.imp_left And.right) e offending
  rw [← hs] at hf
  rcases hx with hge | ⟨n, hn, hu⟩
  · obtain ⟨q, hq, hu⟩ := hf.new (hnext ▸ hge) hl
    have hp := hmild.steady.parent (h.place_lt ht hplace) (Tree.live_of_parent hq)
    exact ⟨q, hp.symm.trans hq, hu⟩
  · exfalso
    have hlt := h.linked.under_lt (h.output_lt ht hn) hu
    have hlive := hf.fades.live (hnext ▸ hlt) hl
    rw [hwork] at hn
    have hn : r.output? = some n := hn
    rcases hsc with ⟨hnone, _⟩ | ⟨m, hm, rfl⟩
    · rw [hnone] at hn
      cases hn
    · obtain rfl := Option.some.inj (hm.symm.trans hn)
      exact ((Tree.Pruned.remove h.linked m).live.mp hlive).2 hu

/-- What a run has painted, and what it makes in a step, stands in its output afterwards, or where its
place was. -/
theorem painted_of_turn (h : Sound w) (ht : t ∈ w.tasks) (hrun : t.work.IsRun)
    (hlive : ∀ n, t.work.output? = some n → w.scene.tree.contains n) (hturn : Turn s w t w')
    (hl : w'.scene.tree.contains x)
    (hx : w.scene.tree.next ≤ x ∨ ∃ n, t.work.output? = some n ∧ w.scene.tree.Under n x) :
    (∃ u ∈ w'.tasks, u.id = t.id ∧ u.owners = t.owners ∧ ∃ o, u.work.output? = some o ∧
      w'.scene.tree.Under o x) ∨
    (∃ o, Settled w t o w') ∧ ∃ p ∈ t.work.places, ∃ q, w.scene.tree.parent? p = some q ∧
      w'.scene.tree.Under q x := by
  have hlinked := h.linked
  have hgoes : ∀ {r : Run F α} {phase works o},
      Moved w t (.run { r with phase := phase }) works w' →
      Run.output? { r with phase := phase } = some o → w'.scene.tree.Under o x →
      ∃ u ∈ w'.tasks, u.id = t.id ∧ u.owners = t.owners ∧ ∃ o, u.work.output? = some o ∧
        w'.scene.tree.Under o x := fun moved hout hu =>
    ⟨_, (moved.mem h.roster ht).mpr (.inr (.inl rfl)), rfl, rfl, _, hout, hu⟩
  have hpainted : ∀ {o}, t.work.output? = some o →
      w.scene.tree.next ≤ x ∨ w.scene.tree.Under o x := by
    intro o ho
    refine hx.imp_right ?_
    rintro ⟨n, hn, hu⟩
    rw [ho] at hn
    exact Option.some.inj hn ▸ hu
  have hfresh : t.work.output? = none → w.scene.tree.next ≤ x := fun hnone =>
    hx.resolve_right fun ⟨n, hn, _⟩ => by
      rw [hnone] at hn
      cases hn
  have hbelow : ∀ {o}, t.work.output? = some o →
      Tree.Grown (some o) w.scene.tree w'.scene.tree → w'.scene.tree.Under o x := fun ho hg =>
    hg.below (hlive _ ho) hl (hpainted ho)
  cases hturn with
  | waits r phase work output scene moved =>
    rw [scene] at hl
    obtain ⟨n, hn, hu⟩ := hx.resolve_left (Nat.not_le.mpr (hlinked.live_lt hl))
    rw [work] at hn
    exact .inl (hgoes moved (output.trans hn) (scene ▸ hu))
  | begins r phase shape work fresh output scene moved =>
    refine .inl (hgoes moved output ?_)
    have hge := hfresh (work ▸ fresh)
    rw [scene] at hl ⊢
    have hxn := (Tree.contains_create.mp hl).resolve_left fun hold =>
      Nat.not_lt.mpr hge (hlinked.live_lt hold)
    exact hxn ▸ .self
  | draws r o phase work painting output step script drawn moved =>
    have ho : t.work.output? = some o := work ▸ painting
    exact .inl (hgoes moved output (hbelow ho (drawn.grown hlinked (h.output_lt ht ho)).tree))
  | nests r o phase raw around work painting output script scene moved =>
    have ho : t.work.output? = some o := work ▸ painting
    have htakes := h.takes_own ht ho s around raw
    exact .inl (hgoes moved output (hbelow ho (scene ▸ htakes.grown.tree)))
  | starts r o phase raw around work painting output script scene moved =>
    have ho : t.work.output? = some o := work ▸ painting
    have htakes := h.takes_own ht ho s around raw
    exact .inl (hgoes moved output (hbelow ho (scene ▸ htakes.grown.tree)))
  | lists r o phase page work painting output script own scene moved =>
    have ho : t.work.output? = some o := work ▸ painting
    have hlist := h.takesList_own ht ho s own
    exact .inl (hgoes moved output (hbelow ho (scene ▸ hlist.own.tree)))
  | skips r work fresh scene settled =>
    rw [scene] at hl
    exact absurd ((Scene.skip_steady hlinked).after.live_lt hl)
      (Nat.not_lt.mpr (hfresh (work ▸ fresh)))
  | fails r e offending oc work fresh wrong scene settled =>
    have hplaced := placed_of_failed h ht work (.inl ⟨fresh, rfl⟩) scene hl hx
    exact .inr ⟨⟨_, settled⟩, _, work ▸ List.mem_cons_self, hplaced⟩
  | abandons r o e work painting scene settled =>
    have hplaced := placed_of_failed h ht work (.inr ⟨o, painting, rfl⟩) scene hl hx
    exact .inr ⟨⟨_, settled⟩, _, work ▸ List.mem_cons_self, hplaced⟩
  | completes r o p work painting scene settled ready =>
    have ho : t.work.output? = some o := work ▸ painting
    have hf := finished_of_completes h ht work painting s.settings p
    rw [← scene] at hf
    exact .inr ⟨⟨_, settled⟩, _, work ▸ List.mem_cons_self, hf.new (hlive o ho) (hpainted ho) hl⟩
  | expands rs work scene moved => exact absurd hrun (not_isRun (by simp [work]))
  | passes e es work scene moved => exact absurd hrun (not_isRun (by simp [work]))
  | turns wrapper container page all es work scene moved =>
    exact absurd hrun (not_isRun (by simp [work]))
  | ends work scene ended =>
    refine absurd hrun (not_isRun ?_)
    rcases work with work | work <;> simp [work]

/-- A task that was a run is one as long as it is under way. -/
theorem isRun_of_act (h : Sound w) (ha : a.Known w.scene.tree.next) (hact : w.act s a = some w')
    (ht : t ∈ w.tasks) (hrun : t.work.IsRun) (hu : u ∈ w'.tasks) (hid : u.id = t.id) :
    u.work.IsRun := by
  obtain ⟨r, hwork⟩ := hrun
  rcases (shift_of_act h ha hact).run h.roster ht hwork with ⟨phase, hmem, _⟩ | ⟨_, o, settled⟩
  · rw [(h.act ha hact).roster.id_inj hu hmem hid]
    exact ⟨_, rfl⟩
  · exact absurd hid (settled.ne_of_mem hu)

/-- A draft is kept by all acts but the steps of its run. -/
theorem draft_kept (h : Sound w) (ha : a.Known w.scene.tree.next) (hact : w.act s a = some w')
    (hu : u ∈ w.tasks) (hin : u.isWithin id) (ho : u.work.output? = some o) (hne : a ≠ .step u.id)
    (hux : w.scene.tree.Under o x) (hx : x < w.scene.tree.next) (hl : w'.scene.tree.contains x) :
    w'.InDraft id x := by
  obtain ⟨r, hwork, hr⟩ := Work.run_of_output ho
  rcases (shift_of_act h ha hact).run h.roster hu hwork with ⟨phase, hmem, hout⟩ | ⟨hstep, _⟩
  · refine ⟨_, hmem, hin, o, hout o hr, path_of_act h ha hact hux hx hl fun t ht hstep hto => ?_⟩
    rw [h.output_inj ht hu hto ho] at hstep
    exact hne hstep
  · exact absurd hstep hne

end

/-- All that a run and those that work for it made is in their drafts, and the places they wait for are
among it. -/
structure Tended (s : Setup F α) (es : List (World F α × Act F α)) (w : World F α) (id : TaskId) :
    Prop where
  given : ∀ {x}, Made s id es x → x < w.scene.tree.next
  painted : ∀ {u o}, u ∈ w.tasks → u.isWithin id → u.work.output? = some o →
    w.scene.tree.contains o
  made : ∀ {u p}, u ∈ w.tasks → id ∈ u.owners → p ∈ u.work.places → Made s id es p
  confined : ∀ {x}, Made s id es x → w.scene.tree.contains x → w.InDraft id x

namespace Tended

variable [LawfulMedium α]

/-- An output that is still painted goes only if it is discarded. -/
theorem painted_act (h : Tended s es w id) (hs : Sound w) (ha : a.Known w.scene.tree.next)
    (hspare : ∀ n ∈ a.discarded w, ∀ u ∈ w.tasks, u.isWithin id → u.work.output? ≠ some n)
    (hact : w.act s a = some w') (hu : u ∈ w'.tasks) (hin : u.isWithin id)
    (ho : u.work.output? = some o) : w'.scene.tree.contains o := by
  rcases (shift_of_act hs ha hact).output hs.roster hu ho with
    ⟨v, hv, hid, howners, hvo⟩ | ⟨rfl, _, ⟨shape, scene⟩, _⟩
  · have hin' : v.isWithin id := (Task.isWithin_congr hid howners).mpr hin
    refine Classical.byContradiction fun hd => ?_
    obtain ⟨n, hroot, hn⟩ := (frame_of_act hs ha hact).gone (h.painted hv hin' hvo) hd
    have hon : o = n := hn.elim (fun he => he) fun hn =>
      (hn.1.eq_of_no_parent (hs.output_root hv hvo)).symm
    subst hon
    rcases hroot with hdisc | ⟨t, r, oc, ⟨⟨ht, hwork, _⟩, settled⟩, _, hp | hr⟩
    · exact hspare o hdisc v hv hin' hvo
    · have hpl : o ∈ t.work.places := by rw [hwork, ← hp]; exact List.mem_cons_self
      have := hs.held_one ht hv (mem_holds_of_place hpl) (mem_holds_of_output hvo)
      subst this
      rw [hwork] at hvo
      exact Nat.ne_of_lt (hs.younger ht hwork hvo) hp
    · have hto : t.work.output? = some o := hwork ▸ hr
      have hsame := hs.output_inj hv ht hvo hto
      exact settled.ne_of_mem hu (hid.symm.trans (congrArg Task.id hsame))
  · rw [scene]
    exact Tree.contains_create.mpr (.inr rfl)

/-- The places of those that work for a run are made by it, or by others that work for it. -/
theorem made_act (h : Tended s es w id) (hs : Sound w) (ha : a.Known w.scene.tree.next)
    (hact : w.act s a = some w') (hrun : ∀ t ∈ w.tasks, t.id = id → t.work.IsRun)
    (hrun' : ∀ t ∈ w'.tasks, t.id = id → t.work.IsRun) (hu : u ∈ w'.tasks) (hid : id ∈ u.owners)
    (hp : p ∈ u.work.places) : Made s id (es ++ [(w, a)]) p := by
  have hold : ∀ {v}, v ∈ w.tasks → id ∈ v.owners → p ∈ v.work.places →
      Made s id (es ++ [(w, a)]) p := fun hv hvid hvp =>
    (h.made hv hvid hvp).mono (List.subset_append_left _ _)
  rcases (shift_of_act hs ha hact).origin hs.roster hu with
    ⟨v, hv, _, howners, _, hsub⟩ | ⟨_, _, hsub⟩
  · exact hold hv (howners ▸ hid) (hsub p hp)
  · rcases hsub p hp with ⟨v, hv, hidle, hvp, howners⟩ | ⟨hge, hin⟩
    · rw [howners] at hid
      rcases List.mem_cons.mp hid with rfl | hid
      · exact absurd (hrun v hv rfl) hidle
      · exact hold hv hid hvp
    · rcases hin with ⟨v, hv, hidle, howners, _⟩ | ⟨v, hv, r, rfl, hwork, howners, _⟩
      · rw [howners, List.mem_singleton] at hid
        exact absurd (hrun' v hv hid.symm) hidle
      · refine ⟨_, List.mem_append_right _ List.mem_cons_self, v, hv, ?_, rfl, w', hact, hge,
          (hs.act ha hact).place_lt hu hp⟩
        rw [howners] at hid
        exact Task.mem_owners_below.mp hid

/-- What was made stays in the drafts, or goes. -/
theorem confined_act (h : Tended s es w id) (hs : Sound w) (ha : a.Known w.scene.tree.next)
    (hact : w.act s a = some w') (hrun : ∀ t ∈ w.tasks, t.id = id → t.work.IsRun)
    (hsettle : ∀ t ∈ w.tasks, t.id = id → (∃ o, Settled w t o w') →
      ∀ p ∈ t.work.places, w.scene.tree.parent? p = none)
    (hx : Made s id (es ++ [(w, a)]) x) (hl : w'.scene.tree.contains x) : w'.InDraft id x := by
  have hpainted : ∀ {t}, t ∈ w.tasks → t.isWithin id → a = .step t.id → t.work.IsRun →
      (w.scene.tree.next ≤ x ∨ ∃ n, t.work.output? = some n ∧ w.scene.tree.Under n x) →
      w'.InDraft id x := by
    rintro t ht hin rfl hidle hxt
    have hturn := turn_of_mem hs.roster ht hact
    rcases painted_of_turn hs ht hidle (fun n hn => h.painted ht hin hn) hturn hl hxt with
      ⟨u, hu, huid, howners, o, ho, hux⟩ | ⟨hsettled, p, hplace, q, hq, hqx⟩
    · exact ⟨u, hu, (Task.isWithin_congr huid howners).mpr hin, o, ho, hux⟩
    · rcases Task.isWithin_iff.mp hin with hid | howned
      · rw [hsettle t ht hid hsettled p hplace] at hq
        cases hq
      · -- Where the place was, others that work for the run still paint.
        obtain ⟨t₀, ht₀, rfl, _⟩ := hs.roster.suffix ht howned
        obtain ⟨u, hu, hin', hmem, o, ho, _, hup⟩ :=
          hs.home ht hplace t₀ ht₀ howned (hrun t₀ ht₀ rfl)
        have hql := hs.linked.parent_live hq
        have hlinked' := (hs.act ha hact).linked
        have hne : (Act.step t.id : Act F α) ≠ .step u.id := fun hstep => by
          have := hs.roster.id_inj ht hu (Act.step.inj hstep)
          subst this
          exact hs.roster.owner_ne ht hmem
        have hdraft : w'.InDraft t₀.id q := draft_kept hs ha hact hu hin' ho hne (hup q hq)
          (hs.linked.live_lt hql) (hqx.top_live hlinked' hl)
        obtain ⟨v, hv, hvin, o', ho', hoq⟩ := hdraft
        exact ⟨v, hv, hvin, o', ho', hoq.trans hqx⟩
  rcases hx.cases_snoc hact with hx | ⟨t, ht, hin, rfl, hge, hlt⟩
  · have hlt := h.given hx
    have hxl := (frame_of_act hs ha hact).fades.live hlt hl
    obtain ⟨u, hu, hin, o, ho, hux⟩ := h.confined hx hxl
    by_cases hstep : a = .step u.id
    · obtain ⟨r, hwork, _⟩ := Work.run_of_output ho
      exact hpainted hu hin hstep ⟨r, hwork⟩ (.inr ⟨o, ho, hux⟩)
    · exact draft_kept hs ha hact hu hin ho hstep hux hlt hl
  · by_cases hidle : t.work.IsRun
    · exact hpainted ht hin rfl hidle (.inl hge)
    · rcases Task.isWithin_iff.mp hin with hid | howned
      · exact absurd (hrun t ht hid) hidle
      · have hturn := turn_of_mem hs.roster ht hact
        rw [scene_of_batch hs.roster ht howned hidle hturn] at hlt
        exact absurd hlt (Nat.not_lt.mpr hge)

theorem act (h : Tended s es w id) (hs : Sound w) (ha : a.Known w.scene.tree.next)
    (hspare : ∀ n ∈ a.discarded w, ∀ u ∈ w.tasks, u.isWithin id → u.work.output? ≠ some n)
    (hact : w.act s a = some w') (hrun : ∀ t ∈ w.tasks, t.id = id → t.work.IsRun)
    (hrun' : ∀ t ∈ w'.tasks, t.id = id → t.work.IsRun)
    (hsettle : ∀ t ∈ w.tasks, t.id = id → (∃ o, Settled w t o w') →
      ∀ p ∈ t.work.places, w.scene.tree.parent? p = none) : Tended s (es ++ [(w, a)]) w' id where
  given hx := by
    rcases hx.cases_snoc hact with hx | ⟨_, _, _, _, _, hlt⟩
    · exact Nat.lt_of_lt_of_le (h.given hx) (frame_of_act hs ha hact).fades.next_le
    · exact hlt
  painted hu hin ho := h.painted_act hs ha hspare hact hu hin ho
  made hu hid hp := h.made_act hs ha hact hrun hrun' hu hid hp
  confined hx hl := h.confined_act hs ha hact hrun hsettle hx hl

end Tended

end World

end Montage
