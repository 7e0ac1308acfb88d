import Mathlib.Data.List.Basic
import Mathlib.Data.List.Permutation
import Montage.Proofs.Render.Drafts

/-!
Nodes that nobody can reach any more. A node that is put in a node that is gone stands by itself, and
stays there when all that was to be painted is painted. Main statement: once all is done, a node stands
under none of the caller's just if it was put in one that was gone, or stands under such a node.
-/

namespace Montage

open Json (Value)

variable {F α : Type}

/-- New nodes stand under the node that grew, if that is there. -/
theorem Tree.Grown.has_parent {t t' : Tree α} {d x : NodeId} (h : Grown (some d) t t')
    (hd : t.contains d) (hx : t.next ≤ x) (hl : t'.contains x) : t'.parent? x ≠ none := by
  intro hp
  have hxd := (h.under rfl hd hx hl).eq_of_no_parent hp
  exact Nat.not_lt.mpr (hxd ▸ hx) (h.before.live_lt hd)

variable [Medium α]

theorem TakesList.dead_of_top {d x : NodeId} {more : Option NodeId} {s s' : Scene F α}
    {bs : List (List (Run F α))} (h : TakesList d more s s' bs) (hx : s.tree.next ≤ x)
    (hl : s'.tree.contains x) (hp : s'.tree.parent? x = none) :
    ∃ c, (c = d ∨ c = more.getD d) ∧ ¬s.tree.contains c := by
  have htakes : ∀ {s' rs}, Takes d s s' rs → s'.tree.contains x → s'.tree.parent? x = none →
      ∃ c, (c = d ∨ c = more.getD d) ∧ ¬s.tree.contains c := fun takes hl hp =>
    ⟨d, .inl rfl, fun hd => takes.grown.tree.has_parent hd hx hl hp⟩
  cases h with
  | all takes => exact htakes takes hl hp
  | part s₁ takes grown items =>
    by_cases hlt : x < s₁.tree.next
    · exact htakes takes (grown.tree.live hlt ▸ hl) ((grown.tree.parent hlt).symm.trans hp)
    · refine ⟨_, .inr rfl, fun hd => ?_⟩
      exact grown.tree.has_parent (takes.grown.tree.lives hd) (Nat.not_lt.mp hlt) hl hp

namespace Act

/-- Whether the nodes that an act makes are the caller's. -/
def isOwn : Act F α → Bool
  | .create _ | .plant .. => true
  | _ => false

/-- The nodes that an act puts others in. -/
def holders (w : World F α) (a : Act F α) : List NodeId :=
  a.containers w ++ match a with
    | .step id => ((w.task? id).bind (·.work.output?)).toList
    | _ => []

end Act

namespace World

/-- A node that an act made. -/
def MadeBy (s : Setup F α) (e : World F α × Act F α) (x : NodeId) : Prop :=
  ∃ v, e.1.act s e.2 = some v ∧ e.1.scene.tree.next ≤ x ∧ x < v.scene.tree.next

/-- A node of the caller: it was there at first, or the caller made it. -/
def Given (s : Setup F α) (tree : Tree α) (es : List (World F α × Act F α)) (x : NodeId) : Prop :=
  x < tree.next ∨ ∃ e ∈ es, e.2.isOwn ∧ MadeBy s e x

/-- A node that is not the caller's and was put in one that was gone, so that it stands by itself. -/
def Stray (s : Setup F α) (es : List (World F α × Act F α)) (x : NodeId) : Prop :=
  ∃ e ∈ es, e.2.isOwn = false ∧ MadeBy s e x ∧ ∃ v, e.1.act s e.2 = some v ∧
    v.scene.tree.parent? x = none ∧ ∃ d ∈ e.2.holders e.1, ¬v.scene.tree.contains d

variable {s : Setup F α} {tree : Tree α} {es : List (World F α × Act F α)} {w w' : World F α}
  {a : Act F α} {t u : Task F α} {r : Run F α} {x : NodeId}

theorem Given.cases_snoc (h : Given s tree (es ++ [(w, a)]) x) (hact : w.act s a = some w') :
    Given s tree es x ∨ a.isOwn ∧ w.scene.tree.next ≤ x ∧ x < w'.scene.tree.next := by
  rcases h with h | ⟨e, he, hown, v, hv, hge, hlt⟩
  · exact .inl (.inl h)
  · rcases List.mem_append.mp he with he | he
    · exact .inl (.inr ⟨e, he, hown, v, hv, hge, hlt⟩)
    · rw [List.mem_singleton.mp he] at hown hv hge
      rw [hact] at hv
      cases hv
      exact .inr ⟨hown, hge, hlt⟩

theorem Stray.cases_snoc (h : Stray s (es ++ [(w, a)]) x) (hact : w.act s a = some w') :
    Stray s es x ∨ a.isOwn = false ∧ w.scene.tree.next ≤ x ∧ x < w'.scene.tree.next ∧
      w'.scene.tree.parent? x = none ∧ ∃ d ∈ a.holders w, ¬w'.scene.tree.contains d := by
  obtain ⟨e, he, hown, ⟨v, hv, hge, hlt⟩, v', hv', hp, hd⟩ := h
  rcases List.mem_append.mp he with he | he
  · exact .inl ⟨e, he, hown, ⟨v, hv, hge, hlt⟩, v', hv', hp, hd⟩
  · rw [List.mem_singleton.mp he] at hown hv hge hv' hd
    rw [hact] at hv hv'
    cases hv
    cases hv'
    exact .inr ⟨hown, hge, hlt, hp, hd⟩

theorem Given.mono (h : Given s tree es x) (e : World F α × Act F α) :
    Given s tree (es ++ [e]) x :=
  h.imp_right fun ⟨e', he, h⟩ => ⟨e', List.mem_append_left _ he, h⟩

theorem Stray.mono (h : Stray s es x) (e : World F α × Act F α) : Stray s (es ++ [e]) x :=
  have ⟨e', he, h⟩ := h
  ⟨e', List.mem_append_left _ he, h⟩

theorem holders_of_run (h : Roster w) (ht : t ∈ w.tasks) (hwork : t.work = .run r) :
    (Act.step t.id).holders w = r.output?.toList := by
  simp [Act.holders, Act.containers, h.task? ht, hwork, Work.output?]

section

variable [LawfulMedium α]

/-- No act takes a node out of its parent. -/
theorem top_back (h : Sound w) (ha : a.Known w.scene.tree.next) (hact : w.act s a = some w')
    (hx : x < w.scene.tree.next) (hl : w'.scene.tree.contains x)
    (hp : w'.scene.tree.parent? x = none) : w.scene.tree.parent? x = none := by
  cases deed_of_act h ha hact with
  | mild mild quiet => exact (mild.steady.parent hx hl).symm.trans hp
  | @fails t r sc e offending o mem alone work before wrong scene settled =>
    obtain ⟨hmild, hnext, hf⟩ := filled_of_fails h mem work before e offending
    rw [← scene] at hf
    have hx' : x < sc.tree.next := hnext.symm ▸ hx
    have hback : sc.tree.contains x → sc.tree.parent? x = none → w.scene.tree.parent? x = none :=
      fun hl hp => (hmild.steady.parent hx hl).symm.trans hp
    cases hf with
    | @kept q t₁ attached root spliced =>
      have hnew : x ∉ t₁.offered false sc.tree.next :=
        fun hm => Nat.ne_of_lt hx' (List.mem_singleton.mp hm)
      rw [spliced.parent hl, if_neg hnew, root.grown.parent hx'] at hp
      exact hback (root.grown.live hx' ▸ (spliced.live.mp hl).1) hp
    | lost root detached pruned =>
      rw [pruned.parent hl, root.grown.parent hx'] at hp
      exact hback (root.grown.live hx' ▸ (pruned.live.mp hl).1) hp
  | @completes t r n p mem alone work output scene settled ready =>
    have hf := finished_of_completes h mem work output s.settings p
    rw [← scene] at hf
    cases hf with
    | kept attached decorated same spliced provenance places =>
      rw [spliced.parent hl] at hp
      split at hp
      · cases hp
      · exact (decorated.parent hx).symm.trans hp
    | lost decorated detached pruned provenance places =>
      rw [pruned.parent hl] at hp
      exact (decorated.parent hx).symm.trans hp

/-- A node that a task made and that stands by itself is an output, or was put in a node that is
gone. -/
theorem top_of_turn (h : Sound w) (ht : t ∈ w.tasks) (hturn : Turn s w t w')
    (hfades : Tree.Fades w.scene.tree w'.scene.tree) (hx : w.scene.tree.next ≤ x)
    (hl : w'.scene.tree.contains x) (hp : w'.scene.tree.parent? x = none) :
    (∃ u ∈ w'.tasks, u.work.output? = some x) ∨
      ∃ d ∈ (Act.step t.id).holders w, ¬w'.scene.tree.contains d := by
  have hlinked := h.linked
  have hsame : w'.scene = w.scene → False := fun hs =>
    Nat.not_lt.mpr hx (hlinked.live_lt (hs ▸ hl))
  have hown : ∀ {r : Run F α} {o}, t.work = .run r → r.output? = some o →
      ¬w.scene.tree.contains o → ∃ d ∈ (Act.step t.id).holders w, ¬w'.scene.tree.contains d := by
    intro r o hwork ho hd
    refine ⟨o, ?_, fun hl => hd (hfades.live (h.output_lt ht (hwork ▸ ho)) hl)⟩
    rw [holders_of_run h.roster ht hwork, ho]
    exact List.mem_cons_self
  have hgrown : ∀ {r : Run F α} {o}, t.work = .run r → r.output? = some o →
      Tree.Grown (some o) w.scene.tree w'.scene.tree →
      ∃ d ∈ (Act.step t.id).holders w, ¬w'.scene.tree.contains d :=
    fun hwork ho hg => hown hwork ho fun hd => hg.has_parent hd hx hl hp
  have hfails : ∀ {r : Run F α} {sc e offending}, t.work = .run r →
      (sc = w.scene ∨ ∃ n, r.output? = some n ∧ sc = w.scene.discard n) →
      w'.scene = sc.fillWithError r.place e offending → False := by
    intro r sc e offending work before scene
    obtain ⟨hmild, hnext, hf⟩ := filled_of_fails h ht work before e offending
    rw [← scene] at hf
    obtain ⟨q, hq, hu⟩ := hf.new (hnext.symm ▸ hx) hl
    have hqlt := hmild.steady.after.live_lt (hmild.steady.after.parent_live hq)
    exact Nat.not_lt.mpr hx (hnext ▸ hu.eq_of_no_parent hp ▸ hqlt)
  cases hturn with
  | waits r phase work output scene moved => exact (hsame scene).elim
  | begins r phase shape work fresh output scene moved =>
    refine .inl ⟨_, (moved.mem h.roster ht).mpr (.inr (.inl rfl)), ?_⟩
    rw [scene] at hl
    have hxn := (Tree.contains_create.mp hl).resolve_left fun hold =>
      Nat.not_lt.mpr hx (hlinked.live_lt hold)
    exact hxn ▸ output
  | draws r o phase work painting output step script drawn moved =>
    have ho := h.output_lt ht (work ▸ painting : t.work.output? = some o)
    exact .inr (hgrown work painting (drawn.grown hlinked ho).tree)
  | nests r o phase raw around work painting output script scene moved =>
    have ho : t.work.output? = some o := work ▸ painting
    exact .inr (hgrown work painting (scene ▸ (h.takes_own ht ho s around raw).grown.tree))
  | starts r o phase raw around work painting output script scene moved =>
    have ho : t.work.output? = some o := work ▸ painting
    exact .inr (hgrown work painting (scene ▸ (h.takes_own ht ho s around raw).grown.tree))
  | lists r o phase page work painting output script own scene moved =>
    have ho : t.work.output? = some o := work ▸ painting
    have hlist := h.takesList_own ht ho s own
    rw [← scene] at hlist
    exact .inr (hgrown work painting hlist.own.tree)
  | skips r work fresh scene settled =>
    rw [scene] at hl
    have hg := Scene.skip_steady (s := w.scene) (p := r.place) hlinked
    exact absurd (hg.after.live_lt hl) (Nat.not_lt.mpr hx)
  | fails r e offending o work fresh wrong scene settled =>
    exact (hfails work (.inl rfl) scene).elim
  | abandons r o e work painting scene settled =>
    exact (hfails work (.inr ⟨o, painting, rfl⟩) scene).elim
  | completes r o p work painting scene settled =>
    refine .inr (hown work painting fun hd => ?_)
    have hf := finished_of_completes h ht work painting s.settings p
    rw [← scene] at hf
    obtain ⟨q, hq, hu⟩ := hf.new hd (.inl hx) hl
    exact Nat.not_lt.mpr hx (hu.eq_of_no_parent hp ▸ hlinked.live_lt (hlinked.parent_live hq))
  | expands rs work scene moved => exact (hsame scene).elim
  | passes e es work scene moved => exact (hsame scene).elim
  | turns wrapper container page all es work scene moved =>
    have hlist := h.takesList_turn ht work s
    have hnext := (Tree.Pruned.remove hlinked wrapper).next
    rw [← scene] at hlist
    obtain ⟨c, hc, hd⟩ := hlist.dead_of_top (Nat.le_trans (Nat.le_of_eq hnext) hx) hl hp
    obtain ⟨hdlt, hmlt⟩ : Errand.Known w.scene.tree.next (.turn wrapper container page all) :=
      h.planned ht work List.mem_cons_self
    refine .inr ⟨c, ?_, fun hl' => hd (hlist.reserves.steady.live ?_ hl')⟩
    · rw [Act.holders, (targets_turn h.roster ht work).1]
      exact List.mem_append_left _ (by simpa using hc)
    · refine Nat.lt_of_lt_of_le ?_ (Nat.le_of_eq hnext.symm)
      rcases hc with rfl | rfl
      · exact hdlt
      · exact hmlt
  | ends work scene ended => exact (hsame scene).elim

/-- A node that an act made and that stands by itself is the caller's or an output, or was put in a
node that is gone. -/
theorem top_of_act (h : Sound w) (ha : a.Known w.scene.tree.next) (hact : w.act s a = some w')
    (hx : w.scene.tree.next ≤ x) (hl : w'.scene.tree.contains x)
    (hp : w'.scene.tree.parent? x = none) : a.isOwn ∨
      (∃ u ∈ w'.tasks, u.work.output? = some x) ∨
      ∃ d ∈ a.holders w, ¬w'.scene.tree.contains d := by
  have hlinked := h.linked
  have hfades := (deed_of_act h ha hact).fades h
  have hsame : w'.scene.tree = w.scene.tree → False := fun hs =>
    Nat.not_lt.mpr hx (hlinked.live_lt (hs ▸ hl))
  have hdead : ∀ {d}, d ∈ a.containers w → d < w.scene.tree.next → ¬w.scene.tree.contains d →
      ∃ d ∈ a.holders w, ¬w'.scene.tree.contains d := fun hm hlt hd =>
    ⟨_, List.mem_append_left _ hm, fun hl => hd (hfades.live hlt hl)⟩
  cases a with
  | render d raw data context =>
    have hg := (takes_takeUpAll (w := w) ⟨data, context, none⟩ (raw.normalize s.engine) hlinked
      ha).grown.tree
    cases hact
    exact .inr (.inr (hdead (by simp [Act.containers]) ha fun hd => hg.has_parent hd hx hl hp))
  | renderConfig d c data context =>
    have hg := (takes_takeUp (w := w) hlinked ha ⟨data, context, none⟩ c).grown.tree
    cases hact
    exact .inr (.inr (hdead (by simp [Act.containers]) ha fun hd => hg.has_parent hd hx hl hp))
  | renderList d page =>
    have hlist := takes_takeUpList (w := w) s page false hlinked ha.1 ha.2
    cases hact
    obtain ⟨c, rfl | rfl, hd⟩ := hlist.dead_of_top hx hl hp
    · exact .inr (.inr (hdead (by simp [Act.containers]) ha.1 hd))
    · exact .inr (.inr (hdead (by simp [Act.containers]) ha.2 hd))
  | click n =>
    simp only [World.act, World.click] at hact
    split at hact <;> cases hact <;> exact (hsame rfl).elim
  | discard n =>
    cases hact
    have hpruned := Tree.Pruned.remove hlinked n
    exact absurd (hlinked.live_lt (hpruned.live.mp hl).1) (Nat.not_lt.mpr hx)
  | create item => exact .inl rfl
  | plant d rose => exact .inl rfl
  | mark n m =>
    cases hact
    exact absurd ((Tree.Grown.modify hlinked n _).after.live_lt hl) (Nat.not_lt.mpr hx)
  | popup n => cases hact; exact (hsame rfl).elim
  | define v =>
    simp only [World.act] at hact
    split at hact
    · cases hact
      exact (hsame rfl).elim
    · cases hact
  | release g => cases hact; exact (hsame rfl).elim
  | note ts => cases hact; exact (hsame (congrArg Scene.tree (noteWaiting_frame (w := w) ts).1)).elim
  | step id =>
    obtain ⟨t, ht, rfl, _, hturn⟩ := turn_of_step hact
    exact .inr (top_of_turn h ht hturn hfades hx hl hp)

/-- An act that puts nodes in one that is gone makes no output. -/
theorem not_output_of_holder (h : Sound w) (ha : a.Known w.scene.tree.next)
    (hact : w.act s a = some w') {d : NodeId} (hd : d ∈ a.holders w)
    (hx : w.scene.tree.next ≤ x) (hu : u ∈ w'.tasks) : u.work.output? ≠ some x := by
  intro ho
  have hshift := shift_of_act h ha hact
  have hold : ∀ {v}, v ∈ w.tasks → v.work.output? ≠ some x := fun hv hv' =>
    Nat.not_lt.mpr hx (h.output_lt hv hv')
  rcases hshift.output h.roster hu ho with ⟨v, hv, _, _, hv'⟩ | ⟨rfl, rfl, _, v, hv, hid, _⟩
  · exact hold hv hv'
  · obtain ⟨r', hr', _⟩ := Work.run_of_output ho
    obtain ⟨r, hr⟩ : v.work.IsRun := by
      rcases hshift.origin h.roster hu with ⟨v', hv', hid', _, hrun, _⟩ | ⟨hge, _⟩
      · exact h.roster.id_inj hv hv' (hid.trans hid'.symm) ▸ hrun ⟨r', hr'⟩
      · exact absurd (hid ▸ h.roster.id_lt hv) (Nat.not_lt.mpr hge)
    rw [← hid, holders_of_run h.roster hv hr, Option.mem_toList] at hd
    rcases hshift.run h.roster hv hr with ⟨phase, hmem, hout⟩ | ⟨_, o, settled⟩
    · rw [(h.act ha hact).roster.id_inj hu hmem hid.symm] at ho
      have hout := (hout d hd).symm.trans ho
      exact hold hv (hr ▸ hout ▸ hd)
    · exact settled.ne_of_mem hu hid.symm

/-- An output that stands by itself belongs to a run that goes on. -/
theorem output_of_top (h : Sound w) (ha : a.Known w.scene.tree.next) (hact : w.act s a = some w')
    (ht : t ∈ w.tasks) (ho : t.work.output? = some x) (hl : w'.scene.tree.contains x)
    (hp : w'.scene.tree.parent? x = none) : ∃ u ∈ w'.tasks, u.work.output? = some x := by
  obtain ⟨r, hr, hro⟩ := Work.run_of_output ho
  rcases (shift_of_act h ha hact).run h.roster ht hr with ⟨phase, hmem, hout⟩ | ⟨rfl, _⟩
  · exact ⟨_, hmem, hout x hro⟩
  · obtain ⟨u, hu, hid, _, hturn⟩ := turn_of_step hact
    have := h.roster.id_inj hu ht hid
    subst this
    have hlive : w.scene.tree.contains x :=
      ((deed_of_act h ha hact).fades h).live (h.output_lt hu ho) hl
    have hown : ∀ n, u.work.output? = some n → w.scene.tree.contains n := by
      intro n hn
      rw [ho] at hn
      exact Option.some.inj hn ▸ hlive
    rcases painted_of_turn h hu ⟨r, hr⟩ hown hturn hl (.inr ⟨x, ho, .self⟩) with
      ⟨v, hv, _, _, o, hvo, hup⟩ | ⟨_, p, hpl, q, hq, hup⟩
    · exact ⟨v, hv, hup.eq_of_no_parent hp ▸ hvo⟩
    · -- The place would stand under its own output, which is younger.
      rw [hr] at hpl
      have hyounger := h.younger hu hr hro
      rw [← List.mem_singleton.mp hpl, ← hup.eq_of_no_parent hp] at hyounger
      exact absurd (h.linked.ordered hq) (Nat.not_lt.mpr (Nat.le_of_lt hyounger))

/-- Where the nodes come from that stand by themselves. -/
structure Rooted (s : Setup F α) (tree : Tree α) (es : List (World F α × Act F α))
    (w : World F α) : Prop where
  sound : Sound w
  given_lt : ∀ {x}, Given s tree es x → x < w.scene.tree.next
  top : ∀ {x}, w.scene.tree.contains x → w.scene.tree.parent? x = none →
    Given s tree es x ∨ Stray s es x ∨ ∃ u ∈ w.tasks, u.work.output? = some x
  stray_lt : ∀ {x}, Stray s es x → x < w.scene.tree.next
  stray_own : ∀ {x}, Stray s es x → ¬Given s tree es x
  stray_top : ∀ {x}, Stray s es x → w.scene.tree.parent? x = none
  stray_idle : ∀ {x u}, Stray s es x → u ∈ w.tasks → u.work.output? ≠ some x

namespace Rooted

omit [LawfulMedium α] in
theorem start {registry : Registry F} (h : tree.Linked) :
    Rooted s tree [] (World.start registry tree) := by
  have hgiven : ∀ {x}, Given s tree [] x ↔ x < tree.next := by simp [Given]
  have hstray : ∀ {x}, ¬Stray s ([] : List (World F α × Act F α)) x := by simp [Stray]
  exact {
    sound := .start registry h
    given_lt := hgiven.mp
    top := fun hl _ => .inl (hgiven.mpr (h.live_lt hl))
    stray_lt := fun hs => absurd hs hstray
    stray_own := fun hs => absurd hs hstray
    stray_top := fun hs => absurd hs hstray
    stray_idle := fun hs => absurd hs hstray }

theorem act (h : Rooted s tree es w) (ha : a.Known w.scene.tree.next)
    (hact : w.act s a = some w') : Rooted s tree (es ++ [(w, a)]) w' := by
  have hs := h.sound
  have hshift := shift_of_act hs ha hact
  have hfades := (deed_of_act hs ha hact).fades hs
  have hlt : ∀ {x}, x < w.scene.tree.next → x < w'.scene.tree.next := fun hx =>
    Nat.lt_of_lt_of_le hx hfades.next_le
  constructor
  case sound => exact hs.act ha hact
  case given_lt =>
    intro x hx
    exact (hx.cases_snoc hact).elim (fun hx => hlt (h.given_lt hx)) fun hx => hx.2.2
  case top =>
    intro x hl hp
    by_cases hx : x < w.scene.tree.next
    · rcases h.top (hfades.live hx hl) (top_back hs ha hact hx hl hp) with hg | hst | ⟨u, hu, ho⟩
      · exact .inl (hg.mono _)
      · exact .inr (.inl (hst.mono _))
      · exact .inr (.inr (output_of_top hs ha hact hu ho hl hp))
    · have hge := Nat.not_lt.mp hx
      have hmade : MadeBy s (w, a) x := ⟨w', hact, hge, (hs.act ha hact).linked.live_lt hl⟩
      by_cases hown : a.isOwn
      · exact .inl (.inr ⟨_, List.mem_append_right _ List.mem_cons_self, hown, hmade⟩)
      · rcases (top_of_act hs ha hact hge hl hp).resolve_left hown with hu | hd
        · exact .inr (.inr hu)
        · exact .inr (.inl ⟨_, List.mem_append_right _ List.mem_cons_self,
            by simpa using hown, hmade, w', hact, hp, hd⟩)
  case stray_lt =>
    intro x hx
    exact (hx.cases_snoc hact).elim (fun hx => hlt (h.stray_lt hx)) fun hx => hx.2.2.1
  case stray_own =>
    intro x hx hg
    rcases hx.cases_snoc hact with hx | ⟨hown, hge, _⟩ <;> rcases hg.cases_snoc hact with hg | hg
    · exact h.stray_own hx hg
    · exact Nat.not_lt.mpr hg.2.1 (h.stray_lt hx)
    · exact Nat.not_lt.mpr hge (h.given_lt hg)
    · rw [hown] at hg
      cases hg.1
  case stray_top =>
    intro x hx
    rcases hx.cases_snoc hact with hx | ⟨_, _, _, hp, _⟩
    · have hnone := h.stray_top hx
      cases hp : w'.scene.tree.parent? x with
      | none => rfl
      | some q =>
        have hl := Tree.live_of_parent hp
        have hframe := frame_of_act hs ha hact
        rw [hframe.parent (h.stray_lt hx) hl, hnone] at hp
        · cases hp
        · rintro ⟨t, r, n, ⟨⟨ht, hwork, _⟩, _⟩, hn, hm⟩
          rcases Scene.placed_cases hm with ⟨_, hm⟩ | rfl
          · have hparent := hs.linked.link hm (hfades.live (h.stray_lt hx) hl)
            rw [hnone] at hparent
            cases hparent
          · exact h.stray_idle hx ht (hwork ▸ hn)
    · exact hp
  case stray_idle =>
    intro x u hx hu ho
    rcases hx.cases_snoc hact with hx | ⟨_, hge, _, _, d, hd, _⟩
    · rcases hshift.output hs.roster hu ho with ⟨v, hv, _, _, hv'⟩ | ⟨rfl, _⟩
      · exact h.stray_idle hx hv hv'
      · exact Nat.lt_irrefl _ (h.stray_lt hx)
    · exact not_output_of_holder hs ha hact hd hge hu ho

end Rooted

/-- Once all is done, a node stands under none of the caller's just if it stands, with none of the
caller's between, under a node that was put in one that was gone. -/
theorem leaks_iff_stray {registry : Registry F} (htree : tree.Linked)
    (h : History s (fun v a => a.Known v.scene.tree.next) (start registry tree) es w)
    (hidle : w.tasks = []) (hx : w.scene.tree.contains x) :
    (∀ y, w.scene.tree.Under y x → ¬Given s tree es y) ↔
      ∃ r, Stray s es r ∧ w.scene.tree.Under r x ∧
        ∀ y, w.scene.tree.Under r y → w.scene.tree.Under y x → ¬Given s tree es y := by
  have hall : Rooted s tree es w :=
    h.invariant_past (.start htree) fun _ _ _ _ hv ok next => hv.act ok next
  have hlinked := hall.sound.linked
  constructor
  · intro hnone
    obtain ⟨r, hu, hp⟩ := hlinked.exists_top x
    have hidle : ¬∃ u ∈ w.tasks, u.work.output? = some r := by simp [hidle]
    have hstray := ((hall.top (hu.top_live hlinked hx) hp).resolve_left (hnone r hu)).resolve_right
      hidle
    exact ⟨r, hstray, hu, fun y _ hy => hnone y hy⟩
  · rintro ⟨r, hstray, hu, hnone⟩ y hy hgiven
    rcases hu.comparable hy with hry | hyr
    · exact hnone y hry hy hgiven
    · rw [hyr.eq_of_no_parent (hall.stray_top hstray)] at hgiven
      exact hall.stray_own hstray hgiven

end

/-- A container is made and discarded, and a view that paints nothing is rendered into it. -/
def renderAfterDiscard : List (Act Unit Html.Item) :=
  [.create (Html.Item.ofTag "div"), .discard 2, .render 2 (.inline ()) .null .null, .step 2, .step 2,
    .step 2, .step 1]

/-- The place that was held in the dead container is left, with nothing of the caller's above it. -/
theorem place_leaks_after_discard :
    let s : Setup Unit Html.Item := .scripted fun _ => []
    let tree := Tree.single (Html.Item.ofTag "body")
    ∃ es w, es.map Prod.snd = renderAfterDiscard ∧
      History s (fun v a => a.Known v.scene.tree.next) (start .empty tree) es w ∧
      w.tasks.length = 0 ∧ w.scene.tree.contains 3 ∧
      (∀ y, w.scene.tree.Under y 3 → ¬Given s tree es y) ∧
      ∃ r, Stray s es r ∧ w.scene.tree.Under r 3 := by
  intro s tree
  have hplay : (play s (fun v a => a.Known v.scene.tree.next) (start .empty tree)
      renderAfterDiscard).any (fun w => w.tasks.length == 0 && w.scene.tree.contains 3 &&
        w.scene.tree.parent? 3 == none) = true := by
    cbv
  have hmade : (events s (start .empty tree) renderAfterDiscard).all (fun e =>
      !e.2.isOwn || !((e.1.act s e.2).any fun v =>
        decide (e.1.scene.tree.next ≤ 3) && decide (3 < v.scene.tree.next))) = true := by
    cbv
  obtain ⟨w, hw, hend⟩ := (Option.any_eq_true _ _).mp hplay
  simp only [Bool.and_eq_true, beq_iff_eq] at hend
  obtain ⟨⟨hidle, hlive⟩, hparent⟩ := hend
  obtain ⟨es, hacts, hes⟩ := History.of_play hw
  have hnot : ∀ y, w.scene.tree.Under y 3 → ¬Given s tree es y := by
    intro y hy
    rw [hy.eq_of_no_parent hparent]
    rintro (hlt | ⟨e, he, hown, v, hv, hge, hlt⟩)
    · exact absurd hlt (by decide)
    · rw [← hes.events_eq, hacts] at he
      have := List.all_eq_true.mp hmade e he
      simp [hown, hv, hge, hlt] at this
  obtain ⟨r, hstray, hu, _⟩ := (leaks_iff_stray (.single _) hes
    (List.eq_nil_of_length_eq_zero hidle) hlive).mp hnot
  exact ⟨es, w, hacts, hes, hidle, hlive, hnot, r, hstray, hu⟩

end World

end Montage
