import Mathlib.Data.List.Basic
import Mathlib.Data.List.Permutation
import Montage.Html.Medium
import Montage.Proofs.Render.Drafts

/-!
Subtrees that are discarded while views are still rendered into them. Main statement: all that stood
there is gone at once and forgotten, and whatever the runs with places there do after that, they touch
nothing but their own drafts and leave nothing behind.
-/

namespace Montage

variable {F α : Type}

namespace Scene

/-- Nothing is left of a node. -/
structure Forgotten (s : Scene F α) (x : NodeId) : Prop where
  dead : ¬s.tree.contains x
  place : s.places.get? x = none
  provenance : s.provenance.get? x = none
  click : s.clicks.get? x = none
  tooltip : s.tooltips.get? x = none

/-- A node is as it was, but that `n` is gone from its children. -/
structure Spared (n : NodeId) (s s' : Scene F α) (x : NodeId) : Prop where
  live : s'.tree.contains x
  item : s'.tree.get? x = s.tree.get? x
  parent : s'.tree.parent? x = s.tree.parent? x
  children : s'.tree.children x =
    if s.tree.parent? n = some x then (s.tree.children x).filter (· != n) else s.tree.children x
  place : s'.places.get? x = s.places.get? x
  provenance : s'.provenance.get? x = s.provenance.get? x
  click : s'.clicks.get? x = s.clicks.get? x
  tooltip : s'.tooltips.get? x = s.tooltips.get? x

/-- A node stands where it stood, over the same children. -/
structure Intact (s s' : Scene F α) (x : NodeId) : Prop where
  live : s'.tree.contains x
  item : s'.tree.get? x = s.tree.get? x
  parent : s'.tree.parent? x = s.tree.parent? x
  children : s'.tree.children x = s.tree.children x

variable {s : Scene F α} {n x : NodeId}

theorem forgotten_discard (h : s.tree.Linked) (hx : s.tree.contains x) (hu : s.tree.Under n x) :
    (s.discard n).Forgotten x := by
  have hm := (Tree.mem_remove h).mpr ⟨hx, hu⟩
  constructor
  case dead => exact fun hl => ((Tree.contains_remove h).mp hl).2 hu
  case place => rw [get?_places_discard, if_pos hm]
  case provenance => rw [get?_provenance_discard, if_pos hm]
  case click => rw [get?_clicks_discard, if_pos hm]
  case tooltip => rw [get?_tooltips_discard, if_pos hm]

theorem spared_discard (h : s.tree.Linked) (hx : s.tree.contains x) (hu : ¬s.tree.Under n x) :
    Spared n s (s.discard n) x := by
  have hpruned := Tree.Pruned.remove h n
  have hl := hpruned.live.mpr ⟨hx, hu⟩
  have hm : x ∉ (s.tree.remove n).2 := fun hm => hu ((Tree.mem_remove h).mp hm).2
  constructor
  case live => exact hl
  case item => exact hpruned.item hl
  case parent => exact hpruned.parent hl
  case children => exact hpruned.children hl
  case place => rw [get?_places_discard, if_neg hm]
  case provenance => rw [get?_provenance_discard, if_neg hm]
  case click => rw [get?_clicks_discard, if_neg hm]
  case tooltip => rw [get?_tooltips_discard, if_neg hm]

end Scene

variable [Medium α]

namespace World

variable {s : Setup F α} {es : List (World F α × Act F α)} {v w w' : World F α} {a : Act F α}
  {t u : Task F α} {r : Run F α} {id : TaskId} {n o p q x : NodeId}

/-- The drafts for a place are younger than the place. -/
theorem place_lt_draft (h : Sound w) (ht : t ∈ w.tasks) (hwork : t.work = .run r)
    (hu : u ∈ w.tasks) (hin : u.isWithin t.id) (ho : u.work.output? = some o) : r.place < o := by
  induction hn : u.owners.length using Nat.strongRecOn generalizing u o with
  | ind k ih =>
    obtain ⟨r', hwork', hr'⟩ := Work.run_of_output ho
    have hyounger := h.younger hu hwork' hr'
    rcases Task.isWithin_iff.mp hin with hid | howned
    · have := h.roster.id_inj hu ht hid
      subst this
      rw [hwork] at hwork'
      cases hwork'
      exact hyounger
    · have hplace : r'.place ∈ u.work.places := hwork' ▸ List.mem_cons_self
      obtain ⟨v, hv, hin', hmem, o', ho', hlt, _⟩ := h.home hu hplace t ht howned ⟨r, hwork⟩
      obtain ⟨v', hv', hid', hsuffix⟩ := h.roster.suffix hu hmem
      rw [h.roster.id_inj hv' hv hid'] at hsuffix
      have hlen : v.owners.length < k := hn ▸ hsuffix.length_le
      exact Nat.lt_trans (Nat.lt_trans (ih _ hlen hv hin' ho' rfl) hlt) hyounger

section

variable [LawfulMedium α]

/-- A new run has made nothing, and nobody works for it. -/
theorem Tended.of_new (h : Sound w) (ha : a.Known w.scene.tree.next) (hact : w.act s a = some w')
    (hmade : ∀ {id x}, Made s id es x → id < w.nextTask) (ht : t ∈ w'.tasks) (hrun : t.work.IsRun)
    (hge : w.nextTask ≤ t.id) : Tended s (es ++ [(w, a)]) w' t.id := by
  have hold : ∀ {v}, v ∈ w.tasks → ¬v.isWithin t.id := fun hv hin =>
    Nat.not_lt.mpr hge (lt_of_isWithin h.roster hv hin)
  have hno : ∀ {x}, ¬Made s t.id (es ++ [(w, a)]) x := fun hx => by
    rcases hx.cases_snoc hact with hx | ⟨v, hv, hin, _⟩
    · exact Nat.not_lt.mpr hge (hmade hx)
    · exact hold hv hin
  have hshift := shift_of_act h ha hact
  constructor
  case given => exact fun hx => absurd hx hno
  case confined => exact fun hx => absurd hx hno
  case painted =>
    intro u o hu hin ho
    have hback : ∃ v ∈ w.tasks, v.id = u.id ∧ v.owners = u.owners := by
      rcases hshift.output h.roster hu ho with ⟨v, hv, hid, howners, _⟩ | ⟨_, _, _, hv⟩
      · exact ⟨v, hv, hid, howners⟩
      · exact hv
    obtain ⟨v, hv, hid, howners⟩ := hback
    exact absurd ((Task.isWithin_congr hid howners).mpr hin) (hold hv)
  case made =>
    intro u p hu hid hp
    have howned : ∀ {v}, v ∈ w.tasks → u.owners ≠ v.id :: v.owners := fun hv howners => by
      rw [howners] at hid
      exact hold hv (Task.mem_owners_below.mp hid)
    rcases hshift.origin h.roster hu with ⟨v, hv, _, howners, _⟩ | ⟨_, _, hsub⟩
    · exact absurd (Task.isWithin_iff.mpr (.inr (howners ▸ hid))) (hold hv)
    · rcases hsub p hp with ⟨v, hv, _, _, howners⟩ | ⟨_, hin⟩
      · exact absurd howners (howned hv)
      · rcases hin with ⟨v, hv, hidle, howners, _⟩ | ⟨v, hv, _, _, _, howners, _⟩
        · rw [howners, List.mem_singleton] at hid
          rw [(h.act ha hact).roster.id_inj hv ht hid.symm] at hidle
          exact absurd hrun hidle
        · exact absurd howners (howned hv)

/-- In every history, what a run under way has made is in its drafts. -/
theorem tended_of_history {registry : Registry F} {tree : Tree α} (htree : tree.Linked)
    (h : History s (fun v a => a.IsProper v) (start registry tree) es w) :
    Orderly w ∧ (∀ {id x}, Made s id es x → id < w.nextTask) ∧
      ∀ t ∈ w.tasks, t.work.IsRun → Tended s es w t.id := by
  induction h with
  | nil =>
    refine ⟨.start registry htree, ?_, fun t ht => nomatch ht⟩
    rintro id x ⟨e, he, _⟩
    cases he
  | @snoc es v w a past ok next ih =>
    obtain ⟨horderly, hmade, htended⟩ := ih
    have hs := horderly.sound
    have hshift := shift_of_act hs ok.1 next
    refine ⟨horderly.act ok next, fun hx => ?_, fun t ht hrun => ?_⟩
    · rcases hx.cases_snoc next with hx | ⟨u, hu, hin, _⟩
      · exact Nat.lt_of_lt_of_le (hmade hx) hshift.next_le
      · exact Nat.lt_of_lt_of_le (lt_of_isWithin hs.roster hu hin) hshift.next_le
    · rcases hshift.origin hs.roster ht with ⟨u, hu, hid, _, hback, _⟩ | ⟨hge, _⟩
      · rw [← hid]
        refine (htended u hu (hback hrun)).act hs ok.1 ?_ next ?_ ?_ ?_
        · exact fun n hn x hx _ => ok.2 n
            (List.mem_append_left _ (List.mem_append_right _ hn)) x hx
        · exact fun x hx hxid => hs.roster.id_inj hx hu hxid ▸ hback hrun
        · exact fun x hx hxid => isRun_of_act hs ok.1 next hu (hback hrun) hx hxid
        · rintro x hx hxid ⟨o, settled⟩
          exact absurd (hid.symm.trans hxid.symm) (settled.ne_of_mem ht)
      · exact .of_new hs ok.1 next hmade ht hrun hge

end

/-- A step of a run, or of a task that works for it, is on no node but its own. -/
theorem targets_of_within (h : Roster w) (ht : t ∈ w.tasks) (hin : t.isWithin id)
    (hrun : t.id = id → t.work.IsRun) :
    (Act.step t.id).containers w = [] ∧ (Act.step t.id).discarded w = [] := by
  have htask := h.task? ht
  cases hwork : t.work with
  | run r => simp [Act.containers, Act.discarded, htask, hwork]
  | batch rs => simp [Act.containers, Act.discarded, htask, hwork]
  | errands es =>
    rcases Task.isWithin_iff.mp hin with hid | howned
    · obtain ⟨r, hr⟩ := hrun hid
      rw [hwork] at hr
      cases hr
    · rw [h.calls ht hwork] at howned
      cases howned

/-- A node stays as it is if an act works on no node of its own, and the run that it carries on, if any,
has its output and, when it ends, its place elsewhere. -/
theorem intact_of_act [LawfulMedium α] (hs : Sound w) (ha : a.Known w.scene.tree.next)
    (hact : w.act s a = some w') (htargets : a.targets w = []) (hl : w.scene.tree.contains x)
    (houtput : ∀ t r n, a.Steps w t r → r.output? = some n → ¬w.scene.tree.Under n x)
    (hplace : ∀ t r o, a.Ends w w' t r o →
      ¬w.scene.tree.Under r.place x ∧ w.scene.tree.parent? r.place ≠ some x) :
    w.scene.Intact w'.scene x := by
  have hlt := hs.linked.live_lt hl
  have hframe := frame_of_act hs ha hact
  simp only [Act.targets, List.append_eq_nil_iff] at htargets
  obtain ⟨⟨hcontainers, hdiscarded⟩, hmarked⟩ := htargets
  have hl' : w'.scene.tree.contains x := by
    refine Classical.byContradiction fun hd => ?_
    obtain ⟨n, hroot, hn⟩ := hframe.gone hl hd
    have hu : w.scene.tree.Under n x := hn.elim (fun he => he ▸ .self) And.left
    rcases hroot with hm | ⟨u, r, o, hend, _, hr | hr⟩
    · rw [hdiscarded] at hm
      cases hm
    · exact (hplace u r o hend).1 (hr ▸ hu)
    · exact houtput u r n hend.1 hr hu
  refine ⟨hl', hframe.item hlt hl' ?_, hframe.parent hlt hl' ?_, hframe.children hlt hl' ?_⟩
  · rintro (hm | ⟨u, r, hstep, ho⟩ | ⟨u, r, o, hend, hp⟩)
    · rw [hmarked] at hm
      cases hm
    · exact houtput u r x hstep ho .self
    · exact (hplace u r o hend).1 (hp ▸ .self)
  · rintro ⟨u, r, n, hend, hn, hm⟩
    rcases Scene.placed_cases hm with ⟨_, hm⟩ | rfl
    · exact houtput u r n hend.1 hn (.of_parent (hs.linked.link hm hl))
    · exact houtput u r x hend.1 hn .self
  · rintro (hm | ⟨n, hm, _⟩ | ⟨u, r, hstep, ho, _⟩ | ⟨u, r, o, hend, _, hp⟩)
    · rw [hcontainers] at hm
      cases hm
    · rw [hdiscarded] at hm
      cases hm
    · exact houtput u r x hstep ho .self
    · exact (hplace u r o hend).2 hp

/-- A step of a run, or of a task that works for it, leaves all nodes outside of their drafts alone, if
the place that it fills, if any, is in a draft. -/
theorem intact_of_step [LawfulMedium α] (hs : Sound w) (ht : t ∈ w.tasks) (hin : t.isWithin id)
    (hrun : t.id = id → t.work.IsRun)
    (hplace : ∀ r o, t.work = .run r → Settled w t o w' → w.scene.tree.contains r.place →
      w.InDraft id r.place)
    (hact : w.act s (.step t.id) = some w') (hl : w.scene.tree.contains x)
    (hout : ¬w.InDraft id x) : w.scene.Intact w'.scene x := by
  obtain ⟨hcontainers, hdiscarded⟩ := targets_of_within hs.roster ht hin hrun
  have htargets : (Act.step t.id).targets w = [] := by
    simp [Act.targets, hcontainers, hdiscarded, Act.marked]
  have hsame : ∀ {u r}, (Act.step t.id).Steps w u r → u = t ∧ t.work = .run r := by
    rintro u r ⟨hu, hwork, hid⟩
    have := hs.roster.id_inj hu ht (Act.step.inj hid).symm
    subst this
    exact ⟨rfl, hwork⟩
  have hdraft : ∀ {u r o}, (Act.step t.id).Ends w w' u r o → w.scene.tree.contains r.place →
      w.InDraft id r.place := by
    rintro u r o ⟨hstep, settled⟩ hlive
    obtain ⟨rfl, hwork⟩ := hsame hstep
    exact hplace r o hwork settled hlive
  refine intact_of_act (a := .step t.id) hs trivial hact htargets hl ?_ fun u r o hend =>
    ⟨fun hu => ?_, fun hx => ?_⟩
  · intro u r n hstep hn hu
    obtain ⟨rfl, hwork⟩ := hsame hstep
    exact hout ⟨u, ht, hin, n, hwork ▸ hn, hu⟩
  · obtain ⟨v, hv, hvin, o', ho', hup⟩ := hdraft hend (hu.top_live hs.linked hl)
    exact hout ⟨v, hv, hvin, o', ho', hup.trans hu⟩
  · obtain ⟨v, hv, hvin, o', ho', hup⟩ := hdraft hend (Tree.live_of_parent hx)
    refine hout ⟨v, hv, hvin, o', ho', hup.parent ?_ hx⟩
    rintro rfl
    rw [hs.output_root hv ho'] at hx
    cases hx

/-- The place of a run is gone, and nothing but its drafts is left for it to work on. -/
structure Severed (s : Setup F α) (es : List (World F α × Act F α)) (w : World F α) (id : TaskId)
    (p : NodeId) : Prop where
  orderly : Orderly w
  tended : Tended s es w id
  known : id < w.nextTask
  run : ∀ {t}, t ∈ w.tasks → t.id = id → ∃ r, t.work = .run r ∧ r.place = p
  given : p < w.scene.tree.next
  gone : ¬w.scene.tree.contains p

namespace Severed

variable [LawfulMedium α]

theorem act (h : Severed s es w id p) (hp : a.IsProper w) (hact : w.act s a = some w') :
    Severed s (es ++ [(w, a)]) w' id p := by
  have hs := h.orderly.sound
  have hs' := hs.act hp.1 hact
  have hshift := shift_of_act hs hp.1 hact
  have hfades := (frame_of_act hs hp.1 hact).fades
  have hrun : ∀ {t}, t ∈ w'.tasks → t.id = id → ∃ r, t.work = .run r ∧ r.place = p := by
    intro t ht hid
    rcases hshift.origin hs.roster ht with ⟨v, hv, hvid, _⟩ | ⟨hge, _⟩
    · obtain ⟨r, hwork, hplace⟩ := h.run hv (hvid.trans hid)
      rcases hshift.run hs.roster hv hwork with ⟨phase, hmem, _⟩ | ⟨_, o, settled⟩
      · rw [hs'.roster.id_inj ht hmem hvid.symm]
        exact ⟨_, rfl, hplace⟩
      · exact absurd hvid.symm (settled.ne_of_mem ht)
    · exact absurd (hid ▸ h.known) (Nat.not_lt.mpr hge)
  constructor
  case orderly => exact h.orderly.act hp hact
  case tended =>
    refine h.tended.act hs hp.1 ?_ hact ?_ ?_ ?_
    · exact fun n hn u hu _ => hp.2 n (List.mem_append_left _ (List.mem_append_right _ hn)) u hu
    · intro t ht hid
      obtain ⟨r, hwork, _⟩ := h.run ht hid
      exact ⟨r, hwork⟩
    · intro t ht hid
      obtain ⟨r, hwork, _⟩ := hrun ht hid
      exact ⟨r, hwork⟩
    · intro t ht hid _ q hq
      obtain ⟨r, hwork, rfl⟩ := h.run ht hid
      rw [hwork] at hq
      exact List.mem_singleton.mp hq ▸ Tree.parent?_of_dead h.gone
  case known => exact Nat.lt_of_lt_of_le h.known hshift.next_le
  case run => exact hrun
  case given => exact Nat.lt_of_lt_of_le h.given hfades.next_le
  case gone => exact fun hl => h.gone (hfades.live h.given hl)

/-- Whatever happens properly after a run was severed, it stays so. -/
theorem history {es' : List (World F α × Act F α)} (h : Severed s es v id p)
    (hes : History s (fun v a => a.IsProper v) v es' w) : Severed s (es ++ es') w id p := by
  refine hes.invariant_past (I := fun es' w => Severed s (es ++ es') w id p) ?_ ?_
  · exact (List.append_nil es).symm ▸ h
  · intro es' v a v' hv ok next
    rw [← List.append_assoc]
    exact hv.act ok next

omit [LawfulMedium α] in
/-- The place of a run that works for another is in a draft, and so is what stands under it. -/
theorem inDraft_of_place (h : Severed s es w id p) (ht : t ∈ w.tasks) (hin : t.isWithin id)
    (hwork : t.work = .run r) (hl : w.scene.tree.contains r.place) : w.InDraft id r.place := by
  rcases Task.isWithin_iff.mp hin with hid | howned
  · obtain ⟨r', hwork', hplace⟩ := h.run ht hid
    rw [hwork] at hwork'
    cases hwork'
    exact absurd (hplace ▸ hl) h.gone
  · exact h.tended.confined (h.tended.made ht howned (hwork ▸ List.mem_cons_self)) hl

/-- A step of a run, or of a task that works for it, leaves all nodes outside of their drafts alone. -/
theorem intact (h : Severed s es w id p) (ht : t ∈ w.tasks) (hin : t.isWithin id)
    (hact : w.act s (.step t.id) = some w') (hl : w.scene.tree.contains x)
    (hout : ¬w.InDraft id x) : w.scene.Intact w'.scene x := by
  refine intact_of_step h.orderly.sound ht hin (fun hid => ?_) (fun r _ hwork _ hl => ?_) hact hl hout
  · obtain ⟨r, hwork, _⟩ := h.run ht hid
    exact ⟨r, hwork⟩
  · exact h.inDraft_of_place ht hin hwork hl

/-- A discard severs the runs whose places it takes away. -/
theorem of_discard (h : Orderly v) (htended : Tended s es v t.id) (ht : t ∈ v.tasks)
    (hwork : t.work = .run r) (hu : v.scene.tree.Under n r.place) :
    Severed s (es ++ [(v, .discard n)]) (v.discard n) t.id r.place := by
  have hs := h.sound
  have hpruned := Tree.Pruned.remove hs.linked n
  have hact : v.act s (.discard n) = some (v.discard n) := rfl
  have hrun : ∀ {u}, u ∈ v.tasks → u.id = t.id → u.work = .run r := fun hm hid =>
    hs.roster.id_inj hm ht hid ▸ hwork
  constructor
  case orderly =>
    refine ⟨hs.act (a := .discard n) trivial hact, fun ht hu ho hp hq => h.nested ht hu ho hp ?_⟩
    exact (hpruned.parent (Tree.live_of_parent hq)).symm.trans hq
  case tended =>
    refine htended.act (a := .discard n) hs trivial ?_ hact ?_ ?_ ?_
    · -- The node stands above the place, and all drafts for the place are younger.
      intro m hm u hmem hin ho
      rw [List.mem_singleton.mp hm] at ho
      have hlt := place_lt_draft hs ht hwork hmem hin ho
      exact Nat.not_lt.mpr (hs.linked.le_of_under hu) hlt
    · exact fun u hm hid => ⟨r, hrun hm hid⟩
    · exact fun u hm hid => ⟨r, hrun hm hid⟩
    · rintro u hm _ ⟨o, settled⟩
      exact absurd rfl (settled.ne_of_mem hm)
  case known => exact hs.roster.id_lt ht
  case run => exact fun hm hid => ⟨r, hrun hm hid, rfl⟩
  case given =>
    have hp : r.place < v.scene.tree.next := hs.place_lt ht (hwork ▸ List.mem_cons_self)
    exact hpruned.next.symm ▸ hp
  case gone => exact fun hl => (hpruned.live.mp hl).2 hu

end Severed

section

variable [LawfulMedium α]

/-- A discard takes away a subtree with all that is known about it, and changes nothing else but the
list of children in which its root stood. Whatever a run whose place was there does after that, and
those that work for it, changes nothing outside of their drafts; and once it has ended, nothing is left
of what they made. -/
theorem discarded_stays_gone {registry : Registry F} {tree : Tree α} (htree : tree.Linked)
    {es₀ : List (World F α × Act F α)}
    (h₀ : History s (fun v a => a.IsProper v) (start registry tree) es₀ v) (n : NodeId)
    (h : History s (fun v a => a.IsProper v) (v.discard n) es w) :
    (∀ x, v.scene.tree.contains x →
      (v.scene.tree.Under n x → (v.discard n).scene.Forgotten x) ∧
      (¬v.scene.tree.Under n x → Scene.Spared n v.scene (v.discard n).scene x)) ∧
    ∀ t ∈ v.tasks, ∀ r, t.work = .run r → v.scene.tree.Under n r.place →
      (∀ e ∈ es, ∀ u ∈ e.1.tasks, u.isWithin t.id → e.2 = .step u.id →
        ∀ w', e.1.act s e.2 = some w' → ∀ x, e.1.scene.tree.contains x → ¬e.1.InDraft t.id x →
          e.1.scene.Intact w'.scene x) ∧
      ((∀ u ∈ w.tasks, ¬u.isWithin t.id) →
        ∀ x, Made s t.id (es₀ ++ es) x → ¬w.scene.tree.contains x) := by
  obtain ⟨horderly, _, htended⟩ := tended_of_history htree h₀
  have hlinked := horderly.sound.linked
  refine ⟨fun x hx => ⟨Scene.forgotten_discard hlinked hx, Scene.spared_discard hlinked hx⟩, ?_⟩
  intro t ht r hwork hu
  have hsevered := Severed.of_discard horderly (htended t ht ⟨r, hwork⟩) ht hwork hu
  refine ⟨?_, fun hdone x hx hl => ?_⟩
  · intro e he u hmem hin hstep w' hact x hl hout
    obtain ⟨es', hes'⟩ := h.before he
    exact (hsevered.history hes').intact hmem hin (hstep ▸ hact) hl hout
  · have hmade : Made s t.id (es₀ ++ [(v, .discard n)] ++ es) x :=
      hx.mono (List.append_subset.mpr ⟨by simp, by simp⟩)
    obtain ⟨u, hmem, hin, _⟩ := (hsevered.history h).tended.confined hmade hl
    exact hdone u hmem hin

end

/-- Functions that render one config and wait for it, and paint a text. -/
def waitingScripts : Fin 2 → List (Step (Fin 2) Html.Item)
  | 0 => [.render (.inline 1) .null .null none]
  | 1 => [.plant (Html.leaf (.text "late"))]

def stepsToNesting : List (Act (Fin 2) Html.Item) :=
  [.plant 1 (Html.leaf (.ofTag "div")), .render 2 (.inline 0) .null .null, .step 2, .step 2,
    .step 2]

def stepsToEnd : List (Act (Fin 2) Html.Item) :=
  [.step 3, .step 3, .step 3, .step 3, .step 2, .step 1]

/-- A container is discarded while a view in it waits for a nested one, and both end after that. -/
theorem nothing_left_of_discarded :
    let s : Setup (Fin 2) Html.Item := .scripted waitingScripts
    ∃ (es₀ es : List (World (Fin 2) Html.Item × Act (Fin 2) Html.Item))
      (v w : World (Fin 2) Html.Item), es₀.map Prod.snd = stepsToNesting ∧
      es.map Prod.snd = stepsToEnd ∧ v.scene.tree.contains 3 ∧
      (v.discard 2).scene.Forgotten 3 ∧ w.tasks.length = 0 ∧
      ∀ x, Made s 2 (es₀ ++ es) x → ¬w.scene.tree.contains x := by
  intro s
  have hplay : (play s (fun v a => a.IsProper v)
      (start .empty (.single (Html.Item.ofTag "body"))) stepsToNesting).any (fun v =>
        v.scene.tree.contains 3 && v.scene.tree.parent? 3 == some 2 &&
        (v.task? 2).any (fun t => t.work.places == [3] && t.work.output? == some 4) &&
        (play s (fun v a => a.IsProper v) (v.discard 2) stepsToEnd).any fun w =>
          w.tasks.length == 0) = true := by
    cbv
  obtain ⟨v, hv, hrest⟩ := (Option.any_eq_true _ _).mp hplay
  simp only [Bool.and_eq_true, beq_iff_eq] at hrest
  obtain ⟨⟨⟨hlive, hparent⟩, htask⟩, hrest⟩ := hrest
  obtain ⟨w, hw, hend⟩ := (Option.any_eq_true _ _).mp hrest
  obtain ⟨t, ht, hplaces⟩ := (Option.any_eq_true _ _).mp htask
  simp only [Bool.and_eq_true, beq_iff_eq] at hplaces hend
  obtain ⟨hmem, hid⟩ := task?_eq_some ht
  obtain ⟨r, hwork, _⟩ := Work.run_of_output hplaces.2
  have hplace : r.place = 3 := by simpa [hwork, Work.places] using hplaces.1
  have hunder : v.scene.tree.Under 2 3 := .of_parent hparent
  obtain ⟨es₀, hacts₀, hes₀⟩ := History.of_play hv
  obtain ⟨es, hacts, hes⟩ := History.of_play hw
  obtain ⟨hdiscard, hruns⟩ := discarded_stays_gone (.single _) hes₀ 2 hes
  refine ⟨es₀, es, v, w, hacts₀, hacts, hlive, (hdiscard 3 hlive).1 hunder, hend, ?_⟩
  have hgone := (hruns t hmem r hwork (hplace ▸ hunder)).2
  rw [hid] at hgone
  refine hgone fun u hu => ?_
  rw [List.eq_nil_of_length_eq_zero hend] at hu
  cases hu

end World

end Montage
