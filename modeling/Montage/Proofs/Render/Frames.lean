import Montage.Proofs.Render.Deeds

/-!
What an act leaves alone. Each change of a scene reaches some nodes: their items, their lists of
children, their parents and their places may be others afterwards, and subtrees may be gone. Main
statement: how far each act reaches.
-/

namespace Montage

open Json (Value)

variable {F α : Type}

namespace Scene

/-- The nodes whose item, list of children, parent or place a change may touch, and the roots of what it
takes away. -/
structure Reach where
  item : NodeId → Prop := fun _ => False
  list : NodeId → Prop := fun _ => False
  link : NodeId → Prop := fun _ => False
  place : NodeId → Prop := fun _ => False
  root : NodeId → Prop := fun _ => False

/-- A change reaches no further than another does; what is left out it does not touch at all. -/
structure Reach.Within (R R' : Reach) : Prop where
  item : ∀ x, R.item x → R'.item x := by exact fun _ => False.elim
  list : ∀ x, R.list x → R'.list x := by exact fun _ => False.elim
  link : ∀ x, R.link x → R'.link x := by exact fun _ => False.elim
  place : ∀ x, R.place x → R'.place x := by exact fun _ => False.elim
  root : ∀ x, R.root x → R'.root x := by exact fun _ => False.elim

/-- Nodes that a change does not reach stay as they are, unless they go with a subtree. -/
structure Frame (R : Reach) (s s' : Scene F α) : Prop where
  fades : Tree.Fades s.tree s'.tree
  item : ∀ {x}, x < s.tree.next → s'.tree.contains x → ¬R.item x →
    s'.tree.get? x = s.tree.get? x
  children : ∀ {x}, x < s.tree.next → s'.tree.contains x → ¬R.list x →
    s'.tree.children x = s.tree.children x
  parent : ∀ {x}, x < s.tree.next → s'.tree.contains x → ¬R.link x →
    s'.tree.parent? x = s.tree.parent? x
  places : ∀ {x}, x < s.tree.next → s'.tree.contains x → ¬R.place x →
    s'.places.get? x = s.places.get? x
  gone : ∀ {x}, s.tree.contains x → ¬s'.tree.contains x → ∃ n, R.root n ∧
    (x = n ∨ s.tree.Under n x ∧ ∀ y, s.tree.Under n y → ¬s'.tree.contains y)

variable {s s' s'' : Scene F α} {R R' : Reach} {d n o p x : NodeId}

namespace Frame

theorem mono (h : Frame R s s') (hw : R.Within R') : Frame R' s s' where
  fades := h.fades
  item hx hc hn := h.item hx hc fun hm => hn (hw.item _ hm)
  children hx hc hn := h.children hx hc fun hm => hn (hw.list _ hm)
  parent hx hc hn := h.parent hx hc fun hm => hn (hw.link _ hm)
  places hx hc hn := h.places hx hc fun hm => hn (hw.place _ hm)
  gone hx hd := by
    obtain ⟨n, hn, hu⟩ := h.gone hx hd
    exact ⟨n, hw.root n hn, hu⟩

/-- Changes in a row, of which the first moves no node. -/
theorem trans (h : Frame R s s') (hs : Tree.Steady s.tree s'.tree) (h' : Frame R s' s'') :
    Frame R s s'' where
  fades := h.fades.trans h'.fades
  item hx hc hn :=
    have hx' := Nat.lt_of_lt_of_le hx h.fades.next_le
    (h'.item hx' hc hn).trans (h.item hx (h'.fades.live hx' hc) hn)
  children hx hc hn :=
    have hx' := Nat.lt_of_lt_of_le hx h.fades.next_le
    (h'.children hx' hc hn).trans (h.children hx (h'.fades.live hx' hc) hn)
  parent hx hc hn :=
    have hx' := Nat.lt_of_lt_of_le hx h.fades.next_le
    (h'.parent hx' hc hn).trans (h.parent hx (h'.fades.live hx' hc) hn)
  places hx hc hn :=
    have hx' := Nat.lt_of_lt_of_le hx h.fades.next_le
    (h'.places hx' hc hn).trans (h.places hx (h'.fades.live hx' hc) hn)
  gone {x} hx hd := by
    have hxlt := hs.before.live_lt hx
    have hlt : ∀ {n y}, s.tree.Under n x → s.tree.Under n y → y < s'.tree.next := fun hu huy =>
      Nat.lt_of_lt_of_le (hs.before.under_lt (Nat.lt_of_le_of_lt (hs.before.le_of_under hu) hxlt) huy)
        h.fades.next_le
    by_cases hl : s'.tree.contains x
    · obtain ⟨n, hn, rfl | ⟨hu, hall⟩⟩ := h'.gone hl hd
      · exact ⟨x, hn, .inl rfl⟩
      · have hu' := hs.path_back hu hxlt
        refine ⟨n, hn, .inr ⟨hu', fun y hy hc => ?_⟩⟩
        exact hall y (hs.path hy (h'.fades.live (hlt hu' hy) hc)) hc
    · obtain ⟨n, hn, rfl | ⟨hu, hall⟩⟩ := h.gone hx hl
      · exact ⟨x, hn, .inl rfl⟩
      · exact ⟨n, hn, .inr ⟨hu, fun y hy hc => hall y hy (h'.fades.live (hlt hu hy) hc)⟩⟩

/-- Growth that leaves items alone reaches the node that grows. -/
theorem of_grown (h : Grown (some d) s s')
    (hi : ∀ x < s.tree.next, s'.tree.get? x = s.tree.get? x) :
    Frame { list := (· = d) } s s' where
  fades := h.tree.steady.fades
  item hx _ _ := hi _ hx
  children hx _ hn := h.tree.children hx fun he => hn (Option.some.inj he).symm
  parent hx _ _ := h.tree.parent hx
  places hx _ _ := h.places hx
  gone hx hd := absurd (h.tree.lives hx) hd

theorem of_fresh (h : Grown none s s') : Frame {} s s' where
  fades := h.tree.steady.fades
  item hx _ _ := h.tree.item hx (by simp)
  children hx _ _ := h.tree.children hx (by simp)
  parent hx _ _ := h.tree.parent hx
  places hx _ _ := h.places hx
  gone hx hd := absurd (h.tree.lives hx) hd

/-- A change of what is known about nodes other than places. -/
theorem of_same (ht : s'.tree = s.tree) (hp : s'.places = s.places) : Frame R s s' where
  fades := ⟨ht ▸ Nat.le_refl _, fun _ hl => ht ▸ hl⟩
  item _ _ _ := ht ▸ rfl
  children _ _ _ := ht ▸ rfl
  parent _ _ _ := ht ▸ rfl
  places _ _ _ := hp ▸ rfl
  gone hx hd := absurd (ht ▸ hx) hd

theorem of_modify (h : s.tree.Linked) (n : NodeId) (f : α → α) :
    Frame { item := (· = n) } s { s with tree := s.tree.modify n f } where
  fades := (Tree.Grown.modify h n f).steady.fades
  item hx _ hn := (Tree.Grown.modify h n f).item hx fun he => hn (Option.some.inj he).symm
  children _ _ _ := Tree.children_modify
  parent _ _ _ := Tree.parent?_modify
  places _ _ _ := rfl
  gone hx hd := absurd ((Tree.Grown.modify h n f).lives hx) hd

theorem of_discard (h : s.tree.Linked) (n : NodeId) :
    Frame { list := fun x => s.tree.parent? n = some x, root := (· = n) } s (s.discard n) where
  fades := (Tree.Pruned.remove h n).steady.fades
  item _ hc _ := (Tree.Pruned.remove h n).item hc
  children _ hc hn := ((Tree.Pruned.remove h n).children hc).trans (if_neg hn)
  parent _ hc _ := (Tree.Pruned.remove h n).parent hc
  places _ hc _ := by
    rw [get?_places_discard, if_neg]
    exact fun hm => ((Tree.contains_remove h).mp hc).2 ((Tree.mem_remove h).mp hm).2
  gone {x} hx hd := by
    have hpruned := Tree.Pruned.remove h n
    refine ⟨n, rfl, .inr ⟨Classical.byContradiction fun hu => ?_, fun y hu hc => ?_⟩⟩
    · exact hd (hpruned.live.mpr ⟨hx, hu⟩)
    · exact (hpruned.live.mp hc).2 hu

theorem of_filled {item : α} (h : Filled p item s.tree s'.tree) (hp : p < s.tree.next)
    (hplaces : s'.places = s.places.erase p) :
    Frame { list := fun x => s.tree.parent? p = some x, place := (· = p), root := (· = p) } s s' := by
  have hpl : ∀ {x}, x ≠ p → s'.places.get? x = s.places.get? x := fun hx => by
    rw [hplaces, Table.get?_erase, if_neg hx]
  cases h with
  | @kept q t₁ attached root spliced =>
    constructor
    case fades => exact root.grown.steady.fades.trans spliced.fades
    case item => exact fun hx hc _ => (spliced.item hc).trans (root.grown.item hx (by simp))
    case children =>
      intro x hx hc hn
      rw [spliced.children hc, if_neg, root.grown.children hx (by simp)]
      rintro rfl
      exact hn attached
    case parent =>
      intro x hx hc _
      rw [spliced.parent hc, if_neg, root.grown.parent hx]
      exact fun hm => Nat.ne_of_lt hx (List.mem_singleton.mp hm)
    case places => exact fun _ _ hn => hpl hn
    case gone =>
      intro x hx hd
      have hxlt := root.grown.before.live_lt hx
      refine ⟨p, rfl, .inr ⟨Classical.byContradiction fun hu => hd (spliced.live.mpr ?_), ?_⟩⟩
      · exact ⟨root.grown.lives hx, fun hu' => hu (root.grown.steady.path_back hu' hxlt), by simp⟩
      · intro y hu hc
        have hy := (root.grown.steady.fades.trans spliced.fades).live
          (root.grown.before.under_lt hp hu) hc
        exact (spliced.live.mp hc).2.1 (root.grown.path hu hy)
  | @lost t₁ root detached pruned =>
    have hlives : ∀ {x}, s.tree.contains x → s'.tree.contains x := fun hx =>
      pruned.live.mpr ⟨root.grown.lives hx, fun hu => Nat.not_lt.mpr
        (root.grown.after.le_of_under hu) (root.grown.before.live_lt hx)⟩
    constructor
    case fades => exact root.grown.steady.fades.trans pruned.steady.fades
    case item => exact fun hx hc _ => (pruned.item hc).trans (root.grown.item hx (by simp))
    case children =>
      intro x hx hc _
      rw [pruned.children hc, if_neg (by simp [root.parent]), root.grown.children hx (by simp)]
    case parent => exact fun hx hc _ => (pruned.parent hc).trans (root.grown.parent hx)
    case places => exact fun _ _ hn => hpl hn
    case gone => exact fun hx hd => absurd (hlives hx) hd

variable [Medium α]

theorem of_skip (h : s.tree.Linked) (p : NodeId) :
    Frame { item := (· = p), place := (· = p) } s (s.skip p) where
  fades := (skip_steady h).steady.fades
  item hx _ hn := (skip_steady h).item hx fun he => hn (Option.some.inj he).symm
  children _ _ _ := Tree.children_modify
  parent _ _ _ := Tree.parent?_modify
  places _ _ hn := get?_places_skip.trans (if_neg hn)
  gone hx hd := absurd ((skip_steady (p := p) h).lives hx) hd

theorem of_takes {rs : List (Run F α)} (h : Takes d s s' rs) : Frame { list := (· = d) } s s' :=
  .of_grown h.grown h.items

theorem of_takesList {more : Option NodeId} {batches : List (List (Run F α))}
    (h : TakesList d more s s' batches) :
    Frame { list := fun x => x = d ∨ x = more.getD d } s s' := by
  have hd {s s' : Scene F α} (h : Frame { list := (· = d) } s s') :
      Frame { list := fun x => x = d ∨ x = more.getD d } s s' :=
    h.mono { list := fun _ => .inl }
  cases h with
  | all takes => exact hd (.of_takes takes)
  | part s₁ takes grown items =>
    refine (hd (.of_takes takes)).trans takes.grown.tree.steady ?_
    exact (of_grown grown items).mono { list := fun _ => .inr }

theorem of_finished {prov : Provenance F} (h : Finished p o prov s s')
    (hroot : s.tree.parent? o = none) (ho : o < s.tree.next) (hp : p < s.tree.next) :
    Frame { item := (· = o), list := fun x => s.tree.parent? p = some x, link := (· ∈ s.placed o),
            place := (· = p), root := fun n => n = p ∨ n = o } s s' := by
  have hne : ∀ {x : NodeId}, ¬x = o → some o ≠ some x := fun hx he => hx (Option.some.inj he).symm
  cases h with
  | @kept q t₁ attached decorated same spliced provenance places =>
    have hkids : t₁.offered (s.isFragment o) o = s.placed o := by
      rw [placed_eq_offered, Tree.offered, Tree.offered, same]
    constructor
    case fades => exact decorated.steady.fades.trans spliced.fades
    case item => exact fun hx hc hn => (spliced.item hc).trans (decorated.item hx (hne hn))
    case children =>
      intro x hx hc hn
      rw [spliced.children hc, if_neg, same]
      rintro rfl
      exact hn attached
    case parent =>
      intro x hx hc hn
      rw [spliced.parent hc, if_neg, decorated.parent hx]
      rw [hkids]
      exact hn
    case places =>
      intro x _ _ hn
      rw [places, Table.get?_erase, if_neg hn]
    case gone =>
      intro x hx hd
      have hxlt := decorated.before.live_lt hx
      by_cases hu : s.tree.Under p x
      · refine ⟨p, .inl rfl, .inr ⟨hu, fun y hu hc => ?_⟩⟩
        have hy := (decorated.steady.fades.trans spliced.fades).live
          (decorated.before.under_lt hp hu) hc
        exact (spliced.live.mp hc).2.1 (decorated.path hu hy)
      · refine ⟨o, .inr rfl, .inl (Classical.byContradiction fun hxo => hd (spliced.live.mpr ?_))⟩
        exact ⟨decorated.lives hx, fun hu' => hu (decorated.steady.path_back hu' hxlt),
          fun hf => hxo hf.2⟩
  | @lost t₁ decorated detached pruned provenance places =>
    constructor
    case fades => exact decorated.steady.fades.trans pruned.steady.fades
    case item => exact fun hx hc hn => (pruned.item hc).trans (decorated.item hx (hne hn))
    case children =>
      intro x hx hc _
      have hxo : ¬x = o := by
        rintro rfl
        exact pruned.gone hc
      rw [pruned.children hc, decorated.parent ho, if_neg (by simp [hroot]),
        decorated.children hx (hne hxo)]
    case parent => exact fun hx hc _ => (pruned.parent hc).trans (decorated.parent hx)
    case places =>
      intro x _ _ hn
      rw [places, Table.get?_erase, if_neg hn]
    case gone =>
      intro x hx hd
      have hxlt := decorated.before.live_lt hx
      refine ⟨o, .inr rfl, .inr ⟨Classical.byContradiction fun hu => hd (pruned.live.mpr ?_), ?_⟩⟩
      · exact ⟨decorated.lives hx, fun hu' => hu (decorated.steady.path_back hu' hxlt)⟩
      · intro y hu hc
        have hy := (decorated.steady.fades.trans pruned.steady.fades).live
          (decorated.before.under_lt ho hu) hc
        exact (pruned.live.mp hc).2 (decorated.path hu hy)

end Frame

end Scene

variable [Medium α]

namespace Act

/-- The step of a run. -/
def Steps (w : World F α) (a : Act F α) (t : Task F α) (r : Run F α) : Prop :=
  t ∈ w.tasks ∧ t.work = .run r ∧ a = .step t.id

/-- The last step of a run. -/
def Ends (w : World F α) (a : Act F α) (w' : World F α) (t : Task F α) (r : Run F α)
    (o : Outcome) : Prop :=
  a.Steps w t r ∧ World.Settled w t o w'

/-- How far an act reaches. -/
def reach (w : World F α) (a : Act F α) (w' : World F α) : Scene.Reach where
  item x := x ∈ a.marked ∨ (∃ t r, a.Steps w t r ∧ r.output? = some x) ∨
    ∃ t r o, a.Ends w w' t r o ∧ r.place = x
  list x := x ∈ a.containers w ∨ (∃ n ∈ a.discarded w, w.scene.tree.parent? n = some x) ∨
    (∃ t r, a.Steps w t r ∧ r.output? = some x ∧ r.grows) ∨
    ∃ t r o, a.Ends w w' t r o ∧ o ≠ .skipped ∧ w.scene.tree.parent? r.place = some x
  link x := ∃ t r n, a.Ends w w' t r .rendered ∧ r.output? = some n ∧ x ∈ w.scene.placed n
  place x := ∃ t r o, a.Ends w w' t r o ∧ r.place = x
  root x := x ∈ a.discarded w ∨
    ∃ t r o, a.Ends w w' t r o ∧ o ≠ .skipped ∧ (r.place = x ∨ r.output? = some x)

end Act

namespace World

open Scene (Frame)

variable {s : Setup F α} {w w' : World F α} {a : Act F α} {t : Task F α} {r : Run F α}
  {o x : NodeId}

theorem Drawn.frame {sc sc' : Scene F α} {st : Step F α} (h : Drawn o sc st sc')
    (hl : sc.tree.Linked) (ho : o < sc.tree.next) :
    Frame { item := (· = o), list := fun x => x = o ∧ st.fills = true } sc sc' := by
  cases h with
  | plant rose =>
    have hf := Frame.of_grown (.of_tree (.plant rose hl ho)) fun x hx =>
      Tree.get?_plant rose hl ho hx
    exact hf.mono { list := fun _ hx => ⟨hx, rfl⟩ }
  | mark m =>
    exact (Frame.of_modify hl o (Medium.mark m)).mono { item := fun _ => id }
  | onClick events => exact .of_same rfl rfl

theorem targets_turn (h : Roster w) (ht : t ∈ w.tasks) {wrapper d : NodeId} {page : Page F}
    {all : Bool} {es : List (Errand F)}
    (hwork : t.work = .errands (.turn wrapper d page all :: es)) :
    (Act.step t.id).containers w = [d, page.more.getD d] ∧
      (Act.step t.id).discarded w = [wrapper] := by
  simp [Act.containers, Act.discarded, h.task? ht, hwork]

variable [LawfulMedium α]

/-- A run that fails is reached at its place and at its output. -/
theorem frame_of_failed (h : Sound w) (ht : t ∈ w.tasks) (hwork : t.work = .run r)
    {sc : Scene F α} (hsc : sc = w.scene ∨ ∃ n, r.output? = some n ∧ sc = w.scene.discard n)
    {e : Error} {offending : Option Value} (hs : w'.scene = sc.fillWithError r.place e offending)
    {oc : Outcome} (hne : oc ≠ .skipped) (hsettled : Settled w t oc w') :
    Frame ((Act.step t.id).reach w w') w.scene w'.scene := by
  have hends : (Act.step t.id).Ends w w' t r oc := ⟨⟨ht, hwork, rfl⟩, hsettled⟩
  have hp : r.place < w.scene.tree.next := h.place_lt ht (hwork ▸ List.mem_cons_self)
  obtain ⟨hmild, hnext, hf⟩ := filled_of_fails h ht hwork hsc e offending
  have hfill := Frame.of_filled hf (hnext.symm ▸ hp) (Scene.fillWithError_frame e offending).1
  rw [← hs] at hfill
  have hreach : Frame ((Act.step t.id).reach w w') sc w'.scene := by
    refine hfill.mono { list := ?_, place := ?_, root := ?_ }
    · intro x hx
      refine .inr (.inr (.inr ⟨t, r, oc, hends, hne, ?_⟩))
      rw [← hmild.steady.parent hp (Tree.live_of_parent hx)]
      exact hx
    · rintro _ rfl
      exact ⟨t, r, oc, hends, rfl⟩
    · rintro _ rfl
      exact .inr ⟨t, r, oc, hends, hne, .inl rfl⟩
  rcases hsc with rfl | ⟨n, hn, rfl⟩
  · exact hreach
  · refine Frame.trans ?_ hmild.steady hreach
    refine (Frame.of_discard h.linked n).mono { list := ?_, root := ?_ }
    · intro x hx
      rw [h.output_root ht (hwork ▸ hn)] at hx
      cases hx
    · rintro _ rfl
      exact .inr ⟨t, r, oc, hends, hne, .inr hn⟩

/-- A run that is done is reached at its output, and where that takes its place. -/
theorem frame_of_completed (h : Sound w) (ht : t ∈ w.tasks) (hwork : t.work = .run r)
    (hpainting : r.output? = some o) {settings : Settings} {p : Prepared F}
    (hs : w'.scene = (w.scene.decorate settings r.resolved.name? o p r.context).finish r.place o
      (r.provenance p)) (hsettled : Settled w t .rendered w') :
    Frame ((Act.step t.id).reach w w') w.scene w'.scene := by
  have hends : (Act.step t.id).Ends w w' t r .rendered := ⟨⟨ht, hwork, rfl⟩, hsettled⟩
  have hout : t.work.output? = some o := hwork ▸ hpainting
  have hf := finished_of_completes h ht hwork hpainting settings p
  rw [← hs] at hf
  have hfinished := Frame.of_finished hf (h.output_root ht hout) (h.output_lt ht hout)
    (h.place_lt ht (hwork ▸ List.mem_cons_self))
  refine hfinished.mono { item := ?_, list := ?_, link := ?_, place := ?_, root := ?_ }
  · rintro _ rfl
    exact .inr (.inl ⟨t, r, ⟨ht, hwork, rfl⟩, hpainting⟩)
  · exact fun x hx => .inr (.inr (.inr ⟨t, r, _, hends, by simp, hx⟩))
  · exact fun x hx => ⟨t, r, o, hends, hpainting, hx⟩
  · rintro _ rfl
    exact ⟨t, r, _, hends, rfl⟩
  · rintro n (rfl | rfl)
    · exact .inr ⟨t, r, _, hends, by simp, .inl rfl⟩
    · exact .inr ⟨t, r, _, hends, by simp, .inr hpainting⟩

theorem frame_of_turn (h : Sound w) (ht : t ∈ w.tasks) (hturn : Turn s w t w') :
    Frame ((Act.step t.id).reach w w') w.scene w'.scene := by
  have hl := h.linked
  have hsame : w'.scene = w.scene → Frame ((Act.step t.id).reach w w') w.scene w'.scene :=
    fun hs => .of_same (congrArg Scene.tree hs) (congrArg Scene.places hs)
  have hgrows : ∀ {r o}, t.work = .run r → r.output? = some o → r.grows →
      Frame { list := (· = o) } w.scene w'.scene →
      Frame ((Act.step t.id).reach w w') w.scene w'.scene := by
    intro r o work painting hst hf
    refine hf.mono { list := ?_ }
    rintro _ rfl
    exact .inr (.inr (.inl ⟨t, r, ⟨ht, work, rfl⟩, painting, hst⟩))
  cases hturn with
  | waits r phase work output scene moved => exact hsame scene
  | begins r phase shape work fresh output scene moved =>
    rw [scene]
    exact (Frame.of_fresh (.of_tree (.create hl _))).mono {}
  | draws r o phase work painting output step script drawn moved =>
    have ho := h.output_lt ht (work ▸ painting : t.work.output? = some o)
    refine (drawn.frame hl ho).mono { item := ?_, list := ?_ }
    · rintro _ rfl
      exact .inr (.inl ⟨t, r, ⟨ht, work, rfl⟩, painting⟩)
    · rintro _ ⟨rfl, hst⟩
      exact .inr (.inr (.inl ⟨t, r, ⟨ht, work, rfl⟩, painting, step, script, .inl hst⟩))
  | nests r o phase raw around work painting output script scene moved =>
    have ho : t.work.output? = some o := work ▸ painting
    refine hgrows work painting ⟨_, script, .inr ⟨_, _, _, _, rfl⟩⟩ (scene ▸ ?_)
    exact .of_takes (h.takes_own ht ho s around raw)
  | starts r o phase raw around work painting output script scene moved =>
    have ho : t.work.output? = some o := work ▸ painting
    refine hgrows work painting ⟨_, script, .inl rfl⟩ (scene ▸ ?_)
    exact .of_takes (h.takes_own ht ho s around raw)
  | lists r o phase page work painting output script own scene moved =>
    have ho : t.work.output? = some o := work ▸ painting
    have hlist := h.takesList_own ht ho s own
    refine hgrows work painting ⟨_, script, .inl rfl⟩ (scene ▸ ?_)
    exact (Frame.of_takesList hlist).mono { list := by simp }
  | skips r work fresh scene settled =>
    have hends : (Act.step t.id).Ends w w' t r .skipped := ⟨⟨ht, work, rfl⟩, settled⟩
    rw [scene]
    refine (Frame.of_skip hl r.place).mono { item := ?_, place := ?_ }
    · rintro _ rfl
      exact .inr (.inr ⟨t, r, _, hends, rfl⟩)
    · rintro _ rfl
      exact ⟨t, r, _, hends, rfl⟩
  | fails r e offending o work fresh wrong scene settled =>
    refine frame_of_failed h ht work (.inl rfl) scene ?_ settled
    rcases wrong with rfl | rfl <;> simp
  | abandons r o e work painting scene settled =>
    exact frame_of_failed h ht work (.inr ⟨o, painting, rfl⟩) scene (by simp) settled
  | completes r o p work painting scene settled =>
    exact frame_of_completed h ht work painting scene settled
  | expands rs work scene moved => exact hsame scene
  | passes e es work scene moved => exact hsame scene
  | turns wrapper container page all es work scene moved =>
    obtain ⟨hcontainers, hdiscarded⟩ := targets_turn h.roster ht work
    have hlist := h.takesList_turn ht work s
    rw [← scene] at hlist
    have hdiscard : Frame ((Act.step t.id).reach w w') w.scene (w.scene.discard wrapper) := by
      refine (Frame.of_discard hl wrapper).mono { list := ?_, root := ?_ }
      · exact fun x hx => .inr (.inl ⟨wrapper, by simp [hdiscarded], hx⟩)
      · rintro _ rfl
        exact .inl (by simp [hdiscarded])
    refine hdiscard.trans (Tree.Pruned.remove hl wrapper).steady ?_
    exact (Frame.of_takesList hlist).mono {
      list := fun x hx => .inl (by simpa [hcontainers] using hx) }
  | ends work scene ended => exact hsame scene

/-- Nodes that an act does not reach stay as they are. -/
theorem frame_of_act (h : Sound w) (ha : a.Known w.scene.tree.next) (hact : w.act s a = some w') :
    Frame (a.reach w w') w.scene w'.scene := by
  have hl := h.linked
  have hlist : ∀ {P : NodeId → Prop}, (∀ x, P x → x ∈ a.containers w) →
      Frame { list := P } w.scene w'.scene → Frame (a.reach w w') w.scene w'.scene := fun hP hf =>
    hf.mono { list := fun x hx => .inl (hP x hx) }
  have hsame : w'.scene = w.scene → Frame (a.reach w w') w.scene w'.scene :=
    fun hs => .of_same (congrArg Scene.tree hs) (congrArg Scene.places hs)
  cases a with
  | render d raw data context =>
    cases hact
    exact hlist (by simp [Act.containers])
      (.of_takes (takes_takeUpAll (w := w) ⟨data, context, none⟩ (raw.normalize s.engine) hl ha))
  | renderConfig d c data context =>
    cases hact
    exact hlist (by simp [Act.containers])
      (.of_takes (takes_takeUp (w := w) hl ha ⟨data, context, none⟩ c))
  | renderList d page =>
    cases hact
    exact hlist (by simp [Act.containers])
      (.of_takesList (takes_takeUpList (w := w) s page false hl ha.1 ha.2))
  | click n =>
    simp only [World.act, World.click] at hact
    split at hact <;> cases hact <;> exact hsame rfl
  | discard n =>
    cases hact
    refine (Frame.of_discard hl n).mono { list := ?_, root := ?_ }
    · exact fun x hx => .inr (.inl ⟨n, by simp [Act.discarded], hx⟩)
    · rintro _ rfl
      exact .inl (by simp [Act.discarded])
  | create item =>
    cases hact
    exact (Frame.of_fresh (.of_tree (.create hl item))).mono {}
  | plant d rose =>
    cases hact
    exact hlist (by simp [Act.containers]) (.of_grown (.of_tree (.plant rose hl ha)) fun x hx =>
      Tree.get?_plant rose hl ha hx)
  | mark n m =>
    cases hact
    refine (Frame.of_modify hl n (Medium.mark m)).mono { item := ?_ }
    rintro _ rfl
    exact .inl (by simp [Act.marked])
  | popup n => cases hact; exact .of_same rfl rfl
  | define v =>
    simp only [World.act] at hact
    split at hact
    · cases hact
      exact hsame rfl
    · cases hact
  | release g => cases hact; exact hsame rfl
  | note ts => cases hact; exact hsame (noteWaiting_frame (w := w) ts).1
  | step id =>
    obtain ⟨t, ht, rfl, _, hturn⟩ := turn_of_step hact
    exact frame_of_turn h ht hturn

end World

end Montage
