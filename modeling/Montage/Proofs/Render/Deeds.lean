import Montage.Proofs.Render.Soundness

/-!
What an act does to the scene, seen from afar. Main statement: an act leaves the nodes where they are
and what is known about those that stay, or it is the step in which a run fails or completes.
-/

namespace Montage

open Json (Value)

variable {F α : Type}

namespace Scene

variable {s s' s'' : Scene F α} {n p x : NodeId}

/-- Something is known about a node: a place is held by it, or it came from a config. -/
def HasEntry (s : Scene F α) (x : NodeId) : Prop :=
  s.places.contains x ∨ s.provenance.contains x

/-- No node moves, and what is known about nodes goes with the nodes. -/
structure Mild (s s' : Scene F α) : Prop where
  steady : Tree.Steady s.tree s'.tree
  entries : ∀ {x}, s'.HasEntry x → s.HasEntry x ∨ s.tree.next ≤ x ∧ s'.tree.contains x
  dead : ∀ {x}, s'.HasEntry x → ¬s'.tree.contains x → ¬s.tree.contains x
  provenance_old : ∀ {x}, s'.provenance.contains x → s.provenance.contains x
  provenance_kept : ∀ {x}, x < s.tree.next → s'.tree.contains x →
    s'.provenance.get? x = s.provenance.get? x

namespace Mild

theorem trans (h : Mild s s') (h' : Mild s' s'') : Mild s s'' where
  steady := h.steady.trans h'.steady
  entries {x} hx := by
    rcases h'.entries hx with hx' | ⟨hge, hl⟩
    · rcases h.entries hx' with hx' | ⟨hge, hl⟩
      · exact .inl hx'
      · exact .inr ⟨hge, Classical.byContradiction fun hd => h'.dead hx hd hl⟩
    · exact .inr ⟨Nat.le_trans h.steady.next_le hge, hl⟩
  dead {x} hx hd := by
    have hd' := h'.dead hx hd
    rcases h'.entries hx with hx | ⟨_, hl⟩
    · exact h.dead hx hd'
    · exact absurd hl hd
  provenance_old hx := h.provenance_old (h'.provenance_old hx)
  provenance_kept hx hl := by
    have hx' := Nat.lt_of_lt_of_le hx h.steady.next_le
    exact (h'.provenance_kept hx' hl).trans (h.provenance_kept hx (h'.steady.live hx' hl))

theorem of_same (h : s.tree.Linked) (ht : s'.tree = s.tree) (hp : s'.places = s.places)
    (hv : s'.provenance = s.provenance) : Mild s s' where
  steady := ht ▸ (Tree.Grown.refl h none).steady
  entries hx := .inl (by rwa [HasEntry, hp, hv] at hx)
  dead _ hd := ht ▸ hd
  provenance_old hx := hv ▸ hx
  provenance_kept _ _ := by rw [hv]

theorem of_grown {e : Option NodeId} (h : Grown e s s') : Mild s s' where
  steady := h.tree.steady
  entries {x} hx := by
    rcases hx with hx | hx
    · by_cases hlt : x < s.tree.next
      · rw [Table.contains, h.places hlt] at hx
        exact .inl (.inl hx)
      · exact (h.places_live hx).imp .inl fun hl => ⟨Nat.not_lt.mp hlt, hl⟩
    · exact .inl (.inr (h.provenance ▸ hx))
  dead _ hd hl := hd (h.tree.lives hl)
  provenance_old hx := h.provenance ▸ hx
  provenance_kept _ _ := by rw [h.provenance]

/-- A discard forgets all nodes that it takes away. -/
theorem of_discard (h : s.tree.Linked) (n : NodeId) : Mild s (s.discard n) := by
  have hentry : ∀ {x}, (s.discard n).HasEntry x → s.HasEntry x ∧ x ∉ (s.tree.remove n).2 := by
    intro x hx
    rw [HasEntry, Table.contains, Table.contains, get?_places_discard,
      get?_provenance_discard] at hx
    split at hx
    · simp at hx
    · exact ⟨hx, ‹_›⟩
  constructor
  case steady => exact (Tree.Pruned.remove h n).steady
  case entries => exact fun hx => .inl (hentry hx).1
  case dead =>
    intro x hx hd hl
    refine hd ((Tree.contains_remove h).mpr ⟨hl, fun hu => ?_⟩)
    exact (hentry hx).2 ((Tree.mem_remove h).mpr ⟨hl, hu⟩)
  case provenance_old =>
    intro x hx
    rw [Table.contains, get?_provenance_discard] at hx
    split at hx
    · cases hx
    · exact hx
  case provenance_kept =>
    intro x _ hl
    rw [get?_provenance_discard, if_neg]
    intro hm
    exact ((Tree.contains_remove h).mp hl).2 ((Tree.mem_remove h).mp hm).2

variable [Medium α]

theorem of_skip (h : s.tree.Linked) (p : NodeId) : Mild s (s.skip p) where
  steady := (skip_steady h).steady
  entries {x} hx := by
    refine .inl (hx.imp_left fun hx => ?_)
    rw [Table.contains, get?_places_skip] at hx
    split at hx
    · exact Option.isSome_map.symm.trans hx
    · exact hx
  dead _ hd hl := hd ((skip_steady (s := s) (p := p) h).lives hl)
  provenance_old hx := hx
  provenance_kept _ _ := rfl

theorem of_takesList {d : NodeId} {more : Option NodeId} {batches : List (List (Run F α))}
    (h : TakesList d more s s' batches) : Mild s s' := by
  cases h with
  | all takes => exact of_grown takes.grown
  | part s₁ takes grown items => exact (of_grown takes.grown).trans (of_grown grown)

end Mild

end Scene

variable [Medium α]

namespace World

/-- What an act does to the scene. -/
inductive Deed (s : Setup F α) (w w' : World F α) : Act F α → Prop
  | mild {a : Act F α} (mild : Scene.Mild w.scene w'.scene)
      (quiet : ∀ {id o}, w'.outcomeOf? id = some o → w.outcomeOf? id = some o ∨ o = .skipped) :
      Deed s w w' a
  /-- A run puts an error in its place. -/
  | fails {t : Task F α} {r : Run F α} {sc : Scene F α} {e : Error} {offending : Option Value}
      {o : Outcome} (mem : t ∈ w.tasks) (alone : w.hasChildren t.id = false)
      (work : t.work = .run r)
      (before : sc = w.scene ∨ ∃ n, r.output? = some n ∧ sc = w.scene.discard n)
      (wrong : o = .error ∨ o = .renderedError)
      (scene : w'.scene = sc.fillWithError r.place e offending) (settled : Settled w t o w') :
      Deed s w w' (.step t.id)
  /-- A run puts its output in its place. -/
  | completes {t : Task F α} {r : Run F α} {n : NodeId} {p : Prepared F} (mem : t ∈ w.tasks)
      (alone : w.hasChildren t.id = false) (work : t.work = .run r) (output : r.output? = some n)
      (scene : w'.scene = (w.scene.decorate s.settings r.resolved.name? n p r.context).finish
        r.place n (r.provenance p))
      (settled : Settled w t .rendered w') (ready : r.ready? = some p) : Deed s w w' (.step t.id)

variable {s : Setup F α} {w w' : World F α}

theorem deed_of_turn {t : Task F α} (h : Sound w) (ht : t ∈ w.tasks)
    (hc : w.hasChildren t.id = false) (hturn : Turn s w t w') : Deed s w w' (.step t.id) := by
  have hl := h.linked
  have hmild : w'.outcomes = w.outcomes → Scene.Mild w.scene w'.scene →
      Deed s w w' (.step t.id) := fun ho hm =>
    .mild hm fun hj => .inl (by rwa [outcomeOf?, ho] at hj)
  have hsame : w'.scene = w.scene → Scene.Mild w.scene w'.scene := fun hs =>
    .of_same hl (congrArg Scene.tree hs) (congrArg Scene.places hs) (congrArg Scene.provenance hs)
  cases hturn with
  | waits r phase work output scene moved => exact hmild moved.outcomes (hsame scene)
  | begins r phase shape work fresh output scene moved =>
    exact hmild moved.outcomes (scene ▸ .of_grown (.of_tree (.create hl _)))
  | draws r o phase work painting output step script drawn moved =>
    have ho := h.output_lt ht (work ▸ painting : t.work.output? = some o)
    exact hmild moved.outcomes (.of_grown (drawn.grown hl ho))
  | nests r o phase raw around work painting output script scene moved =>
    have ho : t.work.output? = some o := work ▸ painting
    exact hmild moved.outcomes (scene ▸ .of_grown (h.takes_own ht ho s around raw).grown)
  | starts r o phase raw around work painting output script scene moved =>
    have ho : t.work.output? = some o := work ▸ painting
    exact hmild moved.outcomes (scene ▸ .of_grown (h.takes_own ht ho s around raw).grown)
  | lists r o phase page work painting output script own scene moved =>
    have ho : t.work.output? = some o := work ▸ painting
    exact hmild moved.outcomes (scene ▸ .of_takesList (h.takesList_own ht ho s own))
  | skips r work fresh scene settled =>
    refine .mild (scene ▸ .of_skip hl r.place) fun {id o} hj => ?_
    rw [outcomeOf?, settled.outcomes, Table.get?_insert] at hj
    split at hj
    · exact .inr (Option.some.inj hj).symm
    · exact .inl hj
  | fails r e offending o work fresh wrong scene settled =>
    exact .fails ht hc work (.inl rfl) wrong scene settled
  | abandons r o e work painting scene settled =>
    exact .fails ht hc work (.inr ⟨o, painting, rfl⟩) (.inr rfl) scene settled
  | completes r o p work painting scene settled ready =>
    exact .completes ht hc work painting scene settled ready
  | expands rs work scene moved => exact hmild moved.outcomes (hsame scene)
  | passes e es work scene moved => exact hmild moved.outcomes (hsame scene)
  | turns wrapper container page all es work scene moved =>
    have hlist := Scene.Mild.of_takesList (h.takesList_turn ht work s)
    exact hmild moved.outcomes (scene ▸ (Scene.Mild.of_discard hl wrapper).trans hlist)
  | ends work scene ended => exact hmild ended.outcomes (hsame scene)

theorem deed_of_act {a : Act F α} (h : Sound w) (ha : a.Known w.scene.tree.next)
    (hact : w.act s a = some w') : Deed s w w' a := by
  have hl := h.linked
  have hmild : w'.outcomes = w.outcomes → Scene.Mild w.scene w'.scene → Deed s w w' a :=
    fun ho hm => .mild hm fun hj => .inl (by rwa [outcomeOf?, ho] at hj)
  have hsame : w'.scene = w.scene → Scene.Mild w.scene w'.scene := fun hs =>
    .of_same hl (congrArg Scene.tree hs) (congrArg Scene.places hs) (congrArg Scene.provenance hs)
  cases a with
  | render d raw data context =>
    cases hact
    exact hmild (sameTasks_takeUpAll d _ _).outcomes
      (.of_grown (takes_takeUpAll _ (raw.normalize s.engine) hl ha).grown)
  | renderConfig d c data context =>
    cases hact
    exact hmild rfl (.of_grown (takes_takeUp hl ha ⟨data, context, none⟩ c).grown)
  | renderList d page =>
    cases hact
    exact hmild (sameTasks_takeUpList d page false).outcomes
      (.of_takesList (takes_takeUpList s page false hl ha.1 ha.2))
  | click n =>
    simp only [World.act, World.click] at hact
    split at hact <;> cases hact <;> exact hmild rfl (hsame rfl)
  | discard n =>
    cases hact
    exact hmild rfl (.of_discard hl n)
  | create item =>
    cases hact
    exact hmild rfl (.of_grown (.of_tree (.create hl item)))
  | plant d rose =>
    cases hact
    exact hmild rfl (.of_grown (.of_tree (.plant rose hl ha)))
  | mark n m =>
    cases hact
    exact hmild rfl (.of_grown (.of_tree (.modify hl n _)))
  | popup n =>
    cases hact
    exact hmild rfl (.of_same hl rfl rfl rfl)
  | define v =>
    simp only [World.act] at hact
    split at hact
    · cases hact
      exact hmild rfl (hsame rfl)
    · cases hact
  | release g =>
    cases hact
    exact hmild rfl (hsame rfl)
  | note ts =>
    cases hact
    obtain ⟨hs, ht⟩ := noteWaiting_frame (w := w) ts
    exact hmild ht.outcomes (hsame hs)
  | step id =>
    obtain ⟨t, ht, rfl, hc, hturn⟩ := turn_of_step hact
    exact deed_of_turn h ht hc hturn

/-! How a run that ends leaves the scene. -/

section Settling

variable [LawfulMedium α] {t : Task F α} {r : Run F α} {n : NodeId}

theorem filled_of_fails (h : Sound w) (ht : t ∈ w.tasks) (hwork : t.work = .run r)
    {sc : Scene F α} (hsc : sc = w.scene ∨ ∃ n, r.output? = some n ∧ sc = w.scene.discard n)
    (e : Error) (offending : Option Value) :
    Scene.Mild w.scene sc ∧ sc.tree.next = w.scene.tree.next ∧
      Scene.Filled r.place (Medium.failure (α := α) e offending).item sc.tree
        (sc.fillWithError r.place e offending).tree := by
  have hp : r.place < w.scene.tree.next := h.place_lt ht (hwork ▸ List.mem_cons_self)
  rcases hsc with rfl | ⟨n, _, rfl⟩
  · exact ⟨.of_same h.linked rfl rfl rfl, rfl, Scene.fillWithError_filled e offending h.linked hp⟩
  · have hpruned := Tree.Pruned.remove h.linked n
    exact ⟨.of_discard h.linked n, hpruned.next,
      Scene.fillWithError_filled e offending hpruned.after (hpruned.next.symm ▸ hp)⟩

theorem finished_of_completes (h : Sound w) (ht : t ∈ w.tasks) (hwork : t.work = .run r)
    (ho : r.output? = some n) (settings : Settings) (p : Prepared F) :
    Scene.Finished r.place n (r.provenance p) w.scene
      ((w.scene.decorate settings r.resolved.name? n p r.context).finish r.place n
        (r.provenance p)) := by
  have hout : t.work.output? = some n := hwork ▸ ho
  exact Scene.finished h.linked (h.younger ht hwork ho) (h.output_root ht hout)
    (h.output_lt ht hout) ..

/-- No act brings a node back. -/
theorem Deed.fades {a : Act F α} (h : Sound w) (hd : Deed s w w' a) :
    Tree.Fades w.scene.tree w'.scene.tree := by
  cases hd with
  | mild mild quiet => exact mild.steady.fades
  | @fails t r sc e offending o mem alone work before wrong scene settled =>
    obtain ⟨hmild, _, hf⟩ := filled_of_fails h mem work before e offending
    exact scene ▸ hmild.steady.fades.trans hf.fades
  | completes mem alone work output scene settled =>
    exact scene ▸ (finished_of_completes h mem work output _ _).fades

end Settling

end World

end Montage
