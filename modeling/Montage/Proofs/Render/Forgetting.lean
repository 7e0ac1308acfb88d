import Mathlib.Data.List.Basic
import Mathlib.Data.List.Permutation
import Montage.Html.Medium
import Montage.Proofs.Render.Deeds
import Montage.Proofs.Render.Shifts

/-!
Entries of nodes that are gone. A discard forgets all that it takes away, but a run that settles does
not: what stood under its place, and the whole output if the place is gone, dies with its entries kept.
Main statement: in every history, an entry of a dead node is an entry that was stranded in this way.
-/

namespace Montage

open Json (Value)

variable {F α : Type}

namespace Scene

/-- How many of the places held for views that have not settled are still there. -/
def lastingPlaces (s : Scene F α) : Nat :=
  (s.places.entries.filter fun e => s.tree.contains e.1 && !e.2.skipped).length

theorem pendingPlaces_eq {s : Scene F α} : s.pendingPlaces = s.lastingPlaces ↔
    ∀ k p, s.places.get? k = some p → p.skipped = false → s.tree.contains k := by
  have hpending : s.pendingPlaces = (s.places.entries.filter fun e => !e.2.skipped).length := by
    simp [pendingPlaces, Table.values, List.filter_map, Function.comp_def]
  rw [hpending, lastingPlaces, ← List.filter_filter, eq_comm, List.length_filter_eq_length_iff]
  constructor
  · intro h k p hk hp
    exact h (k, p) (List.mem_filter.mpr ⟨Table.mem_entries.mpr hk, by simp [hp]⟩)
  · rintro h ⟨k, p⟩ he
    obtain ⟨hk, hp⟩ := List.mem_filter.mp he
    exact h k p (Table.mem_entries.mp hk) (by simpa using hp)

theorem provenance_none {s : Scene F α} {x : NodeId} (h : ¬s.HasEntry x) :
    s.provenance.get? x = none :=
  Option.eq_none_iff_forall_ne_some.mpr fun v hv => h (.inr (by simp [Table.contains, hv]))

end Scene

variable [Medium α]

namespace World

/-- The step of a task ends a run with an outcome. -/
def Settles (s : Setup F α) (w : World F α) (id : TaskId) (r : Run F α) (o : Outcome) : Prop :=
  ∃ t w', w.task? id = some t ∧ t.work = .run r ∧ w.step s id = some w' ∧ w'.outcomeOf? id = some o

/-- The node `k` goes in the step of a task, or is gone when the step notes where it came from, and
nothing that is known about it is forgotten. -/
inductive Strands (s : Setup F α) (w : World F α) (id : TaskId) (k : NodeId) : Prop
  /-- It stood under a place that is filled. -/
  | place {r : Run F α} {o : Outcome} (settles : w.Settles s id r o) (filled : o ≠ .skipped)
      (attached : w.scene.tree.parent? r.place ≠ none) (under : w.scene.tree.Under r.place k)
  /-- It stood in an output whose place is gone. -/
  | output {r : Run F α} {n : NodeId} (settles : w.Settles s id r .rendered)
      (output : r.output? = some n) (detached : w.scene.tree.parent? r.place = none)
      (under : w.scene.tree.Under n k)
  /-- It is put in a place after its death. -/
  | dead {r : Run F α} {n : NodeId} (settles : w.Settles s id r .rendered)
      (output : r.output? = some n) (attached : w.scene.tree.parent? r.place ≠ none)
      (placed : k ∈ w.scene.placed n) (gone : ¬w.scene.tree.contains k)

variable {s : Setup F α} {w w' : World F α} {a : Act F α} {t : Task F α} {r : Run F α}
  {k n p q x : NodeId} {o : Outcome}

theorem settles_of_settled (h : Sound w) (ht : t ∈ w.tasks) (hwork : t.work = .run r)
    (hact : w.step s t.id = some w') (hs : Settled w t o w') : w.Settles s t.id r o :=
  ⟨t, w', h.roster.task? ht, hwork, hact, by
    simp [outcomeOf?, hs.outcomes, Table.get?_insert]⟩

/-- How a run ended tells what its last step did. -/
theorem Settles.unique (h : Sound w) (hs : w.Settles s t.id r o) (ht : t ∈ w.tasks)
    (hact : w.step s t.id = some w') {o' : Outcome} (hset : Settled w t o' w') :
    t.work = .run r ∧ o = o' := by
  obtain ⟨u, v, hu, hwork, hv, ho⟩ := hs
  rw [h.roster.task? ht] at hu
  rw [hact] at hv
  cases hu
  cases hv
  rw [outcomeOf?, hset.outcomes, Table.get?_insert, if_pos rfl] at ho
  exact ⟨hwork, (Option.some.inj ho).symm⟩

theorem contains_erase {β : Type} {t : Table β} {j k : NodeId} (h : (t.erase j).contains k) :
    t.contains k := by
  rw [Table.contains, Table.get?_erase] at h
  split at h
  · cases h
  · exact h

/-! Outputs are not known about. -/

/-- What is known is about nodes that were made, and about no output that is still painted. -/
structure Unentered (w : World F α) : Prop where
  given : ∀ {x}, w.scene.HasEntry x → x < w.scene.tree.next
  output : ∀ {t x}, t ∈ w.tasks → t.work.output? = some x → ¬w.scene.HasEntry x

theorem placed_lt (h : Sound w) (hn : n < w.scene.tree.next) (hk : k ∈ w.scene.placed n) :
    k < w.scene.tree.next := by
  rcases Scene.placed_cases hk with ⟨_, hk⟩ | rfl
  · exact h.linked.listed_lt hk
  · exact hn

/-- What an output puts in its place is no output of another run. -/
theorem eq_of_placed {u : Task F α} (h : Sound w) (ht : t ∈ w.tasks) (hu : u ∈ w.tasks)
    (hn : t.work.output? = some n) (hk : u.work.output? = some k) (hm : k ∈ w.scene.placed n) :
    t = u := by
  rcases Scene.placed_cases hm with ⟨_, hm⟩ | rfl
  · exact absurd hm (h.apart hu hk)
  · exact h.output_inj ht hu hn hk

theorem hasEntry_fillWithError {sc : Scene F α} {e : Error} {offending : Option Value}
    (h : (sc.fillWithError p e offending).HasEntry x) : sc.HasEntry x := by
  obtain ⟨hp, hv, _⟩ := Scene.fillWithError_frame (s := sc) (p := p) e offending
  rw [Scene.HasEntry, hp, hv] at h
  exact h.imp_left contains_erase

/-- What is known after a run is done was known before, or is about what it put in its place. -/
theorem hasEntry_finished {sc sc' : Scene F α} {prov : Provenance F}
    (h : Scene.Finished p n prov sc sc') (hx : sc'.HasEntry x) :
    sc.HasEntry x ∨ x ∈ sc.placed n ∧ sc.tree.parent? p ≠ none := by
  cases h with
  | kept attached decorated same spliced provenance places =>
    rcases hx with hx | hx
    · rw [places] at hx
      exact .inl (.inl (contains_erase hx))
    · rw [Table.contains, provenance] at hx
      split at hx
      · exact .inr ⟨‹_›, by simp [attached]⟩
      · exact .inl (.inr hx)
  | lost decorated detached pruned provenance places =>
    rcases hx with hx | hx
    · rw [places] at hx
      exact .inl (.inl (contains_erase hx))
    · rw [Table.contains, provenance] at hx
      exact .inl (.inr hx)

section

variable [LawfulMedium α]

/-- What is known after an act was known before, or is about a new node, or about one that a run has
put in its place. -/
theorem Deed.hasEntry (h : Sound w) (hd : Deed s w w' a) (hx : w'.scene.HasEntry x) :
    w.scene.HasEntry x ∨ (w.scene.tree.next ≤ x ∧ w'.scene.tree.contains x) ∨
      ∃ t ∈ w.tasks, ∃ n, t.work.output? = some n ∧ x ∈ w.scene.placed n ∧
        Settled w t .rendered w' := by
  cases hd with
  | mild mild quiet => exact (mild.entries hx).imp_right .inl
  | @fails t r sc e offending o mem alone work before wrong scene settled =>
    obtain ⟨hmild, hnext, _⟩ := filled_of_fails h mem work before e offending
    rw [scene] at hx
    rcases hmild.entries (hasEntry_fillWithError hx) with hx | ⟨hge, hl⟩
    · exact .inl hx
    · exact absurd (hnext ▸ hmild.steady.after.live_lt hl) (Nat.not_lt.mpr hge)
  | @completes t r n p mem alone work output scene settled =>
    have hf := finished_of_completes h mem work output s.settings p
    rw [← scene] at hf
    exact (hasEntry_finished hf hx).imp_right fun hm =>
      .inr ⟨t, mem, n, work ▸ output, hm.1, settled⟩

/-- Nothing comes to be known about the outputs that are still painted. -/
theorem Unentered.act (hu : Unentered w) (h : Sound w) (ha : a.Known w.scene.tree.next)
    (hact : w.act s a = some w') : Unentered w' where
  given {x} hx := by
    have hdeed := deed_of_act h ha hact
    have hle := (hdeed.fades h).next_le
    rcases hdeed.hasEntry h hx with hx | ⟨_, hl⟩ | ⟨t, ht, n, hn, hm, _⟩
    · exact Nat.lt_of_lt_of_le (hu.given hx) hle
    · exact (h.act ha hact).linked.live_lt hl
    · exact Nat.lt_of_lt_of_le (placed_lt h (h.output_lt ht hn) hm) hle
  output {u x} hut hout hx := by
    rcases (shift_of_act h ha hact).output h.roster hut hout with
      ⟨v, hv, hid, _, hvo⟩ | ⟨rfl, _, ⟨shape, scene⟩, _⟩
    · rcases (deed_of_act h ha hact).hasEntry h hx with hx | ⟨hge, _⟩ | ⟨t, ht, n, hn, hm, hset⟩
      · exact hu.output hv hvo hx
      · exact Nat.not_lt.mpr hge (h.output_lt hv hvo)
      · have hsame := eq_of_placed h ht hv hn hvo hm
        exact hset.ne_of_mem hut (hid.symm.trans (congrArg Task.id hsame.symm))
    · rw [scene] at hx
      exact Nat.lt_irrefl _ (hu.given hx)

omit [Medium α] [LawfulMedium α] in
/-- What is dead after a place was filled with an error was dead before, or stood under the place. -/
theorem dead_of_filled {item : α} {t₀ t₁ : Tree α} (h : Scene.Filled p item t₀ t₁)
    (hk : t₀.contains k) (hd : ¬t₁.contains k) : t₀.parent? p ≠ none ∧ t₀.Under p k := by
  cases h with
  | @kept q t₂ attached root spliced =>
    have hklt := root.grown.before.live_lt hk
    refine ⟨by simp [attached], Classical.byContradiction fun hu => hd (spliced.live.mpr ?_)⟩
    exact ⟨root.grown.lives hk, fun hu' => hu (root.grown.steady.path_back hu' hklt), by simp⟩
  | lost root detached pruned =>
    refine absurd (pruned.live.mpr ⟨root.grown.lives hk, fun hu => ?_⟩) hd
    exact Nat.not_lt.mpr (root.grown.after.le_of_under hu) (root.grown.before.live_lt hk)

/-- An entry of a dead node was one before, or the node was stranded. -/
theorem dead_entry (hu : Unentered w) (h : Sound w) (ha : a.Known w.scene.tree.next)
    (hact : w.act s a = some w') (hk : w'.scene.HasEntry k) (hd : ¬w'.scene.tree.contains k) :
    (w.scene.HasEntry k ∧ ¬w.scene.tree.contains k) ∨ ∃ id, a = .step id ∧ Strands s w id k := by
  cases deed_of_act h ha hact with
  | mild mild quiet =>
    refine .inl ⟨?_, mild.dead hk hd⟩
    rcases mild.entries hk with hk | ⟨_, hl⟩
    · exact hk
    · exact absurd hl hd
  | @fails t r sc e offending o mem alone work before wrong scene settled =>
    obtain ⟨hmild, hnext, hf⟩ := filled_of_fails h mem work before e offending
    rw [scene] at hk hd
    have hsc := hasEntry_fillWithError hk
    by_cases hl : sc.tree.contains k
    · obtain ⟨hatt, hunder⟩ := dead_of_filled hf hl hd
      have hp : r.place < w.scene.tree.next := h.place_lt mem (work ▸ List.mem_cons_self)
      have hq : w.scene.tree.parent? r.place = sc.tree.parent? r.place := by
        cases hq : sc.tree.parent? r.place with
        | none => exact absurd hq hatt
        | some q => rw [← hmild.steady.parent hp (Tree.live_of_parent hq), hq]
      refine .inr ⟨t.id, rfl, .place (settles_of_settled h mem work hact settled) ?_ (hq ▸ hatt)
        (hmild.steady.path_back hunder ?_)⟩
      · rcases wrong with rfl | rfl <;> simp
      · exact hnext ▸ hmild.steady.after.live_lt hl
    · rcases hmild.entries hsc with hk | ⟨_, hl'⟩
      · exact .inl ⟨hk, hmild.dead hsc hl⟩
      · exact absurd hl' hl
  | @completes t r n p mem alone work output scene settled =>
    have hset := settles_of_settled h mem work hact settled
    have hout : t.work.output? = some n := work ▸ output
    have hf := finished_of_completes h mem work output s.settings p
    rw [← scene] at hf
    by_cases hl : w.scene.tree.contains k
    · refine .inr ⟨t.id, rfl, ?_⟩
      have hklt := h.linked.live_lt hl
      rcases hf with @⟨q, t₁, attached, decorated, same, spliced, provenance, places⟩ |
        @⟨t₁, decorated, detached, pruned, provenance, places⟩
      · refine .place hset (by simp) (by simp [attached]) (Classical.byContradiction fun hnu => ?_)
        -- The fragment itself goes without a trace, for nothing was known about it.
        have hfrag : w.scene.isFragment n = true ∧ k = n := by
          refine Classical.byContradiction fun hne => hd (spliced.live.mpr ?_)
          exact ⟨decorated.lives hl, fun hu' => hnu (decorated.steady.path_back hu' hklt), hne⟩
        obtain ⟨hfrag, rfl⟩ := hfrag
        rcases hasEntry_finished (.kept attached decorated same spliced provenance places) hk with
          hk | ⟨hm, _⟩
        · exact hu.output mem hout hk
        · rw [Scene.placed_eq_offered, hfrag] at hm
          exact h.apart mem hout hm
      · refine .output hset output detached (decorated.steady.path_back ?_ hklt)
        refine Classical.byContradiction fun hu => hd (pruned.live.mpr ⟨decorated.lives hl, hu⟩)
    · rcases hasEntry_finished hf hk with hk | ⟨hm, hatt⟩
      · exact .inl ⟨hk, hl⟩
      · exact .inr ⟨t.id, rfl, .dead hset output hatt hm hl⟩

/-- A step that ends a run otherwise than by skipping it fills its place. -/
theorem Settles.filled {id : TaskId} (hs : w.Settles s id r o) (h : Sound w)
    (hact : w.act s (.step id) = some w') (ho : o ≠ .skipped) :
    (∃ sc item, o ≠ .rendered ∧ Scene.Mild w.scene sc ∧
      Scene.Filled r.place item sc.tree w'.scene.tree) ∨
    ∃ n prov, r.output? = some n ∧ Scene.Finished r.place n prov w.scene w'.scene := by
  cases deed_of_act (a := .step id) h trivial hact with
  | mild mild quiet =>
    obtain ⟨t, v, ht, _, hv, hv'⟩ := hs
    rw [show w.step s id = some w' from hact] at hv
    cases hv
    obtain ⟨htm, rfl⟩ := task?_eq_some ht
    rcases quiet hv' with hold | hskip
    · exact absurd rfl ((h.roster.settled hold).2 t htm)
    · exact absurd hskip ho
  | @fails t u sc e offending o' mem alone work before wrong scene settled =>
    obtain ⟨hwork, rfl⟩ := hs.unique h mem hact settled
    rw [hwork] at work
    cases work
    obtain ⟨hmild, _, hf⟩ := filled_of_fails h mem hwork before e offending
    rw [← scene] at hf
    refine .inl ⟨sc, _, ?_, hmild, hf⟩
    rcases wrong with rfl | rfl <;> simp
  | @completes t u n p mem alone work output scene settled =>
    obtain ⟨hwork, rfl⟩ := hs.unique h mem hact settled
    rw [hwork] at work
    cases work
    exact .inr ⟨n, _, output, scene ▸ finished_of_completes h mem hwork output s.settings p⟩

/-- What is stranded is dead after the step. -/
theorem Strands.gone {id : TaskId} (hs : Strands s w id k) (h : Sound w)
    (hact : w.act s (.step id) = some w') :
    k < w.scene.tree.next ∧ ¬w'.scene.tree.contains k := by
  have hfades := (deed_of_act (a := .step id) h trivial hact).fades h
  cases hs with
  | @place r o settles filled attached under =>
    obtain ⟨t, _, ht, hwork, _⟩ := settles
    have hp : r.place < w.scene.tree.next :=
      h.place_lt (task?_eq_some ht).1 (hwork ▸ List.mem_cons_self)
    have hk := h.linked.under_lt hp under
    refine ⟨hk, fun hl => ?_⟩
    rcases Settles.filled ⟨t, _, ht, hwork, ‹_›⟩ h hact filled with
      ⟨sc, item, _, hmild, hf⟩ | ⟨n, prov, _, hf⟩
    · have hsc := hf.fades.live (Nat.lt_of_lt_of_le hk hmild.steady.next_le) hl
      have hu := hmild.steady.path under hsc
      cases hf with
      | kept _ root spliced => exact (spliced.live.mp hl).2.1 (root.grown.path hu hsc)
      | lost root detached pruned =>
        have hplace := hu.top_live hmild.steady.after hsc
        exact attached ((hmild.steady.parent hp hplace).symm.trans detached)
    · cases hf with
      | kept _ decorated same spliced provenance places =>
        exact (spliced.live.mp hl).2.1 (decorated.path under (hfades.live hk hl))
      | lost decorated detached pruned provenance places => exact attached detached
  | @output r n settles output detached under =>
    obtain ⟨t, _, ht, hwork, _⟩ := settles
    have hn : n < w.scene.tree.next := h.output_lt (task?_eq_some ht).1 (hwork.symm ▸ output)
    have hk := h.linked.under_lt hn under
    refine ⟨hk, fun hl => ?_⟩
    rcases Settles.filled ⟨t, _, ht, hwork, ‹_›⟩ h hact (by simp) with
      ⟨_, _, hne, _⟩ | ⟨n', prov, hn', hf⟩
    · exact hne rfl
    · rw [output] at hn'
      cases hn'
      cases hf with
      | kept attached decorated same spliced provenance places =>
        rw [detached] at attached
        cases attached
      | lost decorated _ pruned provenance places =>
        exact (pruned.live.mp hl).2 (decorated.path under (hfades.live hk hl))
  | dead settles output attached placed gone =>
    obtain ⟨t, _, ht, hwork, _⟩ := settles
    have hk := placed_lt h (h.output_lt (task?_eq_some ht).1 (hwork.symm ▸ output)) placed
    exact ⟨hk, fun hl => gone (hfades.live hk hl)⟩

omit [LawfulMedium α] in
/-- At first nothing is known about any node. -/
theorem not_hasEntry_start {registry : Registry F} {tree : Tree α} :
    ¬(start registry tree).scene.HasEntry k := by
  simp [Scene.HasEntry, start, withTree, empty, Scene.empty, Table.contains]

omit [LawfulMedium α] in
theorem Unentered.start {registry : Registry F} {tree : Tree α} :
    Unentered (World.start registry tree) where
  given hx := absurd hx not_hasEntry_start
  output ht := nomatch ht

/-- A node was stranded by one of the steps. -/
def Stranded (s : Setup F α) (es : List (World F α × Act F α)) (k : NodeId) : Prop :=
  ∃ e ∈ es, ∃ id, e.2 = .step id ∧ Strands s e.1 id k

omit [LawfulMedium α] in
theorem Stranded.cases_snoc {es : List (World F α × Act F α)}
    (h : Stranded s (es ++ [(w, a)]) k) :
    Stranded s es k ∨ ∃ id, a = .step id ∧ Strands s w id k := by
  obtain ⟨e, he, hs⟩ := h
  rcases List.mem_append.mp he with he | he
  · exact .inl ⟨e, he, hs⟩
  · rw [List.mem_singleton.mp he] at hs
    exact .inr hs

/-- The entries of dead nodes are told by what was stranded. -/
structure Tallied (s : Setup F α) (es : List (World F α × Act F α)) (w : World F α) : Prop where
  sound : Sound w
  unentered : Unentered w
  gone : ∀ {k}, Stranded s es k → k < w.scene.tree.next ∧ ¬w.scene.tree.contains k
  stranded : ∀ {k}, w.scene.HasEntry k → ¬w.scene.tree.contains k → Stranded s es k

namespace Tallied

omit [LawfulMedium α] in
theorem start {registry : Registry F} {tree : Tree α} (h : tree.Linked) :
    Tallied s [] (World.start registry tree) where
  sound := .start registry h
  unentered := .start
  gone := by
    rintro k ⟨e, he, _⟩
    cases he
  stranded hk := absurd hk not_hasEntry_start

theorem act {es : List (World F α × Act F α)} (h : Tallied s es w)
    (ha : a.Known w.scene.tree.next) (hact : w.act s a = some w') :
    Tallied s (es ++ [(w, a)]) w' where
  sound := h.sound.act ha hact
  unentered := h.unentered.act h.sound ha hact
  gone {k} hs := by
    have hfades := (deed_of_act h.sound ha hact).fades h.sound
    have hgone : k < w.scene.tree.next ∧ ¬w'.scene.tree.contains k := by
      rcases hs.cases_snoc with hold | ⟨id, rfl, hnew⟩
      · obtain ⟨hk, hd⟩ := h.gone hold
        exact ⟨hk, fun hl => hd (hfades.live hk hl)⟩
      · exact hnew.gone h.sound hact
    exact ⟨Nat.lt_of_lt_of_le hgone.1 hfades.next_le, hgone.2⟩
  stranded hk hd := by
    rcases dead_entry h.unentered h.sound ha hact hk hd with ⟨hk, hd⟩ | ⟨id, rfl, hs⟩
    · obtain ⟨e, he, hs⟩ := h.stranded hk hd
      exact ⟨e, List.mem_append_left _ he, hs⟩
    · exact ⟨_, List.mem_append_right _ List.mem_cons_self, id, rfl, hs⟩

end Tallied

/-- In every history, an entry of a node outlives it just if the node was stranded by a step, and the
count of pending places is right just if none of these was. -/
theorem dead_iff_stranded {registry : Registry F} {tree : Tree α} (htree : tree.Linked)
    {es : List (World F α × Act F α)}
    (h : History s (fun v a => a.Known v.scene.tree.next) (start registry tree) es w) :
    (∀ k, w.scene.HasEntry k → (¬w.scene.tree.contains k ↔ Stranded s es k)) ∧
      (w.scene.pendingPlaces = w.scene.lastingPlaces ↔
        ∀ k p, w.scene.places.get? k = some p → p.skipped = false → ¬Stranded s es k) := by
  have hall : Tallied s es w :=
    h.invariant_past (.start htree) fun _ _ _ _ hv ok next => hv.act ok next
  have hiff : ∀ k, w.scene.HasEntry k → (¬w.scene.tree.contains k ↔ Stranded s es k) :=
    fun k hk => ⟨hall.stranded hk, fun hs => (hall.gone hs).2⟩
  refine ⟨hiff, Scene.pendingPlaces_eq.trans ⟨fun hl k p hk hp hs => ?_, fun hns k p hk hp => ?_⟩⟩
  · exact (hiff k (.inl (by simp [Table.contains, hk]))).mpr hs (hl k p hk hp)
  · refine Classical.byContradiction fun hd => hns k p hk hp ?_
    exact (hiff k (.inl (by simp [Table.contains, hk]))).mp hd

end

/-- A container is discarded while a view that holds a place in its output still paints. -/
def discardWhilePainting : List (Act Unit Html.Item) :=
  [.render 1 (.inline ()) .null .null, .step 2, .step 2, .step 2, .discard 1, .step 2]

/-- The place that the view held is counted after its death. -/
theorem place_stranded_after_discard :
    let s : Setup Unit Html.Item := .scripted fun _ => [.start (.inline ()) .null .null none]
    ∃ es w, es.map Prod.snd = discardWhilePainting ∧
      History s (fun v a => a.Known v.scene.tree.next)
        (start .empty (.single (Html.Item.ofTag "body"))) es w ∧
      w.scene.pendingPlaces = 1 ∧ ¬w.scene.tree.contains 4 ∧ Stranded s es 4 := by
  intro s
  have hplay : (play s (fun v a => a.Known v.scene.tree.next)
      (start .empty (.single (Html.Item.ofTag "body"))) discardWhilePainting).any
      (fun w => w.scene.places.contains 4 && !w.scene.tree.contains 4 &&
        w.scene.pendingPlaces == 1) = true := by
    cbv
  obtain ⟨w, hw, hend⟩ := (Option.any_eq_true _ _).mp hplay
  simp only [Bool.and_eq_true, Bool.not_eq_true', beq_iff_eq] at hend
  obtain ⟨⟨hentry, hdead⟩, hpending⟩ := hend
  obtain ⟨es, hacts, hes⟩ := History.of_play hw
  have hdead : ¬w.scene.tree.contains 4 := by simp [hdead]
  exact ⟨es, w, hacts, hes, hpending, hdead,
    ((dead_iff_stranded (.single _) hes).1 4 (.inl hentry)).mp hdead⟩

end World

end Montage
