import Mathlib
import Montage.Html.Medium
import Montage.Proofs.Arena.Lineage
import Montage.Proofs.Render.Forgetting
import Montage.Proofs.Render.Nesting

/-!
Which config a node is said to come from. Every output that is put in its place is noted at the nodes
that stand there then, over what was noted before. Main statement: a node is said to come from the last
config that put the nearest node at or above it in place, and all of these but the first are fragments
that enclose it.
-/

namespace Montage

variable {F : Type}

/-- An output that was put in its place: whose it was, and which nodes stood there then. -/
structure Placing (F : Type) where
  task : TaskId
  owners : List TaskId
  fragment : Bool
  provenance : Provenance F
  nodes : List NodeId

variable {α : Type} [Medium α]

def Work.run? : Work F α → Option (Run F α)
  | .run r => some r
  | _ => none

/-- The output that a step puts in its place. -/
def Act.placing? (s : Setup F α) (w : World F α) : Act F α → Option (Placing F)
  | .step id => do
    let t ← w.task? id
    let r ← t.work.run?
    let n ← r.output?
    let p ← r.ready?
    let _ ← w.scene.tree.parent? r.place
    let w' ← w.step s id
    if w'.outcomeOf? id = some .rendered then
      some ⟨t.id, t.owners, w.scene.isFragment n, r.provenance p, w.scene.placed n⟩
    else none
  | _ => none

namespace World

/-- The outputs that were put in their places, the first one first. -/
def placings (s : Setup F α) (es : List (World F α × Act F α)) : List (Placing F) :=
  es.filterMap fun e => e.2.placing? s e.1

/-- Those that put a given node in place. -/
def placingsOf (s : Setup F α) (es : List (World F α × Act F α)) (x : NodeId) : List (Placing F) :=
  (placings s es).filter (·.nodes.contains x)

variable {s : Setup F α} {es : List (World F α × Act F α)} {w w' : World F α} {a : Act F α}
  {t : Task F α} {r : Run F α} {q : Placing F} {c d n o x : NodeId} {p : Prepared F}

theorem placingsOf_snoc : placingsOf s (es ++ [(w, a)]) x =
    placingsOf s es x ++ (a.placing? s w).toList.filter (·.nodes.contains x) := by
  rw [placingsOf, placings, List.filterMap_append, List.filter_append]
  cases hq : a.placing? s w <;> simp [placingsOf, placings, hq]

theorem placing_of_completes (h : Roster w) (ht : t ∈ w.tasks) (hwork : t.work = .run r)
    (hn : r.output? = some n) (hp : r.ready? = some p) (hd : w.scene.tree.parent? r.place = some d)
    (hact : w.step s t.id = some w') (hs : Settled w t .rendered w') :
    (Act.step t.id).placing? s w =
      some ⟨t.id, t.owners, w.scene.isFragment n, r.provenance p, w.scene.placed n⟩ := by
  have hout : w'.outcomeOf? t.id = some .rendered := by
    simp [outcomeOf?, hs.outcomes, Table.get?_insert]
  simp [Act.placing?, h.task? ht, Work.run?, hwork, hn, hp, hd, hact, hout]

/-- A step that puts an output in its place ends a run whose place is attached. -/
theorem completes_of_placing (hq : a.placing? s w = some q) (hact : w.act s a = some w') :
    ∃ t ∈ w.tasks, ∃ r, a = .step t.id ∧ t.work = .run r ∧
      w.scene.tree.parent? r.place ≠ none ∧ w'.outcomeOf? t.id = some .rendered := by
  cases a with
  | step id =>
    simp only [Act.placing?, Option.bind_eq_bind, Option.bind_eq_some_iff] at hq
    obtain ⟨t, ht, r, hr, n, _, p, _, d, hd, v, hv, hq⟩ := hq
    obtain ⟨hm, rfl⟩ := task?_eq_some ht
    rw [show w.step s t.id = some w' from hact] at hv
    cases hv
    have hwork : t.work = .run r := by
      cases hk : t.work <;> simp [Work.run?, hk] at hr
      rw [hr]
    split at hq
    · exact ⟨t, hm, r, rfl, hwork, by simp [hd], ‹_›⟩
    · cases hq
  | _ => cases hq

/-- No output is put in its place unless a run is rendered. -/
theorem no_placing (hact : w.act s a = some w')
    (hout : ∀ t ∈ w.tasks, ∀ r, a = .step t.id → t.work = .run r →
      w.scene.tree.parent? r.place ≠ none → w'.outcomeOf? t.id ≠ some .rendered) :
    a.placing? s w = none := by
  cases hq : a.placing? s w with
  | none => rfl
  | some q =>
    obtain ⟨t, ht, r, rfl, hwork, hd, ho⟩ := completes_of_placing hq hact
    exact absurd ho (hout t ht r rfl hwork hd)

section

variable [LawfulMedium α]

/-- What an act does to the provenance of the nodes that stay: nothing, or it is the step that puts an
output in its place. -/
theorem provenance_of_act (hu : Unentered w) (h : Sound w) (ha : a.Known w.scene.tree.next)
    (hact : w.act s a = some w') :
    (a.placing? s w = none ∧ ∀ x, w'.scene.tree.contains x →
      w'.scene.provenance.get? x = w.scene.provenance.get? x) ∨
    ∃ t ∈ w.tasks, ∃ n p, ∃ r : Run F α, a = .step t.id ∧ t.work.output? = some n ∧
      Settled w t .rendered w' ∧
      a.placing? s w =
        some ⟨t.id, t.owners, w.scene.isFragment n, r.provenance p, w.scene.placed n⟩ ∧
      ∀ x, w'.scene.provenance.get? x =
        if x ∈ w.scene.placed n then some (r.provenance p) else w.scene.provenance.get? x := by
  have hnew : ∀ {sc : Scene F α} {x}, Scene.Mild w.scene sc → (x < w.scene.tree.next →
      sc.tree.contains x) → sc.provenance.get? x = w.scene.provenance.get? x := by
    intro sc x hm hx
    by_cases hlt : x < w.scene.tree.next
    · exact hm.provenance_kept hlt (hx hlt)
    · rw [Scene.provenance_none fun he => hlt (hu.given he)]
      refine Option.eq_none_iff_forall_ne_some.mpr fun v hv => hlt (hu.given (.inr ?_))
      exact hm.provenance_old (by simp [Table.contains, hv])
  have hdeed := deed_of_act h ha hact
  cases hdeed with
  | mild mild quiet =>
    refine .inl ⟨no_placing hact fun t ht r _ _ _ ho => ?_, fun x hx => hnew mild fun _ => hx⟩
    rcases quiet ho with hold | hskip
    · exact (h.roster.settled hold).2 t ht rfl
    · cases hskip
  | @fails t r sc e offending o mem alone work before wrong scene settled =>
    obtain ⟨hmild, hnext, hf⟩ := filled_of_fails h mem work before e offending
    rw [← scene] at hf
    refine .inl ⟨no_placing hact fun u hu r' hid _ _ ho => ?_, fun x hx => ?_⟩
    · rw [outcomeOf?, ← Act.step.inj hid, settled.outcomes, Table.get?_insert, if_pos rfl] at ho
      rcases wrong with rfl | rfl <;> cases ho
    · rw [scene, (Scene.fillWithError_frame e offending).2.1]
      exact hnew hmild fun hlt => hf.fades.live (Nat.lt_of_lt_of_le hlt hmild.steady.next_le) hx
  | @completes t r n p mem alone work output scene settled ready =>
    have hf := finished_of_completes h mem work output s.settings p
    rw [← scene] at hf
    cases hf with
    | @kept d t₁ attached decorated same spliced provenance places =>
      exact .inr ⟨t, mem, n, p, r, rfl, work ▸ output, settled,
        placing_of_completes h.roster mem work output ready attached hact settled, provenance⟩
    | lost decorated detached pruned provenance places =>
      refine .inl ⟨no_placing hact fun u hu r' hid hwork hd _ => hd ?_, fun x _ => provenance x⟩
      have := h.roster.id_inj hu mem (Act.step.inj hid).symm
      subst this
      rw [work] at hwork
      cases hwork
      exact detached

/-- The placing that an act adds is that of a run which is rendered. -/
theorem placed_by_act (hu : Unentered w) (h : Sound w) (ha : a.Known w.scene.tree.next)
    (hact : w.act s a = some w')
    (hq : q ∈ (a.placing? s w).toList.filter (·.nodes.contains x)) :
    ∃ t ∈ w.tasks, ∃ n, a = .step t.id ∧ t.work.output? = some n ∧ Settled w t .rendered w' ∧
      x ∈ w.scene.placed n ∧ q.task = t.id ∧ q.owners = t.owners ∧
      q.fragment = w.scene.isFragment n := by
  rcases provenance_of_act hu h ha hact with ⟨hnone, _⟩ | ⟨t, ht, n, p, r, hstep, hn, hs, hsome, _⟩
  · simp [hnone] at hq
  · simp only [hsome, Option.toList_some, List.mem_filter, List.mem_singleton,
      List.contains_iff_mem] at hq
    obtain ⟨rfl, hx⟩ := hq
    exact ⟨t, ht, n, hstep, hn, hs, hx, rfl, rfl, rfl⟩

/-- A node stays where it is, or it is put where the place of a run was. -/
theorem Deed.parent (h : Sound w) (hd : Deed s w w' a) (hc : c < w.scene.tree.next)
    (hp : w'.scene.tree.parent? c = some o) : w.scene.tree.parent? c = some o ∨
      ∃ t ∈ w.tasks, ∃ r n, a = .step t.id ∧ t.work = .run r ∧ r.output? = some n ∧
        c ∈ w.scene.placed n ∧ w.scene.tree.parent? r.place = some o ∧
        Settled w t .rendered w' := by
  have hl := Tree.live_of_parent hp
  cases hd with
  | mild mild quiet => exact .inl ((mild.steady.parent hc hl).symm.trans hp)
  | @fails t r sc e offending oc mem alone work before wrong scene settled =>
    obtain ⟨hmild, hnext, hf⟩ := filled_of_fails h mem work before e offending
    rw [← scene] at hf
    refine .inl ?_
    have hc' := Nat.lt_of_lt_of_le hc hmild.steady.next_le
    rw [← hmild.steady.parent hc (hf.fades.live hc' hl)]
    cases hf with
    | kept attached root spliced =>
      rw [spliced.parent hl, if_neg, root.grown.parent hc'] at hp
      · exact hp
      · exact fun hm => Nat.ne_of_lt hc' (List.mem_singleton.mp hm)
    | lost root detached pruned =>
      rw [pruned.parent hl, root.grown.parent hc'] at hp
      exact hp
  | @completes t r n p mem alone work output scene settled ready =>
    have hf := finished_of_completes h mem work output s.settings p
    rw [← scene] at hf
    cases hf with
    | @kept d t₁ attached decorated same spliced provenance places =>
      rw [spliced.parent hl, Tree.offered, same, ← Tree.offered, ← Scene.placed_eq_offered] at hp
      split at hp
      · cases hp
        exact .inr ⟨t, mem, r, n, rfl, work, output, ‹_›, attached, settled⟩
      · exact .inl ((decorated.parent hc).symm.trans hp)
    | lost decorated detached pruned provenance places =>
      rw [pruned.parent hl, decorated.parent hc] at hp
      exact .inl hp

end

/-- What the provenance of nodes tells about a history. -/
structure Attributed (s : Setup F α) (es : List (World F α × Act F α)) (w : World F α) : Prop where
  orderly : Orderly w
  unentered : Unentered w
  given : ∀ {q x}, q ∈ placingsOf s es x → x < w.scene.tree.next
  last : ∀ {x}, w.scene.tree.contains x →
    w.scene.provenance.get? x = (placingsOf s es x).getLast?.map Placing.provenance
  /-- Who put a node in an output that is not in its place yet works for the task that paints it. -/
  within : ∀ {u o c q}, u ∈ w.tasks → u.work.output? = some o → w.scene.tree.parent? c = some o →
    q ∈ placingsOf s es c → (u.id :: u.owners) <:+ q.owners
  /-- What puts a node in place once more is a fragment for which the others worked. -/
  inner : ∀ {x}, w.scene.tree.contains x → (placingsOf s es x).Pairwise fun q q' =>
    q'.fragment = true ∧ q'.task ∈ q.owners

namespace Attributed

/-- Nobody has put a node in place that was not made yet. -/
theorem none_of_new (h : Attributed s es w) (hx : ¬x < w.scene.tree.next) :
    placingsOf s es x = [] :=
  List.eq_nil_iff_forall_not_mem.mpr fun _ hq => hx (h.given hq)

/-- Nobody has put an output in place that is still painted. -/
theorem output (h : Attributed s es w) (ht : t ∈ w.tasks) (hn : t.work.output? = some n)
    (hl : w.scene.tree.contains n) : placingsOf s es n = [] := by
  have hnone := Scene.provenance_none (h.unentered.output ht hn)
  rw [h.last hl, Option.map_eq_none_iff] at hnone
  exact List.getLast?_eq_none_iff.mp hnone

/-- Who has put a node in an output before worked for the task that now puts the output in place. -/
theorem placed (h : Attributed s es w) (ht : t ∈ w.tasks) (hn : t.work.output? = some n)
    (hc : c ∈ w.scene.placed n) (hl : w.scene.tree.contains c) (hq : q ∈ placingsOf s es c) :
    w.scene.isFragment n = true ∧ (t.id :: t.owners) <:+ q.owners := by
  rcases Scene.placed_cases hc with ⟨hfragment, hc⟩ | rfl
  · exact ⟨hfragment, h.within ht hn (h.orderly.sound.linked.link hc hl) hq⟩
  · rw [h.output ht hn hl] at hq
    cases hq

variable [LawfulMedium α]

theorem within_act {u : Task F α} (h : Attributed s es w) (hp : a.IsProper w)
    (hact : w.act s a = some w') (hu : u ∈ w'.tasks) (ho : u.work.output? = some o)
    (hc : w'.scene.tree.parent? c = some o) (hq : q ∈ placingsOf s (es ++ [(w, a)]) c) :
    (u.id :: u.owners) <:+ q.owners := by
  have hsound := h.orderly.sound
  have hdeed := deed_of_act hsound hp.1 hact
  rw [placingsOf_snoc] at hq
  have hclt : c < w.scene.tree.next := by
    rcases List.mem_append.mp hq with hq | hq
    · exact h.given hq
    · obtain ⟨t, ht, n, _, hn, _, hx, _⟩ := placed_by_act h.unentered hsound hp.1 hact hq
      exact placed_lt hsound (hsound.output_lt ht hn) hx
  have hcl := (hdeed.fades hsound).live hclt (Tree.live_of_parent hc)
  rcases (shift_of_act hsound hp.1 hact).output hsound.roster hu ho with
    ⟨v, hv, hid, howners, hvo⟩ | ⟨rfl, _, ⟨shape, scene⟩, _⟩
  · rw [← hid, ← howners]
    rcases hdeed.parent hsound hclt hc with hpc | ⟨t, ht, r, n, hstep, hwork, hn, hcn, hplace, _⟩
    · rcases List.mem_append.mp hq with hq | hq
      · exact h.within hv hvo hpc hq
      · -- The output that is put in place now is the parent of none of its nodes after that.
        exfalso
        obtain ⟨t, ht, n, _, hn, hset, hx, _⟩ := placed_by_act h.unentered hsound hp.1 hact hq
        rcases Scene.placed_cases hx with ⟨_, hx⟩ | rfl
        · rw [hsound.linked.link hx hcl] at hpc
          cases hpc
          have hsame := hsound.output_inj hv ht hvo hn
          exact hset.ne_of_mem hu (hid.symm.trans (congrArg Task.id hsame))
        · rw [hsound.output_root ht hn] at hpc
          cases hpc
    · have howner := h.orderly.nested ht hv hvo (hwork ▸ List.mem_cons_self) hplace
      obtain ⟨v', hv', hvid, hsuffix⟩ := hsound.roster.suffix ht howner
      rw [hsound.roster.id_inj hv' hv hvid] at hsuffix
      rcases List.mem_append.mp hq with hq | hq
      · have hin := (h.placed ht (hwork ▸ hn) hcn hcl hq).2
        exact hsuffix.trans ((List.suffix_cons _ _).trans hin)
      · obtain ⟨t', ht', _, hstep', _, _, _, _, howners', _⟩ :=
          placed_by_act h.unentered hsound hp.1 hact hq
        rw [howners', ← hsound.roster.id_inj ht ht' (Act.step.inj (hstep.symm.trans hstep'))]
        exact hsuffix
  · rw [scene] at hc
    exact absurd hc hsound.linked.not_below_next

theorem act (h : Attributed s es w) (hp : a.IsProper w) (hact : w.act s a = some w') :
    Attributed s (es ++ [(w, a)]) w' := by
  have hsound := h.orderly.sound
  have hdeed := deed_of_act hsound hp.1 hact
  have hfades := hdeed.fades hsound
  have hprov := provenance_of_act h.unentered hsound hp.1 hact
  have hlive : ∀ {x q}, q ∈ placingsOf s es x → w'.scene.tree.contains x →
      w.scene.tree.contains x := fun hq hl => hfades.live (h.given hq) hl
  constructor
  case orderly => exact h.orderly.act hp hact
  case unentered => exact h.unentered.act hsound hp.1 hact
  case given =>
    intro q x hq
    rw [placingsOf_snoc] at hq
    rcases List.mem_append.mp hq with hq | hq
    · exact Nat.lt_of_lt_of_le (h.given hq) hfades.next_le
    · obtain ⟨t, ht, n, _, hn, _, hx, _⟩ := placed_by_act h.unentered hsound hp.1 hact hq
      exact Nat.lt_of_lt_of_le (placed_lt hsound (hsound.output_lt ht hn) hx) hfades.next_le
  case last =>
    intro x hl
    have hold : w.scene.provenance.get? x =
        (placingsOf s es x).getLast?.map Placing.provenance := by
      by_cases hlt : x < w.scene.tree.next
      · exact h.last (hfades.live hlt hl)
      · rw [h.none_of_new hlt, Scene.provenance_none fun he => hlt (h.unentered.given he)]
        rfl
    rw [placingsOf_snoc]
    rcases hprov with ⟨hnone, hkept⟩ | ⟨t, ht, n, p, r, _, hn, _, hsome, hset⟩
    · rw [hkept x hl, hnone, hold]
      simp
    · rw [hset, hsome]
      split <;> simp [*]
  case within =>
    intro u o c q hu ho hc hq
    exact h.within_act hp hact hu ho hc hq
  case inner =>
    intro x hl
    rw [placingsOf_snoc, List.pairwise_append]
    refine ⟨?_, ?_, fun q hq q' hq' => ?_⟩
    · by_cases hlt : x < w.scene.tree.next
      · exact h.inner (hfades.live hlt hl)
      · rw [h.none_of_new hlt]
        exact .nil
    · cases a.placing? s w with
      | none => exact .nil
      | some q => exact (List.pairwise_singleton _ _).sublist List.filter_sublist
    · obtain ⟨t, ht, n, _, hn, _, hx, htask, _, hfrag⟩ :=
        placed_by_act h.unentered hsound hp.1 hact hq'
      obtain ⟨hfragment, hsuffix⟩ := h.placed ht hn hx (hlive hq hl) hq
      exact ⟨hfrag.trans hfragment, htask ▸ hsuffix.subset List.mem_cons_self⟩

end Attributed

theorem Attributed.start {registry : Registry F} {tree : Tree α} (h : tree.Linked) :
    Attributed s [] (World.start registry tree) where
  orderly := .start registry h
  unentered := .start
  given hq := nomatch hq
  last _ := rfl
  within ht := nomatch ht
  inner _ := .nil

/-- A node is said to come from the last output that put the nearest node at or above it in place. The
first of these is the innermost, and the others are fragments that enclose it; so a node is said to come
from the innermost config around it unless an enclosing fragment has put it in place once more. -/
theorem provenance_innermost_iff [LawfulMedium α] {registry : Registry F} {tree : Tree α}
    (htree : tree.Linked) (h : History s (fun v a => a.IsProper v) (start registry tree) es w)
    (hx : w.scene.tree.contains x) :
    (∃ a inner outer, w.scene.tree.Nearest (placingsOf s es · ≠ []) x a ∧
        placingsOf s es a = inner :: outer ∧
        (∀ q ∈ outer, q.fragment = true ∧ q.task ∈ inner.owners) ∧
        w.scene.provenanceOf? x = some (outer.getLastD inner).provenance ∧
        (w.scene.provenanceOf? x = some inner.provenance ↔
          ∀ q ∈ outer.getLast?, q.provenance = inner.provenance)) ∨
      (∀ a, w.scene.tree.Under a x → placingsOf s es a = []) ∧ w.scene.provenanceOf? x = none := by
  have hall : Attributed s es w :=
    h.invariant_past (.start htree) fun _ _ _ _ hv ok next => hv.act ok next
  have hlinked := hall.orderly.sound.linked
  have hlast : ∀ {a}, w.scene.tree.Under a x → w.scene.provenance.get? a =
      (placingsOf s es a).getLast?.map Placing.provenance := fun hu =>
    hall.last (hu.top_live hlinked hx)
  have hsome : ∀ {a}, w.scene.tree.Under a x →
      (w.scene.provenance.get? a ≠ none ↔ placingsOf s es a ≠ []) := fun hu => by
    rw [hlast hu, ne_eq, Option.map_eq_none_iff, List.getLast?_eq_none_iff]
  rcases Tree.finds_lineage hlinked w.scene.provenance.get? x with
    ⟨a, hnear, hfound⟩ | ⟨hnone, hfound⟩
  · refine .inl ⟨a, ?_⟩
    have hne := (hsome hnear.above).mp hnear.has
    obtain ⟨inner, outer, heq⟩ := List.exists_cons_of_ne_nil hne
    have hpair := hall.inner (hnear.above.top_live hlinked hx)
    rw [heq] at hpair
    have hprov : w.scene.provenanceOf? x = some (outer.getLastD inner).provenance := by
      rw [Scene.provenanceOf?, hfound, hlast hnear.above, heq, List.getLast?_cons,
        List.getLastD_eq_getLast?]
      rfl
    refine ⟨inner, outer, ⟨hnear.above, hne, fun hu hb => ?_⟩, heq,
      fun q hq => List.rel_of_pairwise_cons hpair hq, hprov, ?_⟩
    · exact hnear.nearest hu ((hsome hu).mpr hb)
    · rw [hprov, List.getLastD_eq_getLast?]
      cases outer.getLast? <;> simp
  · refine .inr ⟨fun a hu => ?_, hfound⟩
    have hno := hnone a hu
    exact Classical.byContradiction fun hne => (hsome hu).mpr hne hno

/-- Functions that render a config by name, and paint a text. -/
def nestedScripts : Fin 2 → List (Step (Fin 2) Html.Item)
  | 0 => [.render (.object (Config.ofView "inner")) .null .null none]
  | 1 => [.plant (Html.leaf (.text "hi"))]

def nestedViews : Registry (Fin 2) :=
  ⟨[⟨"frag", .host 0, { shape := Html.fragmentShape }⟩, ⟨"inner", .host 1, {}⟩]⟩

def nestedSteps : List (Act (Fin 2) Html.Item) :=
  [.render 1 (.object (Config.ofView "frag")) .null .null, .step 2, .step 2, .step 2, .step 3,
    .step 3, .step 3, .step 3, .step 2]

/-- The element of a view that a fragment renders is said to come from the fragment. -/
theorem provenance_of_nested_in_fragment :
    let s : Setup (Fin 2) Html.Item := .scripted nestedScripts
    ∃ es, ∃ w : World (Fin 2) Html.Item, es.map Prod.snd = nestedSteps ∧ ∃ inner outer,
      placingsOf s es 5 = inner :: outer ∧ inner.provenance.view = some "inner" ∧
        (w.scene.provenanceOf? 5).map Provenance.view = some (some "frag") ∧
        ¬∀ q ∈ outer.getLast?, q.provenance = inner.provenance := by
  intro s
  have hplay : (play s (fun v a => a.IsProper v)
      (start nestedViews (.single (Html.Item.ofTag "body"))) nestedSteps).any (fun w =>
        w.scene.tree.contains 5 &&
        (w.scene.provenanceOf? 5).map Provenance.view == some (some "frag")) = true := by
    cbv
  have hplacings : (placingsOf s (events s (start nestedViews (.single (Html.Item.ofTag "body")))
      nestedSteps) 5).map (·.provenance.view) = [some "inner", some "frag"] := by
    cbv
  obtain ⟨w, hw, hend⟩ := (Option.any_eq_true _ _).mp hplay
  simp only [Bool.and_eq_true, beq_iff_eq] at hend
  obtain ⟨es, hacts, hes⟩ := History.of_play hw
  rw [← hacts, hes.events_eq] at hplacings
  refine ⟨es, w, hacts, ?_⟩
  have hlinked := (Orderly.history hes (.start _ (.single _)) fun _ _ => id).sound.linked
  rcases provenance_innermost_iff (.single _) hes hend.1 with
    ⟨a, inner, outer, hnear, heq, _, _, hiff⟩ | ⟨hnone, _⟩
  · have hne : placingsOf s es 5 ≠ [] := fun hnil => by simp [hnil] at hplacings
    have ha := hnear.eq_self hlinked hne
    subst ha
    rw [heq, List.map_cons, List.cons.injEq] at hplacings
    refine ⟨inner, outer, heq, hplacings.1, hend.2, fun hlast => ?_⟩
    have hfrag := hend.2
    rw [hiff.mpr hlast, Option.map_some, hplacings.1] at hfrag
    simp at hfrag
  · simp [hnone 5 .self] at hplacings

end World

end Montage
