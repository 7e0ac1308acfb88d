import Montage.Proofs.Html.Anchors
import Montage.Proofs.Render.Attribution

/-!
Which tooltip a node has. A view that ends binds the tooltip it declares to the elements that it puts in
place, over what was bound to them before. Main statement: in every history a node has the tooltip that was
bound to it last, and all views that bound one but the first are fragments that enclose it.
-/

namespace Montage.Html

open World (Sound placings placingsOf Attributed)

variable {F : Type}

/-- A tooltip that was bound: by which view, and to which nodes. -/
structure Binding (F : Type) where
  task : TaskId
  owners : List TaskId
  fragment : Bool
  tooltip : Tooltip F
  nodes : List NodeId

/-- The tooltip that a step binds when it puts an output in its place: that which the view declares, with
its data and context, to the elements among what is placed. -/
def binding? (s : Setup F Item) (w : World F Item) : Act F Item → Option (Binding F)
  | .step id => do
    let q ← (Act.step id : Act F Item).placing? s w
    let t ← w.task? id
    let r ← t.work.run?
    let n ← r.output?
    let p ← r.ready?
    let tip ← p.tooltip? r.context
    some ⟨q.task, q.owners, q.fragment, tip, w.scene.takers n⟩
  | _ => none

/-- The tooltips that were bound, the first one first. -/
def bindings (s : Setup F Item) (es : List (World F Item × Act F Item)) : List (Binding F) :=
  es.filterMap fun e => binding? s e.1 e.2

/-- Those that were bound to a given node. -/
def bindingsOf (s : Setup F Item) (es : List (World F Item × Act F Item)) (x : NodeId) :
    List (Binding F) :=
  (bindings s es).filter (·.nodes.contains x)

variable {s : Setup F Item} {es : List (World F Item × Act F Item)} {w w' : World F Item}
  {a : Act F Item} {b : Binding F} {tip : Tooltip F} {n o x : NodeId}

theorem bindingsOf_snoc : bindingsOf s (es ++ [(w, a)]) x =
    bindingsOf s es x ++ (binding? s w a).toList.filter (·.nodes.contains x) := by
  rw [bindingsOf, bindings, List.filterMap_append, List.filter_append]
  cases hb : binding? s w a <;> simp [bindingsOf, bindings, hb]

/-! Who binds a tooltip to a node has put it in place. -/

/-- Which view bound a tooltip: its task, for whom that worked, and whether its output is a fragment. -/
def Binding.view (b : Binding F) : TaskId × List TaskId × Bool :=
  (b.task, b.owners, b.fragment)

/-- Which view put nodes in place. -/
def placer (q : Placing F) : TaskId × List TaskId × Bool :=
  (q.task, q.owners, q.fragment)

theorem placing_of_binding (h : binding? s w a = some b) :
    ∃ q, a.placing? s w = some q ∧ b.view = placer q ∧ ∀ x ∈ b.nodes, x ∈ q.nodes := by
  cases a with
  | step id =>
    simp only [binding?, Option.bind_eq_bind, Option.bind_eq_some_iff, Option.some.injEq] at h
    obtain ⟨q, hq, t, ht, r, hr, n, hn, p, hp, tip, _, rfl⟩ := h
    refine ⟨q, hq, rfl, fun x hx => ?_⟩
    simp only [Act.placing?, ht, hr, hn, hp, Option.bind_eq_bind, Option.bind_some,
      Option.bind_eq_some_iff] at hq
    obtain ⟨_, _, _, _, hq⟩ := hq
    split at hq
    · cases hq
      exact (List.mem_filter.mp hx).1
    · cases hq
  | _ => cases h

/-- The views that bound tooltips to a node are some of those that put it in place, in the same order. -/
theorem views_sublist (es : List (World F Item × Act F Item)) (x : NodeId) :
    ((bindingsOf s es x).map Binding.view).Sublist ((placingsOf s es x).map placer) := by
  induction es with
  | nil => exact .slnil
  | cons e es ih =>
    cases hb : binding? s e.1 e.2 with
    | none =>
      have hsame : bindingsOf s (e :: es) x = bindingsOf s es x := by simp [bindingsOf, bindings, hb]
      rw [hsame]
      apply ih.trans
      exact (((List.sublist_cons_self e es).filterMap _).filter _).map _
    | some b =>
      obtain ⟨q, hq, hview, hnodes⟩ := placing_of_binding hb
      have hbindings : bindings s (e :: es) = b :: bindings s es := by simp [bindings, hb]
      have hplacings : placings s (e :: es) = q :: placings s es := by simp [placings, hq]
      rw [bindingsOf, hbindings, placingsOf, hplacings]
      by_cases hx : x ∈ b.nodes
      · rw [List.filter_cons_of_pos (by simpa using hx),
          List.filter_cons_of_pos (by simpa using hnodes x hx), List.map_cons, List.map_cons, hview]
        exact ih.cons_cons _
      · rw [List.filter_cons_of_neg (by simpa using hx)]
        exact ih.trans (((List.sublist_cons_self q _).filter _).map _)

/-- What binds a tooltip to a node once more is a fragment for which the others worked. -/
theorem inner_of_placings (h : (placingsOf s es x).Pairwise fun q q' =>
      q'.fragment = true ∧ q'.task ∈ q.owners) :
    (bindingsOf s es x).Pairwise fun b b' => b'.fragment = true ∧ b'.task ∈ b.owners := by
  have hplacers : ((placingsOf s es x).map placer).Pairwise fun v v' =>
      v'.2.2 = true ∧ v'.1 ∈ v.2.1 := List.pairwise_map.mpr h
  exact List.pairwise_map.mp (hplacers.sublist (views_sublist es x))

theorem placed_of_bound (h : b ∈ bindingsOf s es x) : ∃ q, q ∈ placingsOf s es x := by
  have hview := (views_sublist es x).subset (List.mem_map_of_mem h)
  obtain ⟨q, hq, _⟩ := List.mem_map.mp hview
  exact ⟨q, hq⟩

/-! The nodes that a tooltip is bound to. -/

theorem isElement_foldl_addClass (t : Tree Item) (classes : List String) :
    let t' := classes.foldl (fun t c => t.modify o (Item.addClass c)) t
    (t'.get? x).map Item.isElement = (t.get? x).map Item.isElement := by
  induction classes generalizing t with
  | nil => rfl
  | cons c cs ih =>
    refine (ih _).trans ?_
    rw [Tree.get?_modify]
    split
    · cases t.get? x <;> simp
    · rfl

/-- Classes do not change which nodes take a tooltip. -/
theorem takers_decorate (sc : Scene F Item) (settings : Settings) (view : Option String)
    (p : Prepared F) (context : Json.Value) :
    (sc.decorate settings view o p context).takers o = sc.takers o := by
  obtain ⟨hkids, hfrag⟩ := Scene.decorate_frame (s := sc) (o := o) settings view p context
  have hitem : ∀ x, ((sc.decorate settings view o p context).tree.get? x).map Item.isElement =
      (sc.tree.get? x).map Item.isElement := by
    intro x
    have hclasses : (((sc.addClasses o (Scene.classesOf settings view p.classes)).tree.get? x).map
        Item.isElement) = (sc.tree.get? x).map Item.isElement := by
      unfold Scene.addClasses
      split
      · rfl
      · exact isElement_foldl_addClass sc.tree _
    rw [Scene.decorate_eq]
    cases p.tooltip? context <;> exact hclasses
  have hplaced : (sc.decorate settings view o p context).placed o = sc.placed o := by
    simp only [Scene.placed, hfrag, hkids]
  rw [Scene.takers, Scene.takers, hplaced]
  apply List.filter_congr
  intro x _
  exact congrArg (·.getD false) (hitem x)

/-! In every history. -/

/-- What the tooltips of nodes tell about a history. -/
structure Bound (s : Setup F Item) (es : List (World F Item × Act F Item)) (w : World F Item) :
    Prop where
  attributed : Attributed s es w
  live : ∀ tip, w.scene.BearsLive (.tooltip tip)
  last : ∀ {x}, w.scene.tree.contains x →
    w.scene.tooltips.get? x = (bindingsOf s es x).getLast?.map Binding.tooltip

namespace Bound

theorem start {registry : Registry F} {tree : Tree Item} (h : tree.Linked) :
    Bound s [] (World.start registry tree) where
  attributed := .start h
  live _ _ hx := nomatch hx
  last _ := rfl

/-- What is known of a node that is live holds of a new one too. -/
theorem last_of_fades (h : Bound s es w) (hf : Tree.Fades w.scene.tree w'.scene.tree)
    (hx : w'.scene.tree.contains x) :
    w.scene.tooltips.get? x = (bindingsOf s es x).getLast?.map Binding.tooltip := by
  by_cases hlt : x < w.scene.tree.next
  · exact h.last (hf.live hlt hx)
  · have hnone : bindingsOf s es x = [] := by
      apply List.eq_nil_iff_forall_not_mem.mpr
      intro b hb
      obtain ⟨q, hq⟩ := placed_of_bound hb
      exact hlt (h.attributed.given hq)
    have hfree : w.scene.tooltips.get? x = none := by
      apply Option.eq_none_iff_forall_ne_some.mpr
      intro tip htip
      exact hlt (h.attributed.orderly.sound.linked.live_lt (h.live tip x htip))
    rw [hnone, hfree]
    rfl

/-- The step of a view that ends binds its tooltip, if it declares one and its place is there. -/
theorem binding_of_completes {t : Task F Item} {r : Run F Item} {p : Prepared F} (h : World.Roster w)
    (ht : t ∈ w.tasks) (hwork : t.work = .run r) (hn : r.output? = some n) (hp : r.ready? = some p)
    (hact : w.step s t.id = some w') (hs : World.Settled w t .rendered w') :
    binding? s w (.step t.id) =
      if w.scene.tree.parent? r.place = none then none
      else (p.tooltip? r.context).map fun tip =>
        ⟨t.id, t.owners, w.scene.isFragment n, tip, w.scene.takers n⟩ := by
  cases hd : w.scene.tree.parent? r.place with
  | none =>
    have hnone : (Act.step t.id : Act F Item).placing? s w = none := by
      simp [Act.placing?, h.task? ht, Work.run?, hwork, hn, hp, hd]
    simp [binding?, hnone]
  | some d =>
    have hplacing := World.placing_of_completes h ht hwork hn hp hd hact hs
    cases htip : p.tooltip? r.context <;>
      simp [binding?, hplacing, h.task? ht, Work.run?, hwork, hn, hp, htip]

/-- What a run that ends without a place would put there goes with its output. -/
theorem gone_of_detached {t : Task F Item} {r : Run F Item} {p : Prepared F} (h : Sound w)
    (ht : t ∈ w.tasks) (hwork : t.work = .run r) (hn : r.output? = some n)
    (hd : w.scene.tree.parent? r.place = none)
    (hscene : w'.scene = (w.scene.decorate s.settings r.resolved.name? n p r.context).finish
      r.place n (r.provenance p)) (hx : x ∈ w.scene.placed n) : ¬w'.scene.tree.contains x := by
  have hf := World.finished_of_completes h ht hwork hn s.settings p
  rw [← hscene] at hf
  cases hf with
  | kept attached decorated same spliced provenance places =>
    rw [hd] at attached
    cases attached
  | lost decorated detached pruned provenance places =>
    intro hl
    obtain ⟨hlive, hout⟩ := pruned.live.mp hl
    cases Scene.placed_cases hx with
    | inl hchild =>
      have hlt := h.linked.listed_lt hchild.2
      have hlink := h.linked.link hchild.2 (decorated.live hlt ▸ hlive)
      exact hout (.of_parent ((decorated.parent hlt).trans hlink))
    | inr heq => exact hout (heq ▸ .self)

theorem act (h : Bound s es w) (hp : a.IsProper w) (hact : w.act s a = some w') :
    Bound s (es ++ [(w, a)]) w' := by
  have hs := h.attributed.orderly.sound
  have hf := (World.deed_of_act hs hp.1 hact).fades hs
  have hattributed := h.attributed.act hp hact
  cases World.labels_of_act hs hp.1 hact with
  | kept quiet keeps =>
    have hkeeps := fun tip => keeps (.tooltip tip) (h.live tip) nofun
    have hnone : binding? s w a = none := by
      cases hb : binding? s w a with
      | none => rfl
      | some b =>
        obtain ⟨q, hq, _⟩ := placing_of_binding hb
        obtain ⟨t, ht, _, _, _, _, hout⟩ := World.completes_of_placing hq hact
        exact absurd rfl ((hs.roster.settled (quiet hout)).2 t ht)
    refine ⟨hattributed, fun tip => (hkeeps tip).live, fun {x} hx => ?_⟩
    rw [bindingsOf_snoc, hnone, Option.toList_none, List.filter_nil, List.append_nil,
      ← h.last_of_fades hf hx]
    exact Option.ext fun tip => (hkeeps tip).borne.trans (and_iff_left hx)
  | @completes t r n p mem work output ready scene settled keeps =>
    have hkeeps := fun tip => keeps (.tooltip tip) (h.live tip)
    refine ⟨hattributed, fun tip => (hkeeps tip).live, fun {x} hx => ?_⟩
    have hdecorated : w'.scene.tooltips.get? x =
        (w.scene.decorate s.settings r.resolved.name? n p r.context).tooltips.get? x :=
      Option.ext fun tip => (hkeeps tip).borne.trans (and_iff_left hx)
    rw [hdecorated, Scene.get?_tooltips_decorate, takers_decorate, h.last_of_fades hf hx,
      bindingsOf_snoc, binding_of_completes hs.roster mem work output ready hact settled]
    by_cases htaker : x ∈ w.scene.takers n
    · have hattached : w.scene.tree.parent? r.place ≠ none := fun hd =>
        gone_of_detached hs mem work output hd scene (List.mem_filter.mp htaker).1 hx
      cases p.tooltip? r.context <;> simp [htaker, hattached]
    · by_cases hd : w.scene.tree.parent? r.place = none <;>
        cases p.tooltip? r.context <;> simp [htaker, hd]

theorem history {registry : Registry F} {tree : Tree Item} (htree : tree.Linked)
    (h : History s (fun v a => a.IsProper v) (World.start registry tree) es w) : Bound s es w :=
  h.invariant_past (.start htree) fun _ _ _ _ hv ok next => hv.act ok next

/-- For a node, the tooltip is found that was bound last to the nearest node at or above it with one. -/
theorem found (h : Bound s es w) (hx : w.scene.tree.contains x) :
    (∃ a inner outer, w.scene.tree.Nearest (bindingsOf s es · ≠ []) x a ∧
        bindingsOf s es a = inner :: outer ∧
        (∀ b ∈ outer, b.fragment = true ∧ b.task ∈ inner.owners) ∧
        tooltipOf? w.scene x = some (a, (outer.getLastD inner).tooltip)) ∨
      (∀ a, w.scene.tree.Under a x → bindingsOf s es a = []) ∧ tooltipOf? w.scene x = none := by
  have hlinked := h.attributed.orderly.sound.linked
  let f : NodeId → Option (NodeId × Tooltip F) := fun id =>
    (w.scene.tooltips.get? id).map fun tip => (id, tip)
  have hlast : ∀ {a}, w.scene.tree.Under a x → f a =
      (bindingsOf s es a).getLast?.map fun b => (a, b.tooltip) := by
    intro a hu
    simp only [f, h.last (hu.top_live hlinked hx), Option.map_map]
    rfl
  have hsome : ∀ {a}, w.scene.tree.Under a x → (f a ≠ none ↔ bindingsOf s es a ≠ []) := by
    intro a hu
    rw [hlast hu, ne_eq, Option.map_eq_none_iff, List.getLast?_eq_none_iff]
  have hfinds : w.scene.tree.Finds f x (tooltipOf? w.scene x) := Tree.finds_lineage hlinked f x
  cases hfinds with
  | inl hfound =>
    obtain ⟨a, hnear, hfound⟩ := hfound
    have hne := (hsome hnear.above).mp hnear.has
    obtain ⟨inner, outer, heq⟩ := List.exists_cons_of_ne_nil hne
    have hpair := inner_of_placings (h.attributed.inner (hnear.above.top_live hlinked hx))
    rw [heq] at hpair
    refine .inl ⟨a, inner, outer, ⟨hnear.above, hne, fun hu hb => ?_⟩, heq, ?_, ?_⟩
    · exact hnear.nearest hu ((hsome hu).mpr hb)
    · exact fun b hb => List.rel_of_pairwise_cons hpair hb
    · rw [hfound, hlast hnear.above, heq, List.getLast?_cons, List.getLastD_eq_getLast?]
      rfl
  | inr hnone =>
    refine .inr ⟨fun a hu => ?_, hnone.2⟩
    exact Classical.byContradiction fun hne => (hsome hu).mpr hne (hnone.1 a hu)

end Bound

end Montage.Html
