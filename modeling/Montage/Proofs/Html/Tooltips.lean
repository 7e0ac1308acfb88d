import Montage.Proofs.Html.Bindings

/-!
What a pointer shows. A hover is nothing but acts of which none binds a tooltip, so that all that holds of
acts holds while the pointer moves. Main statement: a hover shows the tooltip that was bound last to the
nearest node with one; the first that was bound there is that of the innermost view, and all that come after
it are those of fragments that enclose it.
-/

namespace Montage

variable {α : Type}

theorem Table.modify_id (t : Table α) (k : NodeId) : t.modify k (fun v => v) = t := by
  simp [Table.modify]

theorem Table.modify_modify (t : Table α) (k : NodeId) (f g : α → α) :
    (t.modify k f).modify k g = t.modify k fun v => g (f v) := by
  simp only [Table.modify, Table.mk.injEq, List.map_map]
  apply List.map_congr_left
  intro e _
  by_cases he : e.1 = k <;> simp [he]

namespace Html

open World (Sound start)

variable {F : Type} {s : Setup F Item} {u v w : World F Item} {a : Act F Item} {p x : NodeId}

/-! Acts that bind no tooltip. -/

/-- A world that comes about by proper acts of which none binds a tooltip. -/
def Reaches (s : Setup F Item) (u w : World F Item) : Prop :=
  ∃ es, History s (fun v a => a.IsProper v) u es w ∧ bindings s es = []

namespace Reaches

theorem refl : Reaches s w w := ⟨[], .nil, rfl⟩

theorem trans (h : Reaches s u v) (h' : Reaches s v w) : Reaches s u w := by
  obtain ⟨es, hes, hnone⟩ := h
  obtain ⟨es', hes', hnone'⟩ := h'
  exact ⟨es ++ es', hes.append hes', by
    rw [bindings, List.filterMap_append]
    exact List.append_eq_nil_iff.mpr ⟨hnone, hnone'⟩⟩

theorem act (hp : a.IsProper u) (hact : u.act s a = some w) (hnone : binding? s u a = none) :
    Reaches s u w :=
  ⟨_, .one hp hact, by simp [bindings, hnone]⟩

/-- An act on one node is proper if that is no output. -/
theorem proper (ha : a.Known w.scene.tree.next) (ht : a.targets w = [p])
    (hp : ∀ t ∈ w.tasks, t.work.output? ≠ some p) : a.IsProper w := by
  refine ⟨ha, fun n hn t htask => ?_⟩
  rw [ht, List.mem_singleton] at hn
  exact hn ▸ hp t htask

theorem sound (h : Reaches s u w) (hu : Sound u) : Sound w := by
  obtain ⟨es, hes, _⟩ := h
  exact hes.invariant hu fun _ _ _ hv ok next => hv.act ok.1 next

/-- Nodes are discarded that are no outputs. -/
theorem discards {ids : List NodeId} (h : ∀ n ∈ ids, ∀ t ∈ w.tasks, t.work.output? ≠ some n) :
    Reaches s w { w with scene := ids.foldl Scene.discard w.scene } := by
  induction ids generalizing w with
  | nil => exact .refl
  | cons n ids ih =>
    have hproper := proper (a := .discard n) trivial rfl (h n List.mem_cons_self)
    have hone : Reaches s w (w.discard n) := act hproper rfl rfl
    exact hone.trans (ih fun m hm => h m (List.mem_cons_of_mem _ hm))

/-- A node is changed that is no output. -/
theorem marks (ms : List Mark) (h : ∀ t ∈ w.tasks, t.work.output? ≠ some p) :
    Reaches s w { w with scene := modify w.scene p fun item => ms.foldl (fun i m => m.on i) item } := by
  induction ms generalizing w with
  | nil =>
    have hsame : modify w.scene p (fun item => item) = w.scene := by
      simp [modify, Tree.modify, Tree.modifySlot, Table.modify_id]
    change Reaches s w { w with scene := modify w.scene p fun item => item }
    rw [hsame]
    exact .refl
  | cons m ms ih =>
    have hproper := proper (a := .mark p m) trivial rfl h
    have hone : Reaches s w { w with scene := modify w.scene p m.on } := act hproper rfl rfl
    have hmore := hone.trans (ih h)
    have hsame : modify (modify w.scene p m.on) p (fun item => ms.foldl (fun i m => m.on i) item) =
        modify w.scene p fun item => (m :: ms).foldl (fun i m => m.on i) item := by
      simp [modify, Tree.modify, Tree.modifySlot, Table.modify_modify]
    exact hsame ▸ hmore

/-- The popup is made if there is none. -/
theorem ensurePopup (h : Poised w) :
    Reaches s w { w with scene := (Html.ensurePopup w.scene s.settings).1 } := by
  unfold Html.ensurePopup
  cases hp : w.scene.popup with
  | some p => exact .refl
  | none =>
    let item := (Item.ofTag "div").addClass (s.settings.classPrefix ++ "tooltip")
    have hproper := proper (a := .plant body (leaf item)) h.body rfl
      fun t ht => World.not_output_of_unheld h.ground ht
    have hplant : Reaches s w (w.withTree (w.scene.tree.plant body (leaf item))) :=
      act hproper rfl rfl
    exact hplant.trans (act (a := .popup (some w.scene.tree.next)) ⟨trivial, nofun⟩ rfl rfl)

/-- The popup is made and emptied. -/
theorem shownEmpty (h : Poised w) (ms : List Mark) :
    Reaches s w { w with
      scene := Html.shownEmpty w.scene s.settings fun item => ms.foldl (fun i m => m.on i) item } := by
  have hensured := ensurePopup (s := s) h
  have hs := hensured.sound h.sound
  have hpopup := (h.emptied s.settings fun item => ms.foldl (fun i m => m.on i) item).2.2
  rw [Html.shownEmpty]
  generalize Html.ensurePopup w.scene s.settings = t at hensured hs hpopup ⊢
  have hcleared : Reaches s { w with scene := t.1 } { w with scene := clearPopup t.1 t.2 } := by
    apply discards
    intro n hn t' ht ho
    exact hs.apart ht ho hn
  refine (hensured.trans hcleared).trans (marks ms ?_)
  intro t' ht
  cases hpopup with
  | inl hold => exact World.not_output_of_unheld (h.unheld _ hold) ht
  | inr hnew =>
    intro ho
    exact h.sound.free_of_fresh (Nat.le_of_eq hnew.2.symm) ht (World.mem_holds_of_output ho)

/-- The popup is emptied and hidden, if there is one. -/
theorem unhover (h : Poised w) : Reaches s w { w with scene := Html.unhover w.scene } := by
  cases hp : w.scene.popup with
  | none =>
    rw [unhover_of_none hp]
    exact .refl
  | some p =>
    rw [unhover_of_popup hp s.settings]
    exact shownEmpty h [.setAttribute "hidden" ""]

theorem exists_marks (anchor : Anchor) (trigger : NodeId) (i j : Int) : ∃ ms : List Mark,
    anchorAt anchor trigger i j = fun item => ms.foldl (fun i m => m.on i) item := by
  cases anchor with
  | pointer =>
    exact ⟨[.removeAttribute "hidden", .setAttribute "data-position" "pointer", .setAttribute "style" _,
      .removeAttribute "data-anchor"], rfl⟩
  | trigger =>
    exact ⟨[.removeAttribute "hidden", .setAttribute "data-position" "trigger",
      .setAttribute "data-anchor" _, .removeAttribute "style"], rfl⟩

/-- A hover is a row of such acts. -/
theorem hover (h : Poised w) (node : NodeId) (i j : Int) : Reaches s w (Html.hover w s node i j).1 := by
  cases hfound : tooltipOf? w.scene node with
  | none =>
    have hhidden := h.hidden s
    have hproper := proper (a := .render body (.list []) .null .null) hhidden.body rfl
      fun t ht => World.not_output_of_unheld hhidden.ground ht
    have hcall := (unhover h).trans (act (s := s) hproper rfl rfl)
    simp only [Html.hover, hfound]
    exact hcall
  | some found =>
    obtain ⟨trigger, tip⟩ := found
    obtain ⟨ms, hms⟩ := exists_marks tip.anchor trigger i j
    have hshown := h.shown (s := s) (f := anchorAt tip.anchor trigger i j) (by simp)
    have hempty := (h.emptied s.settings (anchorAt tip.anchor trigger i j)).1
    have hreaches := shownEmpty (s := s) h ms
    rw [← hms] at hreaches
    have hproper := proper (a := .render _ tip.content tip.data tip.context)
      (hshown.sound.linked.live_lt hempty.live) rfl
      fun t ht => World.not_output_of_unheld (hshown.unheld _ hempty.popup) ht
    rw [(hover_of_found hfound i j).1]
    exact hreaches.trans (act hproper rfl rfl)

end Reaches

/-! While the pointer moves. -/

variable {es : List (World F Item × Happening F)} {tip : Tooltip F}

/-- The acts among what happened. -/
def acts (es : List (World F Item × Happening F)) : List (World F Item × Act F Item) :=
  es.filterMap fun e =>
    match e.2 with
    | .act a => some (e.1, a)
    | _ => none

theorem acts_snoc (e : World F Item × Happening F) : acts (es ++ [e]) = acts es ++ acts [e] :=
  List.filterMap_append ..

/-- What happens while the pointer moves is a history, in which the acts alone bind tooltips. -/
theorem Tour.history {registry : Registry F} {tree : Tree Item} (h : tree.Linked)
    (hbody : body < tree.next)
    (htour : Tour s (fun v a => a.IsProper v) (start registry tree) es w) :
    ∃ es', History s (fun v a => a.IsProper v) (start registry tree) es' w ∧
      bindings s es' = bindings s (acts es) := by
  generalize hu : start registry tree = u at htour ⊢
  induction htour with
  | nil => exact ⟨[], .nil, rfl⟩
  | @snoc es v w e past ok next ih =>
    obtain ⟨es', hes, hsame⟩ := ih
    have hpoised : Poised v := Poised.tour h hbody (fun _ _ ha => ha.1) (hu ▸ past)
    have hquiet : Reaches s v w → acts [(v, e)] = [] → ∃ es',
        History s (fun v a => a.IsProper v) u es' w ∧
          bindings s es' = bindings s (acts (es ++ [(v, e)])) := by
      intro ⟨es'', hes', hnone⟩ hacts
      refine ⟨es' ++ es'', hes.append hes', ?_⟩
      rw [acts_snoc, hacts, List.append_nil, ← hsame, bindings, List.filterMap_append]
      exact (congrArg (_ ++ ·) hnone).trans (List.append_nil _)
    cases e with
    | act a =>
      refine ⟨es' ++ [(v, a)], hes.snoc ok.1 next, ?_⟩
      rw [acts_snoc, bindings, List.filterMap_append, bindings, List.filterMap_append]
      exact congrArg (· ++ _) hsame
    | hover node i j =>
      have hreaches := Reaches.hover (s := s) hpoised node i j
      exact hquiet (Option.some.inj next ▸ hreaches) rfl
    | unhover =>
      have hreaches := Reaches.unhover (s := s) hpoised
      exact hquiet (Option.some.inj next ▸ hreaches) rfl

/-- A history in which nobody sets the popup is what happens while no pointer moves. -/
theorem Tour.of_history {P : World F Item → Act F Item → Prop}
    {es : List (World F Item × Act F Item)} (h : History s P u es w)
    (hset : ∀ e ∈ es, e.2.setsPopup = false) : Tour s P u (es.map actOf) w := by
  induction h with
  | nil => exact .nil
  | @snoc es v w a past ok next ih =>
    rw [List.map_append]
    have hlast := hset (v, a) (List.mem_append_right _ List.mem_cons_self)
    exact (ih fun e he => hset e (List.mem_append_left _ he)).snoc ⟨ok, hlast⟩ next

theorem acts_actOf (es : List (World F Item × Act F Item)) : acts (es.map actOf) = es := by
  rw [acts, List.filterMap_map]
  exact List.filterMap_some

/-- A hover shows a tooltip: it is found for the node, and in the popup, which is empty then, its content
is rendered with its data and context. -/
structure Shows (s : Setup F Item) (w : World F Item) (x a : NodeId) (tip : Tooltip F) : Prop where
  found : tooltipOf? w.scene x = some (a, tip)
  rendered : ∀ i j, ∃ p sc, Emptied p w.scene sc ∧ (Html.hover w s x i j).2.2 = some p ∧
    (Html.hover w s x i j).1 =
      (World.render { w with scene := sc } s p tip.content tip.data tip.context).1

theorem Poised.shows {a : NodeId} (h : Poised w) (hfound : tooltipOf? w.scene x = some (a, tip)) :
    Shows s w x a tip := by
  refine ⟨hfound, fun i j => ?_⟩
  obtain ⟨hworld, hpopup⟩ := hover_of_found (s := s) hfound i j
  have hempty := (h.emptied s.settings (anchorAt tip.anchor a i j)).1
  exact ⟨_, _, hempty, hpopup, hworld⟩

/-- A hover shows the tooltip that was bound last to the nearest node at or above with one. The first that
was bound there is that of the innermost view, and the others are those of fragments that enclose it; so the
tooltip of the innermost view is shown unless an enclosing fragment with another has put the node in place
once more. Where no view has bound one, there is no popup to show. -/
theorem tooltip_innermost_iff (registry : Registry F) {tree : Tree Item} (h : tree.Linked)
    (hbody : body < tree.next)
    (htour : Tour s (fun v a => a.IsProper v) (start registry tree) es w)
    (hx : w.scene.tree.contains x) :
    (∃ a inner outer, w.scene.tree.Nearest (bindingsOf s (acts es) · ≠ []) x a ∧
        bindingsOf s (acts es) a = inner :: outer ∧
        (∀ b ∈ outer, b.fragment = true ∧ b.task ∈ inner.owners) ∧
        Shows s w x a (outer.getLastD inner).tooltip ∧
        (Shows s w x a inner.tooltip ↔ ∀ b ∈ outer.getLast?, b.tooltip = inner.tooltip)) ∨
      (∀ a, w.scene.tree.Under a x → bindingsOf s (acts es) a = []) ∧
        ∀ i j, (hover w s x i j).2.2 = none := by
  have hpoised := Poised.tour h hbody (fun _ _ ha => ha.1) htour
  obtain ⟨es', hes, hsame⟩ := htour.history h hbody
  have hof : ∀ a, bindingsOf s es' a = bindingsOf s (acts es) a := by
    intro a
    rw [bindingsOf, hsame, bindingsOf]
  have hfound := (Bound.history h hes).found hx
  simp only [hof] at hfound
  cases hfound with
  | inl hsome =>
    obtain ⟨a, inner, outer, hnear, heq, houter, hfound⟩ := hsome
    have hshows := hpoised.shows (s := s) hfound
    refine .inl ⟨a, inner, outer, hnear, heq, houter, hshows, ?_⟩
    have hlast : (outer.getLastD inner).tooltip = inner.tooltip ↔
        ∀ b ∈ outer.getLast?, b.tooltip = inner.tooltip := by
      rw [List.getLastD_eq_getLast?]
      cases outer.getLast? <;> simp
    rw [← hlast]
    constructor
    · intro hinner
      have htwo := hinner.found.symm.trans hfound
      exact (congrArg Prod.snd (Option.some.inj htwo)).symm
    · intro heq
      exact heq ▸ hshows
  | inr hnone =>
    refine .inr ⟨hnone.1, fun i j => ?_⟩
    simp only [hover, hnone.2]

/-- What a tooltip says, if that is a text. -/
def said? (tip : Tooltip F) : Option String :=
  match tip.content with
  | .text s => some s
  | _ => none

/-- A view with a text as its tooltip. -/
def saying (view : ViewRef (Fin 2)) (text : String) : RawConfig (Fin 2) :=
  .object { view := some view, props := [("tooltip", .json (.str text))] }

/-- Functions that render a view with a tooltip, and paint nothing. -/
def sayingScripts : Fin 2 → List (Step (Fin 2) Item)
  | 0 => [.render (saying (.inline 1) "inner") .null .null none]
  | 1 => []

/-- A fragment with a tooltip is rendered, and in it an element with one. -/
def sayingSteps : List (Act (Fin 2) Item) :=
  [.render 1 (saying (.named "frag") "outer") .null .null, .step 2, .step 2, .step 2, .step 3, .step 3,
    .step 3, .step 2]

/-- The element shows the tooltip of the fragment. -/
theorem tooltip_of_nested_in_fragment :
    let s : Setup (Fin 2) Item := .scripted sayingScripts
    let registry : Registry (Fin 2) := ⟨[⟨"frag", .host 0, { shape := fragmentShape }⟩]⟩
    ∃ es, ∃ w : World (Fin 2) Item, ∃ a inner outer, es.map Prod.snd = sayingSteps.map .act ∧
      Tour s (fun v a => a.IsProper v) (start registry (.single (Item.ofTag "body"))) es w ∧
      bindingsOf s (acts es) a = inner :: outer ∧ said? inner.tooltip = some "inner" ∧
      (tooltipOf? w.scene 5).bind (said? ·.2) = some "outer" ∧ ¬Shows s w 5 a inner.tooltip := by
  intro s registry
  have hplay : (World.play s (fun v a => a.IsProper v)
      (start registry (.single (Item.ofTag "body"))) sayingSteps).any (fun w =>
        w.scene.tree.contains 5 && (tooltipOf? w.scene 5).bind (said? ·.2) == some "outer") = true := by
    cbv
  have hbindings : (bindingsOf s (World.events s (start registry (.single (Item.ofTag "body")))
      sayingSteps) 5).map (said? ·.tooltip) = [some "inner", some "outer"] := by
    cbv
  obtain ⟨w, hw, hend⟩ := (Option.any_eq_true _ _).mp hplay
  simp only [Bool.and_eq_true, beq_iff_eq] at hend
  obtain ⟨es, hacts, hes⟩ := History.of_play hw
  rw [← hacts, hes.events_eq] at hbindings
  have hset : ∀ e ∈ es, e.2.setsPopup = false := by
    intro e he
    have hm : e.2 ∈ sayingSteps := hacts ▸ List.mem_map_of_mem he
    have hnone : ∀ a ∈ sayingSteps, a.setsPopup = false := by decide
    exact hnone e.2 hm
  have htour := Tour.of_history hes hset
  have hlinked := (Poised.tour (.single _) (by decide) (fun _ _ ha => ha.1) htour).sound.linked
  have hne : bindingsOf s (acts (es.map actOf)) 5 ≠ [] := by
    rw [acts_actOf]
    intro hnil
    simp [hnil] at hbindings
  cases tooltip_innermost_iff registry (.single _) (by decide) htour hend.1 with
  | inl hsome =>
    obtain ⟨a, inner, outer, hnear, heq, _⟩ := hsome
    obtain rfl : a = 5 := hnear.eq_self hlinked hne
    have hbound := heq
    rw [acts_actOf] at hbound
    rw [hbound, List.map_cons, List.cons.injEq] at hbindings
    refine ⟨_, w, 5, inner, outer, by simp [actOf, ← hacts], htour, heq, hbindings.1, hend.2, ?_⟩
    intro hshows
    have hsaid := hend.2
    rw [hshows.found, Option.bind_some, hbindings.1] at hsaid
    simp at hsaid
  | inr hnone => exact absurd (hnone.1 5 .self) hne

end Html

end Montage
