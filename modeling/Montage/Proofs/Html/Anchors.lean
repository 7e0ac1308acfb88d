import Montage.Proofs.Arena.Forest
import Montage.Proofs.Html.Hovering
import Montage.Proofs.Render.Labels

/-!
Where the popup is shown. A hover finds the node that has the tooltip, empties the popup, and then notes
where it belongs. Main statement: in every state of a document, a popup that is shown at the node with the
tooltip is shown at a live one just if that node does not stand in the popup.
-/

namespace Montage.Html

open Json (Value)
open World (Sound start)

variable {F : Type}

/-- The value of an attribute. -/
def Item.attribute? (name : String) : Item → Option String
  | .element _ _ attributes => Fields.get? attributes name
  | _ => none

namespace Item

variable {item : Item} {name other value : String}

theorem attribute?_setAttribute (h : item.isElement) : (item.setAttribute name value).attribute? other =
    if other = name then some value else item.attribute? other := by
  cases item with
  | element tag classes attributes => simp [setAttribute, attribute?, Fields.get?_insert]
  | _ => cases h

theorem attribute?_removeAttribute : (item.removeAttribute name).attribute? other =
    if other = name then none else item.attribute? other := by
  cases item with
  | element tag classes attributes => simp [removeAttribute, attribute?, Fields.get?_erase]
  | _ => simp [removeAttribute, attribute?]

/-- At the node with the tooltip, the popup says which node that is. -/
theorem attribute?_anchorAt (h : item.isElement) (trigger : NodeId) (x y : Int) :
    (anchorAt .trigger trigger x y item).attribute? "data-anchor" = some (toString trigger) := by
  simp [anchorAt, attribute?_removeAttribute, attribute?_setAttribute, h]

theorem isElement_mark (m : Mark) : (m.on item).isElement = item.isElement := by
  cases m with
  | addClass c => exact isElement_addClass c
  | setAttribute name value => exact isElement_setAttribute
  | removeAttribute name => exact isElement_removeAttribute
  | setText s => cases item <;> rfl

end Item

/-! What can happen while the pointer moves. -/

/-- The pointer may move at any time; acts meet a condition, and do not set the popup. -/
def Happening.Meets (P : World F Item → Act F Item → Prop) (w : World F Item) : Happening F → Prop
  | .act a => P w a ∧ a.setsPopup = false
  | .hover .. | .unhover => True

instance (P : World F Item → Act F Item → Prop) [∀ w a, Decidable (P w a)] (w : World F Item) :
    (h : Happening F) → Decidable (h.Meets P w)
  | .act a => inferInstanceAs (Decidable (P w a ∧ a.setsPopup = false))
  | .hover .. | .unhover => inferInstanceAs (Decidable True)

/-- What happened, with the world before each. -/
inductive Tour (s : Setup F Item) (P : World F Item → Act F Item → Prop) (u : World F Item) :
    List (World F Item × Happening F) → World F Item → Prop
  | nil : Tour s P u [] u
  | snoc {es : List (World F Item × Happening F)} {v w : World F Item} {h : Happening F}
      (past : Tour s P u es v) (ok : h.Meets P v) (next : h.run v s = some w) :
      Tour s P u (es ++ [(v, h)]) w

namespace Tour

variable {s : Setup F Item} {P : World F Item → Act F Item → Prop} {u w : World F Item}
  {es : List (World F Item × Happening F)}

/-- Lets things happen one after the other, each of them only if it may. -/
def play (s : Setup F Item) (P : World F Item → Act F Item → Prop) [∀ w a, Decidable (P w a)]
    (w : World F Item) (hs : List (Happening F)) : Option (World F Item) :=
  hs.foldlM (fun w h => if h.Meets P w then h.run w s else none) w

/-- What is played is a tour. -/
theorem of_play [∀ w a, Decidable (P w a)] {hs : List (Happening F)} (h : play s P u hs = some w) :
    ∃ es, es.map Prod.snd = hs ∧ Tour s P u es w := by
  refine exists_trace (R := Tour s P u) (fun hes hnext => ?_) .nil h
  obtain ⟨ok, hnext⟩ := Option.ite_none_right_eq_some.mp hnext
  exact hes.snoc ok hnext

end Tour

/-! What a hover does before it renders. -/

section Shown

variable {s : Scene F Item} {settings : Settings} {f : Item → Item} {tip : Tooltip F} {p x : NodeId}

/-- A node stands in the popup. -/
def InPopup (s : Scene F Item) (x : NodeId) : Prop :=
  ∃ p, s.popup = some p ∧ p ≠ x ∧ s.tree.Under p x

/-- The document when the popup is there, is empty, and shows where it belongs. -/
def shownEmpty (s : Scene F Item) (settings : Settings) (f : Item → Item) : Scene F Item :=
  modify (clearPopup (ensurePopup s settings).1 (ensurePopup s settings).2) (ensurePopup s settings).2 f

/-- Where there is no popup, none is hidden. -/
theorem unhover_of_none (hp : s.popup = none) : unhover s = s := by
  simp [unhover, hp]

/-- The popup is hidden once it is empty. -/
theorem unhover_of_popup (hp : s.popup = some p) (settings : Settings) :
    unhover s = shownEmpty s settings (Item.setAttribute "hidden" "") := by
  simp [unhover, shownEmpty, ensurePopup, hp]

theorem tooltips_ensurePopup : (ensurePopup s settings).1.tooltips = s.tooltips := by
  unfold ensurePopup
  split <;> rfl

/-- Emptying a node takes away all that stands in it, and nothing else. -/
theorem live_clearPopup (h : s.tree.Linked) (hx : s.tree.contains x) :
    (clearPopup s p).tree.contains x ↔ ¬(p ≠ x ∧ s.tree.Under p x) := by
  have hshed : Shed (s.tree.children p) s (clearPopup s p) := shed_discard h _
  rw [hshed.live, and_iff_right hx]
  constructor
  · intro hfree ⟨hne, hu⟩
    cases hu.cases_child with
    | inl heq => exact hne heq
    | inr hchild =>
      obtain ⟨c, hc, hu⟩ := hchild
      exact hfree c (h.listed hc) hu
  · intro hout n hn hu
    have hlink := h.link hn (hu.top_live h hx)
    have hlt := Nat.lt_of_lt_of_le (h.ordered hlink) (h.le_of_under hu)
    exact hout ⟨Nat.ne_of_lt hlt, (Tree.Under.of_parent hlink).trans hu⟩

/-- Of what was there before, just what stood in the popup goes. -/
theorem live_shownEmpty (h : s.tree.Linked) (hbody : body < s.tree.next) (hx : s.tree.contains x)
    (settings : Settings) (f : Item → Item) :
    (shownEmpty s settings f).tree.contains x ↔ ¬InPopup s x := by
  have hmodify : ∀ (sc : Scene F Item) n, (modify sc n f).tree.contains x ↔ sc.tree.contains x :=
    fun sc n => iff_of_eq (congrArg (· = true) Tree.contains_modify)
  rw [shownEmpty, hmodify, ensurePopup]
  cases hp : s.popup with
  | none =>
    have hnone : ¬InPopup s x := by simp [InPopup, hp]
    have hg := Tree.Grown.attach h hbody
      ((Item.ofTag "div").addClass (settings.classPrefix ++ "tooltip"))
    -- A popup that is new is younger than all that was there.
    refine iff_of_true ((live_clearPopup hg.after (hg.lives hx)).mpr fun hu => ?_) hnone
    exact Nat.not_lt.mpr (hg.after.le_of_under hu.2) (h.live_lt hx)
  | some p =>
    rw [live_clearPopup h hx, InPopup]
    simp [hp]

theorem keeps_shownEmpty (h : s.tree.Linked) (hbody : body < s.tree.next)
    (htip : s.BearsLive (.tooltip tip)) (settings : Settings) (f : Item → Item) :
    s.Keeps (.tooltip tip) (shownEmpty s settings f) := by
  have hensured : s.Keeps (.tooltip tip) (ensurePopup s settings).1 := by
    have hlives : ∀ x, s.tree.contains x → (ensurePopup s settings).1.tree.contains x := by
      intro x hx
      unfold ensurePopup
      split
      · exact hx
      · exact (Tree.Grown.attach h hbody _).lives hx
    refine ⟨fun {x} => ?_⟩
    rw [Scene.Bears, tooltips_ensurePopup]
    exact ⟨fun hx => ⟨hx, hlives x (htip x hx)⟩, And.left⟩
  have hcleared := Scene.keeps_discards hensured.live
    ((ensurePopup s settings).1.tree.children (ensurePopup s settings).2)
  have hmarked := hensured.trans hcleared (fun _ _ => Scene.contains_of_discards) htip
  refine ⟨fun {x} => hmarked.borne.trans (and_congr_right fun _ => ?_)⟩
  exact iff_of_eq (congrArg (· = true) Tree.contains_modify.symm)

end Shown

/-! What every state of a document keeps. -/

/-- The popup, if there is one, is an element, no task works on it or on the body, and only live nodes have
tooltips. -/
structure Poised (w : World F Item) : Prop where
  sound : Sound w
  body : Html.body < w.scene.tree.next
  ground : ∀ t ∈ w.tasks, Html.body ∉ t.work.holds
  element : HasElement w.scene
  unheld : ∀ p, w.scene.popup = some p → ∀ t ∈ w.tasks, p ∉ t.work.holds
  tips : ∀ tip, w.scene.BearsLive (.tooltip tip)

namespace Poised

variable {s : Setup F Item} {w w' : World F Item} {a : Act F Item} {f : Item → Item}

theorem start (registry : Registry F) {tree : Tree Item} (h : tree.Linked)
    (hbody : Html.body < tree.next) : Poised (start registry tree) where
  sound := .start registry h
  body := hbody
  ground _ ht := nomatch ht
  element _ hp := nomatch hp
  unheld _ _ _ ht := nomatch ht
  tips _ _ hx := nomatch hx

/-- An element on which no task works stays one. -/
theorem element_act {p : NodeId} (h : Poised w) (ha : a.Known w.scene.tree.next)
    (hact : w.act s a = some w') (hp : w.scene.popup = some p) (hl : w'.scene.tree.contains p) :
    ∃ item, w'.scene.tree.get? p = some item ∧ item.isElement := by
  obtain ⟨item, hitem, helement⟩ := h.element p hp
  by_cases hmark : p ∈ a.marked
  · cases a with
    | mark n m =>
      obtain rfl := List.mem_singleton.mp hmark
      cases hact
      refine ⟨m.on item, ?_, (Item.isElement_mark m).trans helement⟩
      have hget : (w.scene.tree.modify p m.on).get? p = _ := Tree.get?_modify
      rw [if_pos rfl, hitem] at hget
      exact hget
    | _ => cases hmark
  · have hframe := World.frame_of_act h.sound ha hact
    have hlt := h.sound.linked.live_lt (h.element.lives p hp)
    refine ⟨item, (hframe.item hlt hl ?_).trans hitem, helement⟩
    intro hreach
    rcases hreach with hm | ⟨t, r, ⟨ht, hwork, _⟩, ho⟩ | ⟨t, r, o, ⟨⟨ht, hwork, _⟩, _⟩, rfl⟩
    · exact hmark hm
    · exact World.not_output_of_unheld (h.unheld p hp) ht (hwork ▸ ho)
    · exact h.unheld _ hp t ht (World.mem_holds_of_place (hwork ▸ List.mem_cons_self))

theorem act (h : Poised w) (ha : a.Known w.scene.tree.next) (hset : a.setsPopup = false)
    (hact : w.act s a = some w') : Poised w' := by
  have hframe := World.frame_of_act h.sound ha hact
  have hkeeps := World.keepsPopup_of_act h.sound h.element.lives ha hset hact
  refine {
    sound := h.sound.act ha hact
    body := Nat.lt_of_lt_of_le h.body hframe.fades.next_le
    ground := World.unheld_kept h.sound ha hact h.body h.ground
    element := ?element, unheld := ?unheld, tips := ?tips }
  case element =>
    intro p hp
    obtain ⟨hp, hl⟩ := hkeeps.popup.mp hp
    exact h.element_act ha hact hp hl
  case unheld =>
    intro p hp
    obtain ⟨hp, _⟩ := hkeeps.popup.mp hp
    have hlt := h.sound.linked.live_lt (h.element.lives p hp)
    exact World.unheld_kept h.sound ha hact hlt (h.unheld p hp)
  case tips =>
    intro tip
    cases World.labels_of_act h.sound ha hact with
    | kept quiet keeps => exact (keeps _ (h.tips tip) nofun).live
    | completes mem work output ready scene settled keeps => exact (keeps _ (h.tips tip)).live

/-- The popup that is shown is empty, and an element; it was there before, or it is new. -/
theorem emptied (h : Poised w) (settings : Settings) (f : Item → Item) :
    let p := (ensurePopup w.scene settings).2
    let sc := shownEmpty w.scene settings f
    Emptied p w.scene sc ∧ (∃ item, sc.tree.get? p = some (f item) ∧ item.isElement) ∧
      (w.scene.popup = some p ∨ w.scene.popup = none ∧ p = w.scene.tree.next) := by
  obtain ⟨hempty, _, hitem, hpopup⟩ := emptied_ensurePopup h.sound.linked h.body h.element settings f
  exact ⟨hempty, hitem, hpopup⟩

/-- The popup is made and emptied. -/
theorem shown (h : Poised w) (hf : ∀ item, (f item).isElement = item.isElement) :
    Poised { w with scene := shownEmpty w.scene s.settings f } := by
  have hs := h.sound
  obtain ⟨hempty, hitem, hpopup⟩ := h.emptied s.settings f
  refine {
    sound := hs.rescene _ hempty.steady fun hc => .inl (hempty.clicks hc)
    body := Nat.lt_of_lt_of_le h.body hempty.steady.next_le
    ground := h.ground
    element := ?element, unheld := ?unheld
    tips := fun tip => (keeps_shownEmpty hs.linked h.body (h.tips tip) s.settings f).live }
  case element =>
    intro p hp
    obtain rfl := Option.some.inj (hempty.popup.symm.trans hp)
    obtain ⟨item, hitem, helement⟩ := hitem
    exact ⟨f item, hitem, (hf item).trans helement⟩
  case unheld =>
    intro p hp
    obtain rfl := Option.some.inj (hempty.popup.symm.trans hp)
    cases hpopup with
    | inl hold => exact h.unheld _ hold
    | inr hnew => exact fun t ht => hs.free_of_fresh (Nat.le_of_eq hnew.2.symm) ht

/-- The popup is emptied and hidden, if there is one. -/
theorem hidden (h : Poised w) (s : Setup F Item) : Poised { w with scene := unhover w.scene } := by
  cases hp : w.scene.popup with
  | none =>
    rw [unhover_of_none hp]
    exact h
  | some p =>
    rw [unhover_of_popup hp s.settings]
    exact h.shown (by simp)

theorem happening {e : Happening F} {P : World F Item → Act F Item → Prop} (h : Poised w)
    (hP : ∀ v a, P v a → a.Known v.scene.tree.next) (hok : e.Meets P w) (hrun : e.run w s = some w') :
    Poised w' := by
  cases e with
  | act a => exact h.act (hP w a hok.1) hok.2 hrun
  | unhover => exact Option.some.inj hrun ▸ h.hidden s
  | hover node x y =>
    simp only [Happening.run, hover, Option.some.injEq] at hrun
    split at hrun
    · -- A call with nothing to do renders nothing.
      have hnone := h.hidden s
      have hcall := hnone.act (s := s) (a := .render Html.body (.list []) .null .null) hnone.body rfl rfl
      exact hrun ▸ hcall
    · rename_i trigger tip hfound
      have hshown := h.shown (s := s) (f := anchorAt tip.anchor trigger x y) (by simp)
      have hempty := (h.emptied s.settings (anchorAt tip.anchor trigger x y)).1
      have hlive := hshown.sound.linked.live_lt hempty.live
      exact hrun ▸ hshown.act (s := s) (a := .render _ tip.content tip.data tip.context) hlive rfl rfl

theorem tour {registry : Registry F} {tree : Tree Item} {P : World F Item → Act F Item → Prop}
    {es : List (World F Item × Happening F)} (h : tree.Linked) (hbody : Html.body < tree.next)
    (hP : ∀ v a, P v a → a.Known v.scene.tree.next)
    (htour : Tour s P (World.start registry tree) es w) : Poised w := by
  generalize hu : World.start registry tree = u at htour
  induction htour with
  | nil => exact hu ▸ .start registry h hbody
  | snoc past ok next ih => exact ih.happening hP ok next

end Poised

/-! Where a tooltip is shown. -/

variable {s : Setup F Item} {es : List (World F Item × Happening F)} {w : World F Item}
  {d node trigger : NodeId} {tip : Tooltip F}

/-- A tooltip that is found is rendered in the popup, once that is empty. -/
theorem hover_of_found (hfound : tooltipOf? w.scene node = some (trigger, tip)) (x y : Int) :
    let p := (ensurePopup w.scene s.settings).2
    let sc := shownEmpty w.scene s.settings (anchorAt tip.anchor trigger x y)
    (hover w s node x y).1 =
        (World.render { w with scene := sc } s p tip.content tip.data tip.context).1 ∧
      (hover w s node x y).2.2 = some p := by
  constructor
  · simp only [hover, hfound]
    rfl
  · simp only [hover, hfound]

theorem tooltip_of_found (hfound : tooltipOf? w.scene node = some (trigger, tip)) :
    w.scene.tooltips.get? trigger = some tip := by
  obtain ⟨id, _, hid⟩ := List.exists_of_findSome?_eq_some hfound
  obtain ⟨tip', htip, heq⟩ := Option.map_eq_some_iff.mp hid
  cases heq
  exact htip

/-- Rendering leaves all nodes that there are, and what they bear. -/
theorem frame_of_render (h : w.scene.tree.Linked) (hd : d < w.scene.tree.next) (raw : RawConfig F)
    (data context : Value) :
    let w' := (World.render w s d raw data context).1
    Scene.SameLabels w.scene w'.scene ∧ ∀ x < w.scene.tree.next,
      w'.scene.tree.contains x = w.scene.tree.contains x ∧
        w'.scene.tree.get? x = w.scene.tree.get? x := by
  have htakes := World.takes_takeUpAll ⟨data, context, none⟩ (raw.normalize s.engine) h hd
  exact ⟨World.sameLabels_takeUpAll w d _ _, fun x hx => ⟨htakes.grown.tree.live hx, htakes.items x hx⟩⟩

/-- After a hover that finds a tooltip to be shown at its node, the popup says that it is at that node; and
the node it names is live and has a tooltip just if it did not stand in the popup, where a hover clears it
away before it is named. -/
theorem anchor_live_iff (registry : Registry F) {tree : Tree Item} (h : tree.Linked)
    (hbody : body < tree.next)
    (htour : Tour s (fun v a => a.Known v.scene.tree.next) (start registry tree) es w)
    (hfound : tooltipOf? w.scene node = some (trigger, tip)) (hanchor : tip.anchor = .trigger)
    (x y : Int) :
    let w' := (hover w s node x y).1
    ∃ p item, (hover w s node x y).2.2 = some p ∧ w'.scene.popup = some p ∧
      w'.scene.tree.get? p = some item ∧ item.attribute? "data-anchor" = some (toString trigger) ∧
      ((∃ n, item.attribute? "data-anchor" = some (toString n) ∧ w'.scene.tree.contains n ∧
        w'.scene.tooltips.contains n) ↔ ¬InPopup w.scene trigger) := by
  have hpoised := Poised.tour h hbody (fun _ _ ha => ha) htour
  have hl := hpoised.sound.linked
  have htip := tooltip_of_found hfound
  have hlive := hpoised.tips tip trigger htip
  obtain ⟨hworld, hpopup⟩ := hover_of_found (s := s) hfound x y
  obtain ⟨hempty, ⟨item, hitem, helement⟩, _⟩ :=
    hpoised.emptied s.settings (anchorAt tip.anchor trigger x y)
  have hgone := live_shownEmpty hl hpoised.body hlive s.settings (anchorAt tip.anchor trigger x y)
  have hkeeps := keeps_shownEmpty hl hpoised.body (hpoised.tips tip) s.settings
    (anchorAt tip.anchor trigger x y)
  have hattribute := Item.attribute?_anchorAt helement trigger x y
  rw [hpopup, hworld, ← hgone]
  rw [hanchor] at hitem hempty hkeeps ⊢
  generalize shownEmpty w.scene s.settings (anchorAt .trigger trigger x y) = sc at *
  have hbound := hempty.steady.after.live_lt hempty.live
  have hlt := Nat.lt_of_lt_of_le (hl.live_lt hlive) hempty.steady.next_le
  obtain ⟨hlabels, hkept⟩ := frame_of_render (w := { w with scene := sc }) (s := s)
    hempty.steady.after hbound tip.content tip.data tip.context
  refine ⟨_, _, rfl, hlabels.popup.trans hempty.popup, (hkept _ hbound).2.trans hitem, hattribute, ?_⟩
  rw [hattribute]
  constructor
  · intro ⟨n, hn, hlive, _⟩
    obtain rfl : trigger = n := Nat.repr_injective (Option.some.inj hn)
    exact (hkept trigger hlt).1 ▸ hlive
  · intro hlive
    have htip : sc.tooltips.get? trigger = some tip := hkeeps.borne.mpr ⟨htip, hlive⟩
    refine ⟨trigger, rfl, (hkept trigger hlt).1 ▸ hlive, ?_⟩
    rw [hlabels.tooltips, Table.contains, htip]
    rfl

/-- A view with nothing in it, whose tooltip is shown in place of the pointer and is such a view again,
with a tooltip that is shown at its node. -/
def nestedTooltips : RawConfig (Fin 2) :=
  let tip : PropValue (Fin 2) := .json (.obj [("content", .null), ("position", .str "trigger")])
  .object { view := some (.inline 0), props := [("tooltip", .config (.object
    { view := some (.inline 0), props := [("tooltip", tip)] }))] }

/-- The pointer moves onto a node, and then into the popup. -/
def hoverInside : List (Happening (Fin 2)) :=
  [.act (.render 1 nestedTooltips .null .null), .act (.step 2), .act (.step 2), .act (.step 2),
    .hover 3 4 8, .act (.step 4), .act (.step 4), .act (.step 4)]

/-- The popup is said to be at a node that was in it, and is gone. -/
theorem anchor_of_node_in_popup :
    let s : Setup (Fin 2) Item := .scripted fun _ => []
    ∃ es, ∃ w : World (Fin 2) Item, ∃ tip, es.map Prod.snd = hoverInside ∧
      Tour s (fun v a => a.Known v.scene.tree.next) (start .empty (.single (Item.ofTag "body"))) es w ∧
      tooltipOf? w.scene 6 = some (6, tip) ∧ tip.anchor = .trigger ∧
      ∃ p item, let w' := (hover w s 6 0 0).1
        w'.scene.tree.get? p = some item ∧ item.attribute? "data-anchor" = some (toString 6) ∧
        ¬∃ n, item.attribute? "data-anchor" = some (toString n) ∧ w'.scene.tree.contains n ∧
          w'.scene.tooltips.contains n := by
  intro s
  have hplay : (Tour.play s (fun v a => a.Known v.scene.tree.next)
      (start .empty (.single (Item.ofTag "body"))) hoverInside).any (fun w =>
        (tooltipOf? w.scene 6).any (fun found => found.1 == 6 && found.2.anchor == .trigger) &&
        w.scene.popup == some 4 && w.scene.tree.parent? 6 == some 4) = true := by
    cbv
  obtain ⟨w, hw, hend⟩ := (Option.any_eq_true _ _).mp hplay
  simp only [Bool.and_eq_true, beq_iff_eq] at hend
  obtain ⟨⟨hfound, hpopup⟩, hparent⟩ := hend
  obtain ⟨⟨trigger, tip⟩, hfound, hat⟩ := (Option.any_eq_true _ _).mp hfound
  simp only [Bool.and_eq_true, beq_iff_eq] at hat
  obtain ⟨rfl, hanchor⟩ := hat
  obtain ⟨es, hmap, htour⟩ := Tour.of_play hw
  obtain ⟨p, item, _, _, hitem, hattribute, hiff⟩ :=
    anchor_live_iff .empty (.single _) (by decide) htour hfound hanchor 0 0
  refine ⟨es, w, tip, hmap, htour, hfound, hanchor, p, item, hitem, hattribute, fun hlive => ?_⟩
  exact hiff.mp hlive ⟨4, hpopup, by decide, .of_parent hparent⟩

end Montage.Html
