import Montage.Proofs.Html.Emptying
import Montage.Proofs.Media.Likeness
import Montage.Proofs.Render.Media

/-!
Documents in which a pointer moves while tooltips are rendered. Main statement: whatever else happens, one
popup at most is there, and all that stands in it is of the last call that hovered or stopped to hover; it is
hidden just if that call had nothing to show.
-/

namespace Montage.Html

open Json (Value)
open World (Orderly Whole Occupied Stands start)

variable {F : Type}

/-- What can happen to a document: the pointer moves onto a node, or off all nodes, or anything else. -/
inductive Happening (F : Type) where
  | hover (node : NodeId) (x y : Int)
  | unhover
  | act (a : Act F Item)

namespace Happening

/-- The world after it; none if a task cannot step or a view cannot be defined. -/
def run (w : World F Item) (s : Setup F Item) : Happening F → Option (World F Item)
  | .hover node x y => some (Html.hover w s node x y).1
  | .unhover => some { w with scene := Html.unhover w.scene }
  | .act a => w.act s a

def IsCall : Happening F → Prop
  | .act _ => False
  | _ => True

/-- The configs that a call shows in the popup, or none if it hides the popup. -/
def shown (w : World F Item) (s : Setup F Item) : Happening F → Option (List (Booking F))
  | .hover node _ _ => (tooltipOf? w.scene node).map fun found =>
      Booking.line w.nextTask (w.nextTask + 1) (ensurePopup w.scene s.settings).1.tree.next
        (found.2.content.normalize s.engine)
  | _ => none

/-- Whatever is done to the popup is done by the calls: nobody else sets it, renders into it, or changes it
or what stands in it. Anything may be discarded. -/
def SparesPopup (w : World F Item) : Happening F → Prop
  | .act a => a.setsPopup = false ∧ a.IsOrderly w ∧ ∀ p ∈ w.scene.popup, a.Avoids w p
  | _ => True

instance (w : World F Item) : (h : Happening F) → Decidable (h.SparesPopup w)
  | .act a => inferInstanceAs (Decidable (a.setsPopup = false ∧ a.IsOrderly w ∧
      ∀ p ∈ w.scene.popup, a.Avoids w p))
  | .hover .. | .unhover => inferInstanceAs (Decidable True)

/-- Lets things happen one after the other, each of them only if it spares the popup. -/
def play (s : Setup F Item) (w : World F Item) (hs : List (Happening F)) : Option (World F Item) :=
  hs.foldlM (fun w h => if h.SparesPopup w then h.run w s else none) w

end Happening

/-- What happened, with the world before each. -/
inductive Visit (s : Setup F Item) (u : World F Item) :
    List (World F Item × Happening F) → World F Item → Prop
  | nil : Visit s u [] u
  | snoc {es : List (World F Item × Happening F)} {v w : World F Item} {h : Happening F}
      (past : Visit s u es v) (ok : h.SparesPopup v) (next : h.run v s = some w) :
      Visit s u (es ++ [(v, h)]) w

/-- An act among what happened. -/
def actOf (e : World F Item × Act F Item) : World F Item × Happening F :=
  (e.1, .act e.2)

variable {s : Setup F Item} {es : List (World F Item × Happening F)} {u v w w' : World F Item}
  {a : Act F Item} {p : NodeId} {shown : Option (List (Booking F))}

/-- An output that was discarded while its run painted into it. -/
def Interrupted (es : List (World F Item × Happening F)) (n : NodeId) : Prop :=
  ∃ v a, (v, Happening.act a) ∈ es ∧ a.Interrupts v n

/-- What is played is a visit. -/
theorem Visit.of_play {hs : List (Happening F)} (h : Happening.play s u hs = some w) :
    ∃ es, es.map Prod.snd = hs ∧ Visit s u es w := by
  refine exists_trace (R := Visit s u) (fun hes hnext => ?_) .nil h
  obtain ⟨ok, hnext⟩ := Option.ite_none_right_eq_some.mp hnext
  exact hes.snoc ok hnext

/-! Calls. -/

/-- The popup, if there is one, is an element that nobody else works on. -/
structure PopupReady (w : World F Item) : Prop where
  orderly : Orderly w
  body : body < w.scene.tree.next
  element : HasElement w.scene
  unheld : ∀ p, w.scene.popup = some p → ∀ t ∈ w.tasks, p ∉ t.work.holds

/-- What a call does to the popup that shows these configs, or hides it. -/
structure Called (shown : Option (List (Booking F))) (w w' : World F Item) : Prop where
  orderly : Orderly w'
  fades : Tree.Fades w.scene.tree w'.scene.tree
  kept : ∀ p, w.scene.popup = some p → w'.scene.popup = some p
  whole : ∀ {gone}, Whole gone w → Whole gone w'
  veiled : ∀ p, w'.scene.popup = some p → Veiled shown.isNone w'.scene.tree p
  occupied : ∀ p, w'.scene.popup = some p → Occupied [] p (shown.getD []) w'
  listed : ∀ p, w'.scene.popup = some p → ∀ b ∈ shown.getD [], b.place ∈ w'.scene.tree.children p

theorem PopupReady.called_unhover (h : PopupReady w) :
    Called none w { w with scene := unhover w.scene } := by
  have hs := h.orderly.sound
  cases hp : w.scene.popup with
  | none =>
    have hsame : unhover w.scene = w.scene := by simp [unhover, hp]
    rw [hsame]
    exact ⟨h.orderly, (Tree.Grown.refl hs.linked none).steady.fades, fun _ => id, id,
      fun _ hq => absurd (hp.symm.trans hq) nofun, fun _ hq => absurd (hp.symm.trans hq) nofun,
      fun _ _ _ hb => absurd hb List.not_mem_nil⟩
  | some p =>
    obtain ⟨hcleared, _, hitem⟩ := emptied_clearPopup hs.linked hp h.element.lives
    have hempty := hcleared.modify p (Item.setAttribute "hidden" "")
    have hscene : unhover w.scene = modify (clearPopup w.scene p) p (Item.setAttribute "hidden" "") := by
      simp [unhover, hp]
    have horderly := h.orderly.rescene _ hempty.steady fun hc => .inl (hempty.clicks hc)
    have hlast : ∀ q, (unhover w.scene).popup = some q → p = q := fun q hq =>
      Option.some.inj (hempty.popup.symm.trans (hscene ▸ hq))
    rw [hscene] at hlast ⊢
    refine {
      orderly := horderly
      fades := hempty.steady.fades
      kept := fun q hq => hempty.popup.trans (hp.symm.trans hq)
      whole := fun hw => hw.rescene hs hempty.steady fun x => hempty.roots
      veiled := ?veiled, occupied := ?occupied
      listed := fun _ _ _ hb => absurd hb List.not_mem_nil }
    case veiled =>
      intro q hq
      obtain rfl := hlast q hq
      obtain ⟨item, hi, he⟩ := h.element p hp
      refine ⟨item.setAttribute "hidden" "", ?_, by simpa using he, ?_⟩
      · refine Tree.get?_modify.trans ((if_pos rfl).trans ?_)
        rw [hitem, hi]
        rfl
      · simp [Item.isHidden_setAttribute, he]
    case occupied =>
      intro q hq
      obtain rfl := hlast q hq
      exact ⟨horderly, horderly.sound.linked.live_lt hempty.live, h.unheld p hp,
        fun hx => absurd hx (hempty.empty _)⟩

/-- A call with nothing to do changes nothing. -/
theorem Called.entered (h : Called none w v) : Called none w (v.openErrands [] []).1 := by
  have htask : ∀ {t : Task F Item}, t ∈ (v.openErrands [] []).1.tasks →
      t ∈ v.tasks ∨ t.work.holds = [] := by
    intro t ht
    have ht : t ∈ (v.openCall [] []).1.tasks := ht
    rw [World.tasks_openCall, List.mem_append, List.mem_singleton] at ht
    refine ht.imp_right fun he => ?_
    rw [he]
    rfl
  refine ⟨h.orderly.entered, h.fades, h.kept, fun hw => ⟨(h.whole hw).full, ?_⟩, h.veiled, fun p hp => ?_,
    fun _ _ _ hb => absurd hb List.not_mem_nil⟩
  · intro t ht o ho
    rcases htask ht with ht | hnone
    · exact (h.whole hw).outputs t ht o ho
    · have hm := World.mem_holds_of_output ho
      rw [hnone] at hm
      cases hm
  · obtain ⟨_, hgiven, hunheld, hstands⟩ := h.occupied p hp
    refine ⟨h.orderly.entered, hgiven, fun t ht => ?_, fun hx => ?_⟩
    · rcases htask ht with ht | hnone
      · exact hunheld t ht
      · simp [hnone]
    · obtain ⟨b, hb, _⟩ := hstands hx
      cases hb

/-- The popup is emptied and shown before its new content is rendered. -/
theorem PopupReady.called_render (h : PopupReady w) (f : Item → Item)
    (hf : ∀ item, (f item).isElement = item.isElement ∧ (f item).isHidden = false) (raw : RawConfig F)
    (data context : Value) :
    let t := ensurePopup w.scene s.settings
    Called
      (some (Booking.line w.nextTask (w.nextTask + 1) t.1.tree.next (raw.normalize s.engine))) w
      (World.render { w with scene := modify (clearPopup t.1 t.2) t.2 f } s t.2 raw data context).1 := by
  have hs := h.orderly.sound
  obtain ⟨hempty, hnext, ⟨item, hitem, helement⟩, hpopup⟩ :=
    emptied_ensurePopup hs.linked h.body h.element s.settings f
  dsimp only at hempty hnext hitem hpopup ⊢
  generalize ensurePopup w.scene s.settings = t at hempty hnext hitem hpopup ⊢
  generalize modify (clearPopup t.1 t.2) t.2 f = sc at hempty hnext hitem ⊢
  have horderly := h.orderly.rescene sc hempty.steady fun hc => .inl (hempty.clicks hc)
  -- Nobody works on the popup there was, and nobody can work on one that is new.
  have hunheld : ∀ u ∈ w.tasks, t.2 ∉ u.work.holds := by
    rcases hpopup with hold | ⟨_, hnew⟩
    · exact h.unheld _ hold
    · exact fun u hu => hs.free_of_fresh (Nat.le_of_eq hnew.symm) hu
  have hlt := hempty.steady.after.live_lt hempty.live
  have htakes := World.takes_takeUpAll (w := { w with scene := sc }) ⟨data, context, none⟩
    (raw.normalize s.engine) hempty.steady.after hlt
  have hlast : ∀ p, (World.render { w with scene := sc } s t.2 raw data context).1.scene.popup = some p →
      t.2 = p := fun p hp =>
    Option.some.inj (hempty.popup.symm.trans ((World.popup_takeUpAll _ _).symm.trans hp))
  have hoccupied : Occupied [] t.2
      (Booking.line w.nextTask (w.nextTask + 1) sc.tree.next (raw.normalize s.engine))
      (World.render { w with scene := sc } s t.2 raw data context).1 :=
    World.occupied_render horderly hempty.live hunheld hempty.empty raw data context
  refine {
    orderly := hoccupied.orderly
    fades := hempty.steady.fades.trans htakes.grown.tree.steady.fades
    kept := ?kept, whole := ?whole, veiled := ?veiled, occupied := ?occupied, listed := ?listed }
  case kept =>
    intro p hp
    rcases hpopup with hold | ⟨hnone, _⟩
    · exact (World.popup_takeUpAll _ _).trans (hempty.popup.trans (hold.symm.trans hp))
    · exact absurd (hnone.symm.trans hp) nofun
  case whole =>
    intro gone hw
    have hwhole := hw.rescene hs hempty.steady fun x => hempty.roots
    exact hwhole.act (a := .render t.2 raw data context) horderly.sound hlt (fun _ hn => nomatch hn.1) rfl
  case veiled =>
    intro p hp
    obtain rfl := hlast p hp
    exact ⟨f item, (htakes.items _ hlt).trans hitem, (hf item).1.trans helement, (hf item).2⟩
  case occupied =>
    intro p hp
    obtain rfl := hlast p hp
    rw [← hnext]
    exact hoccupied
  case listed =>
    intro p hp
    obtain rfl := hlast p hp
    rw [← hnext]
    exact World.listed_render horderly.sound hempty.live raw data context

theorem PopupReady.called (h : PopupReady w) {call : Happening F} (hcall : call.IsCall)
    (hrun : call.run w s = some w') : Called (call.shown w s) w w' := by
  cases call with
  | hover node x y =>
    simp only [Happening.run, hover, Option.some.injEq] at hrun
    simp only [Happening.shown]
    cases hfound : tooltipOf? w.scene node with
    | none =>
      simp only [hfound] at hrun
      exact hrun ▸ h.called_unhover.entered
    | some found =>
      simp only [hfound] at hrun
      exact hrun ▸ h.called_render _ (by simp) ..
  | unhover => exact Option.some.inj hrun ▸ h.called_unhover
  | act a => exact hcall.elim

/-! A whole visit. -/

/-- The latest call, the world before it, and the acts since. -/
structure Latest (es : List (World F Item × Happening F)) (v : World F Item) (call : Happening F)
    (acts : List (World F Item × Act F Item)) : Prop where
  isCall : call.IsCall
  split : ∃ past, es = past ++ (v, call) :: acts.map actOf

theorem Latest.act {call : Happening F} {acts : List (World F Item × Act F Item)}
    (h : Latest es v call acts) : Latest (es ++ [actOf (w, a)]) v call (acts ++ [(w, a)]) where
  isCall := h.isCall
  split := by
    obtain ⟨past, rfl⟩ := h.split
    exact ⟨past, by simp⟩

theorem latest_call {call : Happening F} (h : call.IsCall) : Latest (es ++ [(w, call)]) w call [] :=
  ⟨h, es, rfl⟩

/-- What the visits of a document keep: there is one popup, which is as the latest call left it. -/
structure Attended (s : Setup F Item) (es : List (World F Item × Happening F)) (w : World F Item) :
    Prop where
  orderly : Orderly w
  body : body < w.scene.tree.next
  given : ∀ e ∈ es, ∀ p, e.1.scene.popup = some p → p < w.scene.tree.next
  one : ∀ e ∈ es, ∀ p, e.1.scene.popup = some p → w.scene.tree.contains p → w.scene.popup = some p
  latest : ∀ p, w.scene.popup = some p → ∃ v call acts, Latest es v call acts ∧
    Veiled (call.shown v s).isNone w.scene.tree p ∧ Occupied acts p ((call.shown v s).getD []) w ∧
    (acts = [] → ∀ b ∈ (call.shown v s).getD [], b.place ∈ w.scene.tree.children p)
  whole : Whole (Interrupted es) w

namespace Attended

theorem start (registry : Registry F) {tree : Tree Item} (h : tree.Linked)
    (hfull : ∀ x, ∀ c ∈ tree.children x, tree.contains c) (hbody : Html.body < tree.next) :
    Attended s [] (start registry tree) where
  orderly := .start registry h
  body := hbody
  given _ he := nomatch he
  one _ he := nomatch he
  latest _ hp := absurd hp.symm (Option.some_ne_none _)
  whole := .start registry fun x c hc => .inl (hfull x c hc)

theorem ready (h : Attended s es w) : PopupReady w where
  orderly := h.orderly
  body := h.body
  element p hp := by
    obtain ⟨_, _, _, _, ⟨item, hitem, helement, _⟩, _⟩ := h.latest p hp
    exact ⟨item, hitem, helement⟩
  unheld p hp := by
    obtain ⟨_, _, _, _, _, hoccupied, _⟩ := h.latest p hp
    exact hoccupied.unheld

/-- Every popup there has been was given out, and is the popup as long as it is there. -/
theorem past (h : Attended s es w) {e : Happening F} (hfades : Tree.Fades w.scene.tree w'.scene.tree)
    (hkept : ∀ p, w.scene.popup = some p → w'.scene.tree.contains p → w'.scene.popup = some p) :
    ∀ d ∈ es ++ [(w, e)], ∀ p, d.1.scene.popup = some p →
      p < w'.scene.tree.next ∧ (w'.scene.tree.contains p → w'.scene.popup = some p) := by
  intro d hd p hp
  have hpast : p < w.scene.tree.next ∧ (w.scene.tree.contains p → w.scene.popup = some p) := by
    rcases List.mem_append.mp hd with hd | hd
    · exact ⟨h.given d hd p hp, h.one d hd p hp⟩
    · obtain rfl := List.mem_singleton.mp hd
      exact ⟨h.orderly.sound.linked.live_lt (h.ready.element.lives p hp), fun _ => hp⟩
  exact ⟨Nat.lt_of_lt_of_le hpast.1 hfades.next_le,
    fun hl => hkept p (hpast.2 (hfades.live hpast.1 hl)) hl⟩

theorem call (h : Attended s es w) {call : Happening F} (hcall : call.IsCall)
    (hrun : call.run w s = some w') : Attended s (es ++ [(w, call)]) w' := by
  have hcalled := h.ready.called hcall hrun
  have hpast := h.past (e := call) hcalled.fades fun p hp _ => hcalled.kept p hp
  refine {
    orderly := hcalled.orderly
    body := Nat.lt_of_lt_of_le h.body hcalled.fades.next_le
    given := fun d hd p hp => (hpast d hd p hp).1
    one := fun d hd p hp => (hpast d hd p hp).2
    latest := ?latest, whole := ?whole }
  case latest =>
    exact fun p hp => ⟨w, call, [], latest_call hcall, hcalled.veiled p hp, hcalled.occupied p hp,
      fun _ => hcalled.listed p hp⟩
  case whole =>
    refine (hcalled.whole h.whole).mono ?_
    exact fun n ⟨v, a, hm, hn⟩ => ⟨v, a, List.mem_append_left _ hm, hn⟩

theorem act (h : Attended s es w) (hspares : (Happening.act a).SparesPopup w)
    (hact : w.act s a = some w') : Attended s (es ++ [actOf (w, a)]) w' := by
  obtain ⟨hset, hknown, havoids⟩ := hspares
  have hs := h.orderly.sound
  have hframe := World.frame_of_act hs hknown.1 hact
  have hkeeps := World.keepsPopup_of_act hs h.ready.element.lives hknown.1 hset hact
  have hpast := h.past (e := .act a) hframe.fades fun p hp hl => hkeeps.popup.mpr ⟨hp, hl⟩
  refine {
    orderly := h.orderly.act_of_containers hknown.1 hknown.2 hact
    body := Nat.lt_of_lt_of_le h.body hframe.fades.next_le
    given := fun d hd p hp => (hpast d hd p hp).1
    one := fun d hd p hp => (hpast d hd p hp).2
    latest := ?latest, whole := ?whole }
  case latest =>
    intro p hp
    obtain ⟨hp, hl⟩ := hkeeps.popup.mp hp
    obtain ⟨v, call, acts, hlatest, ⟨item, hitem, hveiled⟩, hoccupied, _⟩ := h.latest p hp
    refine ⟨v, call, _, hlatest.act, ⟨item, ?_, hveiled⟩, hoccupied.act hknown (havoids p hp) hact hl,
      fun hacts => absurd hacts (List.append_ne_nil_of_right_ne_nil _ (List.cons_ne_nil _ _))⟩
    -- The popup is hidden or not as before: it is not changed, and is no output and no place of a run.
    refine (hframe.item hoccupied.given hl ?_).trans hitem
    rintro (hmark | ⟨t, r, ⟨ht, hwork, _⟩, ho⟩ | ⟨t, r, o, ⟨⟨ht, hwork, _⟩, _⟩, rfl⟩)
    · exact ((havoids p hp).2 p hmark).1 rfl
    · exact World.not_output_of_unheld hoccupied.unheld ht (hwork ▸ ho)
    · exact hoccupied.unheld t ht (World.mem_holds_of_place (hwork ▸ List.mem_cons_self))
  case whole =>
    have hwhole : Whole (Interrupted (es ++ [actOf (w, a)])) w :=
      h.whole.mono fun n ⟨v, a, hm, hn⟩ => ⟨v, a, List.mem_append_left _ hm, hn⟩
    exact hwhole.act hs hknown.1 (fun n hn => ⟨w, a, List.mem_append_right _ List.mem_cons_self, hn⟩) hact

end Attended

end Montage.Html
