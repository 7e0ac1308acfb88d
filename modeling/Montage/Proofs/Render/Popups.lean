import Montage.Proofs.Render.Labels

/-!
The popup of a renderer. Main statement: an act that does not set the popup keeps the one there is, unless
it takes its node away, and then there is none.
-/

namespace Montage

variable {F α : Type}

namespace Scene

variable {s s' s'' : Scene F α} {p : NodeId}

/-- The node of the popup is there. -/
def PopupLives (s : Scene F α) : Prop :=
  ∀ p, s.popup = some p → s.tree.contains p

/-- The popup stays as long as its node does, and there is no other. -/
structure KeepsPopup (s s' : Scene F α) : Prop where
  popup : ∀ {p}, s'.popup = some p ↔ s.popup = some p ∧ s'.tree.contains p

theorem Keeps.popup (h : Keeps .popup s s') : KeepsPopup s s' := ⟨h.borne⟩

namespace KeepsPopup

theorem lives (h : KeepsPopup s s') : s'.PopupLives :=
  fun _ hp => (h.popup.mp hp).2

/-- Nothing is taken away. -/
theorem of_same (h : s.PopupLives) (hp : s'.popup = s.popup)
    (hl : ∀ x, s.tree.contains x → s'.tree.contains x) : KeepsPopup s s' where
  popup {p} := by
    rw [hp]
    exact ⟨fun hq => ⟨hq, hl p (h p hq)⟩, And.left⟩

theorem trans (h : KeepsPopup s s') (h' : KeepsPopup s' s'')
    (hback : ∀ p, s.popup = some p → s''.tree.contains p → s'.tree.contains p) :
    KeepsPopup s s'' where
  popup {p} := by
    rw [h'.popup, h.popup, and_assoc]
    exact and_congr_right fun hp => ⟨And.right, fun hl => ⟨hback p hp hl, hl⟩⟩

end KeepsPopup

theorem keepsPopup_discard (h : s.PopupLives) (n : NodeId) : KeepsPopup s (s.discard n) :=
  (keeps_discard (l := .popup) h n).popup

end Scene

variable [Medium α]

namespace World

variable {s : Setup F α} {w w' : World F α} {a : Act F α} {d : NodeId}

theorem popup_takeUpAll (around : Surroundings) (cs : List (Config F)) :
    (w.takeUpAll d around cs).1.scene.popup = w.scene.popup :=
  (sameLabels_takeUpAll w d around cs).popup

variable [LawfulMedium α]

/-- Every act that does not set the popup keeps it, as long as its node is there. -/
theorem keepsPopup_of_act (h : Sound w) (hp : w.scene.PopupLives) (ha : a.Known w.scene.tree.next)
    (hpopup : a.setsPopup = false) (hact : w.act s a = some w') :
    Scene.KeepsPopup w.scene w'.scene := by
  cases labels_of_act h ha hact with
  | kept quiet keeps => exact (keeps .popup hp fun _ => hpopup).popup
  | @completes t r o p mem work output ready scene settled keeps =>
    refine ⟨fun {x} => (keeps .popup hp).borne.trans (and_congr_left fun _ => ?_)⟩
    rw [Scene.Bears, Scene.popup_decorate]

end World

end Montage
