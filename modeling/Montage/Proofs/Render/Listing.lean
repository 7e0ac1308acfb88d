import Montage.Proofs.Render.Frames
import Montage.Proofs.Render.Shifts

/-!
What is listed as children. Main statement: every node that is listed is there, unless it is an output that
was discarded while its run painted into it.
-/

namespace Montage

variable {F α : Type} [Medium α]

/-- Discards an output while its run paints into it. -/
def Act.Interrupts (w : World F α) (n : NodeId) (a : Act F α) : Prop :=
  n ∈ a.discarded w ∧ ∃ t ∈ w.tasks, t.work.output? = some n

namespace World

/-- Outputs and whatever is listed are there, but for some that are gone. -/
structure Whole (gone : NodeId → Prop) (w : World F α) : Prop where
  full : w.scene.tree.FullBut gone
  outputs : ∀ t ∈ w.tasks, ∀ o, t.work.output? = some o → w.scene.tree.contains o ∨ gone o

variable {s : Setup F α} {w w' : World F α} {a : Act F α} {gone gone' : NodeId → Prop}

theorem Whole.start (registry : Registry F) {tree : Tree α} (h : tree.FullBut gone) :
    Whole gone (World.start registry tree) where
  full := h
  outputs _ ht := nomatch ht

theorem Whole.mono (h : Whole gone w) (hgone : ∀ n, gone n → gone' n) : Whole gone' w where
  full x c hc := (h.full x c hc).imp_right (hgone c)
  outputs t ht o ho := (h.outputs t ht o ho).imp_right (hgone o)

/-- Changes of the scene that take away no root. -/
theorem Whole.rescene (hw : Whole gone w) (h : Sound w) {sc : Scene F α}
    (hs : Tree.Steady w.scene.tree sc.tree)
    (hroots : ∀ x, w.scene.tree.contains x → w.scene.tree.parent? x = none → sc.tree.contains x) :
    Whole gone { w with scene := sc } where
  full := hs.full hw.full
  outputs t ht o ho := (hw.outputs t ht o ho).imp_left fun hl => hroots o hl (h.output_root ht ho)

variable [LawfulMedium α]

theorem Deed.full (h : Sound w) (hw : Whole gone w) (hd : Deed s w w' a) :
    w'.scene.tree.FullBut gone := by
  cases hd with
  | mild mild quiet => exact mild.steady.full hw.full
  | @fails t r sc e offending o mem alone work before wrong scene settled =>
    obtain ⟨hmild, _, hf⟩ := filled_of_fails h mem work before e offending
    exact scene ▸ hf.full (hmild.steady.full hw.full)
  | @completes t r n p mem alone work output scene settled =>
    exact scene ▸ (finished_of_completes h mem work output _ _).full hw.full
      (hw.outputs t mem n (work ▸ output))

/-- An output under way goes only when it is discarded. -/
theorem output_stays (h : Sound w) (ha : a.Known w.scene.tree.next) (hact : w.act s a = some w')
    {t u : Task F α} {o : NodeId} (ht : t ∈ w.tasks) (ho : t.work.output? = some o) (hu : u ∈ w'.tasks)
    (hid : t.id = u.id) (hl : w.scene.tree.contains o) :
    w'.scene.tree.contains o ∨ a.Interrupts w o := by
  refine or_iff_not_imp_left.mpr fun hd => ?_
  obtain ⟨n, hroot, hn⟩ := (frame_of_act h ha hact).gone hl hd
  have hon : n = o := by
    rcases hn with rfl | ⟨hn, _⟩
    · rfl
    · exact hn.eq_of_no_parent (h.output_root ht ho)
  subst hon
  rcases hroot with hm | ⟨v, r, e, ⟨⟨hv, hwork, _⟩, settled⟩, _, hp | hvo⟩
  · exact ⟨hm, t, ht, ho⟩
  · have hplace : n ∈ v.work.places := hwork ▸ hp ▸ List.mem_cons_self
    obtain rfl := h.held_one hv ht (mem_holds_of_place hplace) (mem_holds_of_output ho)
    rw [hwork] at ho
    exact absurd hp (Nat.ne_of_lt (h.younger hv hwork ho))
  · obtain rfl := h.output_inj hv ht (hwork ▸ hvo) ho
    exact absurd hid.symm (settled.ne_of_mem hu)

/-- Only an output that is discarded is listed when it is gone. -/
theorem Whole.act (hw : Whole gone w) (h : Sound w) (ha : a.Known w.scene.tree.next)
    (hgone : ∀ n, a.Interrupts w n → gone n) (hact : w.act s a = some w') : Whole gone w' where
  full := (deed_of_act h ha hact).full h hw
  outputs u hu o ho := by
    rcases (shift_of_act h ha hact).output h.roster hu ho with
      ⟨t, ht, hid, _, hto⟩ | ⟨rfl, _, ⟨shape, hscene⟩, _⟩
    · rcases hw.outputs t ht o hto with hl | hg
      · exact (output_stays h ha hact ht hto hu hid hl).imp_right (hgone o)
      · exact .inr hg
    · rw [hscene]
      exact .inl (Tree.contains_create.mpr (.inr rfl))

end World

end Montage
