import Montage.Proofs.Render.Frames
import Montage.Proofs.Render.Shifts

/-!
Places in outputs. As long as nobody but its own run works on an output, a run waits for all places that
are held in its output. Main statements: every act keeps this, and a run that completes puts no place in
another's list.
-/

namespace Montage

variable {F α : Type} [Medium α]

/-- Handles are used only once they were given out, and nobody but its own run works on an output. -/
def Act.IsProper (w : World F α) (a : Act F α) : Prop :=
  a.Known w.scene.tree.next ∧ a.SparesOutputs w

instance (w : World F α) (a : Act F α) : Decidable (a.IsProper w) :=
  inferInstanceAs (Decidable (a.Known w.scene.tree.next ∧ a.SparesOutputs w))

namespace World

/-- A sound renderer in which a task waits for every place in the node it paints into. -/
structure Orderly (w : World F α) : Prop where
  sound : Sound w
  nested : ∀ {t u o p}, t ∈ w.tasks → u ∈ w.tasks → u.work.output? = some o →
    p ∈ t.work.places → w.scene.tree.parent? p = some o → u.id ∈ t.owners

variable {s : Setup F α} {w w' : World F α} {a : Act F α} {t u v : Task F α} {r : Run F α}
  {n o p q : NodeId}

/-- A run that takes a step waits for none. -/
theorem alone_of_steps (h : a.Steps w t r) (hact : w.act s a = some w') :
    w.hasChildren t.id = false := by
  obtain ⟨_, _, rfl⟩ := h
  obtain ⟨_, _, _, hc, _⟩ := turn_of_step hact
  exact hc

theorem tasks_openCall (w : World F α) :
    (w.openCall [] []).1.tasks = w.tasks ++ [⟨w.nextTask, [], false, .errands []⟩] :=
  insertBefore_nil ..

namespace Orderly

theorem start (registry : Registry F) {tree : Tree α} (h : tree.Linked) :
    Orderly (World.start registry tree) where
  sound := .start registry h
  nested ht := nomatch ht

/-- An output that is done and brings no place with it. -/
theorem place_not_placed (h : Orderly w) (ht : t ∈ w.tasks) (hc : w.hasChildren t.id = false)
    (hn : t.work.output? = some n) (hv : v ∈ w.tasks) (hp : p ∈ v.work.places)
    (hl : w.scene.tree.contains p) : p ∉ w.scene.placed n := by
  intro hm
  rcases Scene.placed_cases hm with ⟨_, hm⟩ | rfl
  · have hparent := h.sound.linked.link hm hl
    exact h.sound.roster.not_owner hc hv (h.nested hv ht hn hp hparent)
  · have := h.sound.held_one ht hv (mem_holds_of_output hn) (mem_holds_of_place hp)
    subst this
    obtain ⟨r, hr, _⟩ := Work.run_of_output hn
    rw [hr] at hn hp
    exact Nat.ne_of_gt (h.sound.younger ht hr hn) (List.mem_singleton.mp hp)

/-- Changes of the scene that move no node. -/
theorem rescene (h : Orderly w) (sc : Scene F α) (hs : Tree.Steady w.scene.tree sc.tree)
    (hc : ∀ {n c}, sc.clicks.get? n = some c →
      w.scene.clicks.get? n = some c ∨ ∀ e ∈ c.errands, e.Known sc.tree.next) :
    Orderly { w with scene := sc } where
  sound := h.sound.rescene sc hs hc
  nested ht hu ho hp hq :=
    h.nested ht hu ho hp ((hs.parent (h.sound.place_lt ht hp) (Tree.live_of_parent hq)).symm.trans hq)

/-- A call with nothing to do is entered. -/
theorem entered (h : Orderly w) : Orderly (w.openCall [] []).1 where
  sound := h.sound.opened [] (by simp) (by simp) (by simp) (by simp)
  nested {t u o p} ht hu ho hp hq := by
    rw [tasks_openCall, List.mem_append, List.mem_singleton] at ht hu
    rcases ht with ht | rfl
    · rcases hu with hu | rfl
      · exact h.nested ht hu ho hp hq
      · cases ho
    · cases hp

variable [LawfulMedium α]

/-- A place that is held stays where it is. -/
theorem parent_back (h : Orderly w) (ha : a.Known w.scene.tree.next) (hact : w.act s a = some w')
    (hv : v ∈ w.tasks) (hp : p ∈ v.work.places) (hq : w'.scene.tree.parent? p = some q) :
    w.scene.tree.parent? p = some q := by
  have hframe := frame_of_act h.sound ha hact
  have hlt := h.sound.place_lt hv hp
  have hl := Tree.live_of_parent hq
  rw [← hframe.parent hlt hl, hq]
  rintro ⟨t, r, n, ⟨hstep, _⟩, hn, hm⟩
  obtain ⟨ht, hwork, _⟩ := id hstep
  have hn : t.work.output? = some n := hwork ▸ hn
  have halone := alone_of_steps hstep hact
  exact h.place_not_placed ht halone hn hv hp (hframe.fades.live hlt hl) hm

/-- It is enough that an act puts nothing in an output. -/
theorem act_of_containers (h : Orderly w) (ha : a.Known w.scene.tree.next)
    (hspares : ∀ n ∈ a.containers w, ∀ t ∈ w.tasks, t.work.output? ≠ some n)
    (hact : w.act s a = some w') : Orderly w' where
  sound := h.sound.act ha hact
  nested {t u o p} ht hu ho hpl hparent := by
    have hshift := shift_of_act h.sound ha hact
    rcases hshift.output h.sound.roster hu ho with ⟨v, hv, hvid, _, hvo⟩ | ⟨rfl, _, ⟨shape, scene⟩, _⟩
    · rw [← hvid]
      rcases hshift.origin h.sound.roster ht with ⟨t₀, ht₀, _, howners, _, hsub⟩ | ⟨_, _, hsub⟩
      · rw [← howners]
        exact h.nested ht₀ hv hvo (hsub p hpl) (h.parent_back ha hact ht₀ (hsub p hpl) hparent)
      · rcases hsub p hpl with ⟨t₀, ht₀, _, hp₀, howners⟩ | ⟨_, hin⟩
        · rw [howners]
          refine List.mem_cons_of_mem _ (h.nested ht₀ hv hvo hp₀ ?_)
          exact h.parent_back ha hact ht₀ hp₀ hparent
        · rcases hin with ⟨_, _, _, _, hcontainer⟩ | ⟨v', hv', r, _, hwork, howners, hvo'⟩
          · exact absurd hvo (hspares o (hcontainer o hparent) v hv)
          · rw [howners, h.sound.output_inj hv hv' hvo (hwork ▸ (hvo' o hparent).1)]
            exact List.mem_cons_self
    · rw [scene] at hparent
      exact absurd hparent h.sound.linked.not_below_next

theorem act (h : Orderly w) (hp : a.IsProper w) (hact : w.act s a = some w') : Orderly w' :=
  h.act_of_containers hp.1 (fun n hn => hp.2 n (List.mem_append_left _ (List.mem_append_left _ hn))) hact

/-- Whatever happens properly to a renderer, it stays orderly. -/
theorem history {u : World F α} {es : List (World F α × Act F α)}
    {P : World F α → Act F α → Prop} (h : History s P u es w) (hu : Orderly u)
    (hP : ∀ v a, P v a → a.IsProper v) : Orderly w :=
  h.invariant hu fun v a _ hv ok next => hv.act (hP v a ok) next

end Orderly

end World

end Montage
