import Montage.Proofs.Render.Courses
import Montage.Proofs.Render.Showing

/-!
Where renderings hold their places. Main statement: as long as renderings that were begun in a container
are carried on, every place that is held stands as it was reserved, in the container or in an output.
-/

namespace Montage

variable {F α : Type} [Medium α]

namespace World

/-- All places and outputs are younger than the container, and the places stand in it or in an output,
as they were reserved. -/
structure Confined (d : NodeId) (w : World F α) : Prop where
  given : d < w.scene.tree.next
  young : ∀ {t x}, t ∈ w.tasks → x ∈ t.work.holds → d < x
  home : ∀ {t p q}, t ∈ w.tasks → p ∈ t.work.places → w.scene.tree.parent? p = some q →
    q = d ∨ ∃ u ∈ w.tasks, u.work.output? = some q
  bare : ∀ {t p}, t ∈ w.tasks → p ∈ t.work.places →
    w.scene.tree.get? p = some Medium.reserved ∧ w.scene.tree.children p = []

variable {s : Setup F α} {registry : Registry F} {c : Clock} {w w' : World F α} {t u : Task F α}
  {a : Act F α} {d o p q x : NodeId}

/-- No place is an output. -/
theorem Sound.place_not_output (h : Sound w) (ht : t ∈ w.tasks) (hu : u ∈ w.tasks)
    (hp : p ∈ u.work.places) : t.work.output? ≠ some p := by
  intro ho
  obtain rfl := h.held_one ht hu (mem_holds_of_output ho) (mem_holds_of_place hp)
  have hnodup := h.held_once ht
  rw [Work.holds, List.nodup_append] at hnodup
  exact hnodup.2.2 p hp p (by rw [ho]; exact List.mem_cons_self) rfl

theorem mem_of_dropped (htasks : w'.tasks = w.tasks.filter (·.id != t.id)) (hu : u ∈ w'.tasks) :
    u ∈ w.tasks ∧ t ≠ u := by
  rw [htasks] at hu
  obtain ⟨hu, hid⟩ := List.mem_filter.mp hu
  exact ⟨hu, fun he => bne_iff_ne.mp hid (he ▸ rfl)⟩

namespace Confined

variable (h : Confined d w) (hw : Orderly w)
include h hw

/-- No place stands under the output of a task that waits for no other. -/
theorem not_under (ht : t ∈ w.tasks) (hc : w.hasChildren t.id = false)
    (ho : t.work.output? = some o) (hu : u ∈ w.tasks) (hp : p ∈ u.work.places) :
    ¬w.scene.tree.Under o p := by
  intro hup
  rcases hup.cases_parent with rfl | ⟨q, hq, hoq⟩
  · exact hw.sound.place_not_output ht hu hp ho
  · rcases h.home hu hp hq with rfl | ⟨v, hv, hvo⟩
    · exact Nat.not_lt.mpr (hw.sound.linked.le_of_under hoq) (h.young ht (mem_holds_of_output ho))
    · obtain rfl := hoq.eq_of_no_parent (hw.sound.output_root hv hvo)
      obtain rfl := hw.sound.output_inj ht hv ho hvo
      exact hw.sound.roster.not_owner hc hu (hw.nested hu ht ho hp hq)

variable [LawfulMedium α]

/-- The places of other tasks stay as they are when a task takes a step. -/
theorem bare_step (hcourse : Course registry c w) (hact : w.act s (.step t.id) = some w')
    (ht : t ∈ w.tasks) (hc : w.hasChildren t.id = false) (hu : u ∈ w.tasks) (hne : t ≠ u)
    (hp : p ∈ u.work.places) :
    w'.scene.tree.get? p = some Medium.reserved ∧ w'.scene.tree.children p = [] := by
  obtain ⟨hitem, hkids⟩ := h.bare hu hp
  have hlt := hw.sound.place_lt hu hp
  have hframe := frame_of_act hw.sound (a := .step t.id) trivial hact
  have htargets := hcourse.targets (a := .step t.id) (s := s) trivial
  simp only [Act.targets, List.append_eq_nil_iff] at htargets
  obtain ⟨⟨hcontainers, hdiscarded⟩, _⟩ := htargets
  have hown : ∀ {v r}, (Act.step t.id).Steps w v r → v = t ∧ t.work = .run r := by
    rintro v r ⟨hv, hwork, hid⟩
    obtain rfl := hw.sound.roster.id_inj hv ht (Act.step.inj hid).symm
    exact ⟨rfl, hwork⟩
  have hplace : ∀ {r}, t.work = .run r → r.place ≠ p := by
    rintro r hwork rfl
    refine hne (hw.sound.held_one ht hu (mem_holds_of_place ?_) (mem_holds_of_place hp))
    rw [hwork]
    exact List.mem_cons_self
  have houtput : ∀ {r}, t.work = .run r → r.output? ≠ some p := fun hwork ho =>
    hw.sound.place_not_output ht hu hp (hwork ▸ ho)
  have hlive : w'.scene.tree.contains p := by
    refine Classical.byContradiction fun hgone => ?_
    obtain ⟨n, hroot, hn⟩ := hframe.gone (Tree.get?_eq_some_live hitem) hgone
    have hunder : w.scene.tree.Under n p := hn.elim (fun he => he ▸ .self) And.left
    rcases hroot with hm | ⟨v, r, o, ⟨hsteps, _⟩, _, hr⟩
    · rw [hdiscarded] at hm
      cases hm
    · obtain ⟨rfl, hwork⟩ := hown hsteps
      rcases hr with rfl | ho
      · have hbare := (h.bare ht (p := r.place) (by rw [hwork]; exact List.mem_cons_self)).2
        exact hplace hwork (hw.sound.linked.eq_of_bare hbare hunder)
      · exact h.not_under hw ht hc (hwork ▸ ho) hu hp hunder
  constructor
  · rw [hframe.item hlt hlive, hitem]
    rintro (hm | ⟨v, r, hsteps, ho⟩ | ⟨v, r, o, ⟨hsteps, _⟩, rfl⟩)
    · cases hm
    · exact houtput (hown hsteps).2 ho
    · exact hplace (hown hsteps).2 rfl
  · rw [hframe.children hlt hlive, hkids]
    rintro (hm | ⟨n, hm, _⟩ | ⟨v, r, hsteps, ho, _⟩ | ⟨v, r, o, ⟨hsteps, _⟩, _, hparent⟩)
    · rw [hcontainers] at hm
      cases hm
    · rw [hdiscarded] at hm
      cases hm
    · exact houtput (hown hsteps).2 ho
    · have hm := hw.sound.linked.listed hparent
      rw [hkids] at hm
      cases hm

/-- A task goes on. -/
theorem goes {work : Work F α} {works : List (Work F α)}
    {draw : List (Rose α) → List (Rose α) → List (Rose α)}
    (hact : w.act s (.step t.id) = some w') (ht : t ∈ w.tasks) (hm : Moved w t work works w')
    (hdraws : Draws w.scene w'.scene t.work work works draw) (hcarries : Carries t.work work works) :
    Confined d w' := by
  obtain ⟨e, hgrown, he⟩ := hdraws.grown hw.sound.linked
  obtain ⟨hkept, hnew⟩ := hdraws.output
  have hr := hw.sound.roster
  -- What was held before is held as before.
  have hhome : ∀ {u p q}, u ∈ w.tasks → p ∈ u.work.places → w'.scene.tree.parent? p = some q →
      q = d ∨ ∃ v ∈ w'.tasks, v.work.output? = some q := by
    intro u p q hu hp hq
    refine (h.home hu hp (hw.parent_back (a := .step t.id) trivial hact hu hp hq)).imp_right ?_
    rintro ⟨v, hv, hvo⟩
    by_cases hid : v.id = t.id
    · obtain rfl := hr.id_inj hv ht hid
      exact ⟨_, (hm.mem hr hv).mpr (.inr (.inl rfl)), hkept q hvo⟩
    · exact ⟨v, (hm.mem hr ht).mpr (.inl ⟨hv, hid⟩), hvo⟩
  have hbare : ∀ {u p}, u ∈ w.tasks → p ∈ u.work.places →
      w'.scene.tree.get? p = some Medium.reserved ∧ w'.scene.tree.children p = [] := by
    intro u p hu hp
    have hlt := hw.sound.place_lt hu hp
    have hne : e ≠ some p := fun hep => hw.sound.place_not_output ht hu hp (he p hep)
    rw [hgrown.item hlt hne, hgrown.children hlt hne]
    exact h.bare hu hp
  have hplace : ∀ {u p}, u ∈ w'.tasks → p ∈ u.work.places →
      (∃ v ∈ w.tasks, p ∈ v.work.places) ∨ p ∈ works.flatMap Work.places := by
    intro u p hu hp
    rcases (hm.mem hr ht).mp hu with ⟨hu, _⟩ | rfl | hu
    · exact .inl ⟨u, hu, hp⟩
    · exact .inl ⟨t, ht, hcarries.places hp⟩
    · obtain ⟨i, hi, _⟩ := mem_number.mp hu
      exact .inr (List.mem_flatMap.mpr ⟨u.work, List.mem_of_getElem? hi, hp⟩)
  have hyoung : ∀ {p}, (∃ v ∈ w.tasks, p ∈ v.work.places) ∨ p ∈ works.flatMap Work.places →
      d < p := by
    rintro p (⟨v, hv, hp⟩ | hp)
    · exact h.young hv (mem_holds_of_place hp)
    · rcases hdraws.new_places hp with hp | ⟨hge, _⟩
      · exact h.young ht (mem_holds_of_place hp)
      · exact Nat.lt_of_lt_of_le h.given hge
  constructor
  case given => exact Nat.lt_of_lt_of_le h.given hgrown.next_le
  case young =>
    intro u x hu hx
    rcases List.mem_append.mp hx with hp | ho
    · exact hyoung (hplace hu hp)
    · have ho : u.work.output? = some x := Option.mem_toList.mp ho
      rcases (hm.mem hr ht).mp hu with ⟨hu, _⟩ | rfl | hu
      · exact h.young hu (mem_holds_of_output ho)
      · rcases hnew x ho with ho | rfl
        · exact h.young ht (mem_holds_of_output ho)
        · exact h.given
      · obtain ⟨i, hi, _⟩ := mem_number.mp hu
        rw [(hcarries.fresh _ (List.mem_of_getElem? hi)).1] at ho
        cases ho
  case home =>
    intro u p q hu hp hq
    rcases hplace hu hp with ⟨v, hv, hp⟩ | hp
    · exact hhome hv hp hq
    · rcases hdraws.new_places hp with hp | ⟨_, _, _, hparent⟩
      · exact hhome ht hp hq
      · exact .inr ⟨_, (hm.mem hr ht).mpr (.inr (.inl rfl)), hparent q hq⟩
  case bare =>
    intro u p hu hp
    rcases hplace hu hp with ⟨v, hv, hp⟩ | hp
    · exact hbare hv hp
    · rcases hdraws.new_places hp with hp | ⟨_, hitem, hkids, _⟩
      · exact hbare ht hp
      · exact ⟨hitem, hkids⟩

/-- A task ends. -/
theorem ends (hcourse : Course registry c w) (hact : w.act s (.step t.id) = some w')
    (ht : t ∈ w.tasks) (hc : w.hasChildren t.id = false)
    (htasks : w'.tasks = w.tasks.filter (·.id != t.id)) : Confined d w' := by
  constructor
  case given =>
    have hframe := frame_of_act hw.sound (a := .step t.id) trivial hact
    exact Nat.lt_of_lt_of_le h.given hframe.fades.next_le
  case young => exact fun hu hx => h.young (mem_of_dropped htasks hu).1 hx
  case home =>
    intro u p q hu hp hq
    have hu := (mem_of_dropped htasks hu).1
    have hq := hw.parent_back (a := .step t.id) trivial hact hu hp hq
    refine (h.home hu hp hq).imp_right ?_
    rintro ⟨v, hv, hvo⟩
    refine ⟨v, ?_, hvo⟩
    rw [htasks]
    refine List.mem_filter.mpr ⟨hv, bne_iff_ne.mpr fun hid => ?_⟩
    obtain rfl := hw.sound.roster.id_inj hv ht hid
    exact hw.sound.roster.not_owner hc hu (hw.nested hu hv hvo hp hq)
  case bare =>
    intro u p hu hp
    obtain ⟨hu, hne⟩ := mem_of_dropped htasks hu
    exact h.bare_step hw hcourse hact ht hc hu hne hp

omit hw in
/-- Whatever is carried on, the places stay where they are. -/
theorem act (hcourse : Course registry c w) (ha : a.Keeps s c w) (hact : w.act s a = some w') :
    Confined d w' := by
  have hsame : Stays w w' → Confined d w' := fun hs =>
    ⟨hs.scene ▸ h.given, fun hu => h.young ((hs.mem _).mp hu), fun hu hp hq => by
      obtain hq | ⟨v, hv, hvo⟩ := h.home ((hs.mem _).mp hu) hp (hs.scene ▸ hq)
      · exact .inl hq
      · exact .inr ⟨v, (hs.mem v).mpr hv, hvo⟩,
      fun hu hp => hs.scene ▸ h.bare ((hs.mem _).mp hu) hp⟩
  cases hcourse.proceeds ha hact with
  | stays other stays registry fits epoch => exact hsame stays
  | opens other stays registry fits stalled epoch told => exact hsame stays
  | steps mem alone works =>
    cases works with
    | goes work works draw turn moved draws carries house =>
      exact h.goes hcourse.orderly hact mem moved draws carries
    | ends outcome left turn tasks next outcomes finished leaves house =>
      exact h.ends hcourse.orderly hcourse hact mem alone tasks

end Confined

end World

end Montage
