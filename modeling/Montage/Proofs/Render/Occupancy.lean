import Montage.Proofs.Render.Seats

/-!
Containers of which some configs alone have the use. Main statement: as long as nobody else puts anything
there or changes what stands there, and whatever is discarded, each child of the container stands for one of
the configs.
-/

namespace Montage

open Json (Value)

variable {F α : Type} [Medium α]

/-- Handles are used only once they were given out, and no output is rendered into but by its own run. -/
def Act.IsOrderly (w : World F α) (a : Act F α) : Prop :=
  a.Known w.scene.tree.next ∧ ∀ n ∈ a.containers w, ∀ t ∈ w.tasks, t.work.output? ≠ some n

instance (w : World F α) (a : Act F α) : Decidable (a.IsOrderly w) :=
  inferInstanceAs (Decidable (a.Known w.scene.tree.next ∧
    ∀ n ∈ a.containers w, ∀ t ∈ w.tasks, t.work.output? ≠ some n))

/-- Renders nothing into a node, and does not change the node or what stands there. -/
def Act.Avoids (w : World F α) (c : NodeId) (a : Act F α) : Prop :=
  c ∉ a.containers w ∧ ∀ n ∈ a.marked, n ≠ c ∧ w.scene.tree.parent? n ≠ some c

instance (w : World F α) (c : NodeId) (a : Act F α) : Decidable (a.Avoids w c) :=
  inferInstanceAs (Decidable (c ∉ a.containers w ∧
    ∀ n ∈ a.marked, n ≠ c ∧ w.scene.tree.parent? n ≠ some c))

namespace World

variable {s : Setup F α} {es : List (World F α × Act F α)} {w w' : World F α} {a : Act F α}
  {t : Task F α} {r : Run F α} {bs : List (Booking F)} {b : Booking F} {c n p x : NodeId} {o : Outcome}

/-! What an act does to the children of a node. -/

/-- An act that discards a node does so first, and then puts others only in its containers. -/
theorem frame_of_discards (h : Sound w) (hact : w.act s a = some w') (hn : n ∈ a.discarded w) :
    Scene.Frame { list := (· ∈ a.containers w) } (w.scene.discard n) w'.scene := by
  cases a with
  | discard m =>
    obtain rfl := List.mem_singleton.mp hn
    cases hact
    exact .of_same rfl rfl
  | step id =>
    obtain ⟨t, ht, rfl, hc, _⟩ := turn_of_step hact
    have htask := h.roster.task? ht
    simp only [Act.discarded, htask, Option.map_some] at hn
    split at hn
    · rename_i wrapper d page all es hwork
      obtain rfl := List.mem_singleton.mp hn
      have hwork : t.work = .errands (.turn n d page all :: es) := Option.some.inj hwork
      have hscene : w'.scene = ((w.discard n).takeUpList s d page all).1.scene := by
        simp only [World.act, step, htask, hc, hwork, Bool.false_eq_true, ↓reduceIte, stepErrands] at hact
        cases hact
        rfl
      rw [hscene]
      refine (Scene.Frame.of_takesList (h.takesList_turn ht hwork s)).mono { list := fun x hx => ?_ }
      simpa [targets_turn h.roster ht hwork] using hx
    · cases hn
  | _ => cases hn

/-- A node that is discarded does not come back in the same act. -/
theorem dead_of_discarded (h : Sound w) (hact : w.act s a = some w') (hn : n ∈ a.discarded w)
    (hl : w.scene.tree.contains n) : ¬w'.scene.tree.contains n := fun hl' =>
  have hpruned := Tree.Pruned.remove h.linked n
  hpruned.gone ((frame_of_discards h hact hn).fades.live
    (Nat.lt_of_lt_of_le (h.linked.live_lt hl) hpruned.steady.next_le) hl')

variable [LawfulMedium α]

/-- In a node that an act does not render into, and that is no output, something new stands only if a run
ends whose place was there. -/
theorem children_of_act (h : Sound w) (ha : a.Known w.scene.tree.next) (hact : w.act s a = some w')
    (hcontainer : c ∉ a.containers w) (hout : ∀ t ∈ w.tasks, t.work.output? ≠ some c)
    (hc : c < w.scene.tree.next) (hl : w'.scene.tree.contains c) :
    (∃ t r o, a.Ends w w' t r o ∧ o ≠ .skipped ∧ w.scene.tree.parent? r.place = some c) ∨
      ∀ x ∈ w'.scene.tree.children c, x ∈ w.scene.tree.children c := by
  by_cases hlist : (a.reach w w').list c
  · rcases hlist with hm | ⟨n, hn, hnc⟩ | ⟨t, r, ⟨ht, hwork, _⟩, ho, _⟩ | ⟨t, r, o, he⟩
    · exact absurd hm hcontainer
    · have hpruned := Tree.Pruned.remove h.linked n
      have hframe := frame_of_discards h hact hn
      have hlt := Nat.lt_of_lt_of_le hc hpruned.steady.next_le
      refine .inr fun x hx => ?_
      rw [hframe.children hlt hl hcontainer] at hx
      have hx : x ∈ (w.scene.tree.remove n).1.children c := hx
      rw [hpruned.children (hframe.fades.live hlt hl), if_pos hnc] at hx
      exact List.mem_of_mem_filter hx
    · exact absurd (hwork ▸ ho) (hout t ht)
    · exact .inl ⟨t, r, o, he⟩
  · exact .inr fun x hx => (frame_of_act h ha hact).children hc hl hlist ▸ hx

/-- The place of a run that is not skipped goes when the run ends. -/
theorem place_gone_of_ends (h : Sound w) (ha : a.Known w.scene.tree.next)
    (hact : w.act s a = some w') (he : a.Ends w w' t r o) (ho : o ≠ .skipped)
    (hq : w.scene.tree.parent? r.place = some c) : ¬w'.scene.tree.contains r.place := by
  cases fillsPlace_of_ends h ha hact he ho hq with
  | failed wrong next live kids root spliced => exact fun hl => (spliced.live.mp hl).2.1 .self
  | rendered done output kids spliced => exact fun hl => (spliced.live.mp hl).2.1 .self

/-! All children together. -/

/-- What stands in a container stands for some configs, and the places there are those of their runs. -/
structure Occupied (es : List (World F α × Act F α)) (c : NodeId) (bs : List (Booking F))
    (w : World F α) : Prop where
  orderly : Orderly w
  given : c < w.scene.tree.next
  unheld : ∀ t ∈ w.tasks, c ∉ t.work.holds
  stands : ∀ {x}, w.scene.tree.parent? x = some c → ∃ b ∈ bs, ∃ l, Stands es w b l ∧ x ∈ l ∧
    ∀ t ∈ w.tasks, x ∈ t.work.places → t.id = b.task

omit [LawfulMedium α] in
theorem not_output_of_unheld (h : ∀ t ∈ w.tasks, c ∉ t.work.holds) (ht : t ∈ w.tasks) :
    t.work.output? ≠ some c :=
  fun ho => h t ht (mem_holds_of_output ho)

/-- A place in a container that is not rendered into was there before. -/
theorem place_back (h : Orderly w) (ha : a.Known w.scene.tree.next) (hact : w.act s a = some w')
    (hcontainer : c ∉ a.containers w) (hout : ∀ t ∈ w.tasks, t.work.output? ≠ some c)
    {u : Task F α} (hu : u ∈ w'.tasks) (hx : x ∈ u.work.places) (hq : w'.scene.tree.parent? x = some c) :
    ∃ v ∈ w.tasks, x ∈ v.work.places ∧ w.scene.tree.parent? x = some c ∧
      (v.id = u.id ∨ ¬v.work.IsRun) := by
  have hold : ∀ v ∈ w.tasks, x ∈ v.work.places → w.scene.tree.parent? x = some c :=
    fun v hv hxv => h.parent_back ha hact hv hxv hq
  rcases (shift_of_act h.sound ha hact).origin h.sound.roster hu with
    ⟨v, hv, hid, _, _, hpl⟩ | ⟨_, _, hpl⟩
  · exact ⟨v, hv, hpl x hx, hold v hv (hpl x hx), .inl hid⟩
  · rcases hpl x hx with
      ⟨v, hv, hidle, hxv, _⟩ | ⟨_, ⟨_, _, _, _, hin⟩ | ⟨v, hv, r, _, hwork, _, hin⟩⟩
    · exact ⟨v, hv, hxv, hold v hv hxv, .inr hidle⟩
    · exact absurd (hin c hq) hcontainer
    · exact absurd (hwork ▸ (hin c hq).1) (hout v hv)

namespace Occupied

omit [LawfulMedium α] in
/-- A place that is held in the container is that of a booked config. -/
theorem of_place (h : Occupied es c bs w) (ht : t ∈ w.tasks) (hx : x ∈ t.work.places)
    (hq : w.scene.tree.parent? x = some c) : ∃ b ∈ bs, b.task = t.id ∧ b.place = x ∧
      ∃ r, t.work = .run r ∧ r.place = x ∧ r.config = b.config ∧
        w.scene.tree.get? x = some Medium.reserved ∧
        w.scene.places.get? x = some ⟨b.config.viewName?, false⟩ := by
  obtain ⟨b, hb, l, hstands, hm, hown⟩ := h.stands hq
  have hid := hown t ht hx
  obtain ⟨r, hwork, hplace, hconfig, _, rfl, hitem, hheld⟩ := hstands.of_mem h.orderly.sound.roster ht hid
  obtain rfl := List.mem_singleton.mp hm
  exact ⟨b, hb, hid.symm, rfl, r, hwork, hplace, hconfig, hitem, hheld⟩

/-- A node that is new in the container was put there by the run of a booked config. -/
theorem stands_new (h : Occupied es c bs w) (ha : a.Known w.scene.tree.next) (havoids : a.Avoids w c)
    (hact : w.act s a = some w') (hl : w'.scene.tree.contains c)
    (hq : w'.scene.tree.parent? x = some c) (hne : w.scene.tree.parent? x ≠ some c) :
    ∃ b ∈ bs, ∃ l, Stands (es ++ [(w, a)]) w' b l ∧ x ∈ l := by
  have hs := h.orderly.sound
  have hlisted := (hs.act ha hact).linked.listed hq
  have hfades := (frame_of_act hs ha hact).fades
  have hnot : x ∉ w.scene.tree.children c := by
    refine fun hx => hne (hs.linked.link hx ?_)
    exact hfades.live (hs.linked.listed_lt hx) (Tree.live_of_parent hq)
  rcases children_of_act hs ha hact havoids.1 (fun _ => not_output_of_unheld h.unheld) h.given hl with
    ⟨t, r, o, he, ho, hp⟩ | hsub
  · obtain ⟨⟨ht, hwork, _⟩, _⟩ := id he
    have hplace : r.place ∈ t.work.places := hwork ▸ List.mem_cons_self
    obtain ⟨b, hb, hid, hbp, r', hwork', _, hconfig, _⟩ := h.of_place ht hplace hp
    rw [hwork] at hwork'
    cases hwork'
    have hends : ∃ l, Stands (es ++ [(w, a)]) w' b l ∧
        w'.scene.tree.children c = Tree.putAt r.place l (w.scene.tree.children c) :=
      stands_of_ends hs ha hact he ho hp hl hid.symm hbp.symm hconfig
    obtain ⟨l, hstands, hkids⟩ := hends
    rw [hkids] at hlisted
    exact ⟨b, hb, l, hstands, (Tree.mem_of_mem_putAt hlisted).resolve_right hnot⟩
  · exact absurd (hsub x hlisted) hnot

/-- A node that stays in the container stands for what it stood for. -/
theorem stands_old (h : Occupied es c bs w) (ha : a.Known w.scene.tree.next) (havoids : a.Avoids w c)
    (hact : w.act s a = some w') (hl : w'.scene.tree.contains c)
    (hq : w'.scene.tree.parent? x = some c) (hp : w.scene.tree.parent? x = some c) :
    ∃ b ∈ bs, ∃ l, Stands (es ++ [(w, a)]) w' b l ∧ x ∈ l ∧
      ∀ t ∈ w.tasks, x ∈ t.work.places → t.id = b.task := by
  have hs := h.orderly.sound
  obtain ⟨b, hb, l, hstands, hm, hown⟩ := h.stands hp
  by_cases hend : ∃ t r o, a.Ends w w' t r o ∧ r.place = x
  · obtain ⟨t, r, o, he, rfl⟩ := hend
    obtain ⟨⟨ht, hwork, _⟩, _⟩ := id he
    have ho : o = .skipped := Classical.byContradiction fun ho =>
      place_gone_of_ends hs ha hact he ho hp (Tree.live_of_parent hq)
    subst ho
    have hid := hown t ht (hwork ▸ List.mem_cons_self)
    obtain ⟨r', hwork', hplace, _, _, _, hitem, hheld⟩ := hstands.of_mem hs.roster ht hid
    rw [hwork] at hwork'
    cases hwork'
    exact ⟨b, hb, [b.place], stands_of_skips hs hact he hid hplace hitem hheld,
      List.mem_singleton.mpr hplace, hown⟩
  · have hself : ∀ {y}, l = [y] → x = y := fun hy => List.mem_singleton.mp (hy ▸ hm)
    refine ⟨b, hb, l, ?_, hm, hown⟩
    refine hstands.kept_of_single hs ha hact hl ?_ ?_ fun t r o he => ⟨fun hid => ?_, fun hr _ => ?_⟩
    · exact fun y hy => hself hy ▸ hs.linked.listed hp
    · intro y hy _ hmem
      rw [← hself hy] at hmem
      rcases List.mem_append.mp hmem with hd | hmark
      · exact dead_of_discarded hs hact hd (Tree.live_of_parent hp) (Tree.live_of_parent hq)
      · exact (havoids.2 x hmark).2 hp
    · obtain ⟨r', hwork, hplace, _, _, hone, _⟩ := hstands.of_mem hs.roster he.1.1 hid
      rw [he.1.2.1] at hwork
      cases hwork
      exact hend ⟨t, r, o, he, hplace.trans (hself hone).symm⟩
    · exact hend ⟨t, r, o, he, (hself hr).symm⟩

/-- Acts that avoid the container keep it to the configs it had, whatever they discard. -/
theorem act (h : Occupied es c bs w) (hp : a.IsOrderly w) (havoids : a.Avoids w c)
    (hact : w.act s a = some w') (hl : w'.scene.tree.contains c) :
    Occupied (es ++ [(w, a)]) c bs w' where
  orderly := h.orderly.act_of_containers hp.1 hp.2 hact
  given := Nat.lt_of_lt_of_le h.given (frame_of_act h.orderly.sound hp.1 hact).fades.next_le
  unheld := unheld_kept h.orderly.sound hp.1 hact h.given h.unheld
  stands {x} hq := by
    have hback := fun {u : Task F α} (hu : u ∈ w'.tasks) hx => place_back h.orderly hp.1 hact havoids.1
      (fun _ => not_output_of_unheld h.unheld) hu hx hq
    by_cases hold : w.scene.tree.parent? x = some c
    · obtain ⟨b, hb, l, hstands, hm, hown⟩ := h.stands_old hp.1 havoids hact hl hq hold
      refine ⟨b, hb, l, hstands, hm, fun u hu hx => ?_⟩
      obtain ⟨v, hv, hxv, _, hid⟩ := hback hu hx
      obtain ⟨_, _, _, _, r, hrun, _⟩ := h.of_place hv hxv hold
      exact (hid.resolve_right fun hidle => hidle ⟨r, hrun⟩).symm.trans (hown v hv hxv)
    · obtain ⟨b, hb, l, hstands, hm⟩ := h.stands_new hp.1 havoids hact hl hq hold
      refine ⟨b, hb, l, hstands, hm, fun u hu hx => ?_⟩
      obtain ⟨_, _, _, hparent, _⟩ := hback hu hx
      exact absurd hparent hold

end Occupied

/-- Configs that are rendered into an empty container are all that stands there. -/
theorem occupied_render (h : Orderly w) (hc : w.scene.tree.contains c)
    (hunheld : ∀ t ∈ w.tasks, c ∉ t.work.holds) (hempty : ∀ x, w.scene.tree.parent? x ≠ some c)
    (raw : RawConfig F) (data context : Value) :
    Occupied es c
      (Booking.line w.nextTask (w.nextTask + 1) w.scene.tree.next (raw.normalize s.engine))
      (w.render s c raw data context).1 := by
  have hs := h.sound
  have hlt := hs.linked.live_lt hc
  have hact : w.act s (.render c raw data context) = some (w.render s c raw data context).1 := rfl
  have hknown : (Act.render c raw data context : Act F α).Known w.scene.tree.next := hlt
  have horderly : Orderly (w.render s c raw data context).1 :=
    h.act_of_containers hknown (fun n hn t ht => List.mem_singleton.mp hn ▸
      not_output_of_unheld hunheld ht) hact
  have htakes := takes_takeUpAll (w := w) ⟨data, context, none⟩ (raw.normalize s.engine) hs.linked hlt
  have hbooks : Books w (w.render s c raw data context).1 c _ _ _ :=
    books_of_call hs.roster (sameTasks_takeUpAll c _ _) htakes
  rw [Booking.line_takeUpAll (w := w) (d := c) ⟨data, context, none⟩]
  generalize (w.takeUpAll c ⟨data, context, none⟩ (raw.normalize s.engine)).2 = rs at hbooks
  have hgrown := hbooks.takes.grown.tree
  refine ⟨horderly, Nat.lt_of_lt_of_le hlt hgrown.next_le, unheld_kept hs hknown hact hlt hunheld,
    fun {x} hq => ?_⟩
  have hx := horderly.sound.linked.listed hq
  rw [hbooks.takes.children hc] at hx
  rcases List.mem_append.mp hx with hx | hx
  · rw [hgrown.parent (hs.linked.listed_lt hx)] at hq
    exact absurd hq (hempty x)
  · obtain ⟨r, hr, rfl⟩ := List.mem_map.mp hx
    obtain ⟨i, hi⟩ := List.mem_iff_getElem?.mp hr
    obtain ⟨t, ht, hid, howner, hwork⟩ := hbooks.started i r hi
    refine ⟨_, Booking.mem_ofRuns.mpr ⟨i, r, hi, rfl⟩, [r.place], ?_, List.mem_cons_self,
      fun u hu hru => ?_⟩
    · exact .pending ht hid howner hwork rfl rfl (hid ▸ outcome_of_mem horderly.sound.roster ht)
        (hbooks.takes.item r hr) (hbooks.takes.held r hr)
    · have hrt : r.place ∈ t.work.places := hwork ▸ List.mem_cons_self
      rw [horderly.sound.held_one hu ht (mem_holds_of_place hru) (mem_holds_of_place hrt)]
      exact hid

omit [LawfulMedium α] in
/-- The places of all configs that are rendered are listed at once. -/
theorem listed_render (h : Sound w) (hc : w.scene.tree.contains c) (raw : RawConfig F)
    (data context : Value) : ∀ b ∈ Booking.line w.nextTask (w.nextTask + 1) w.scene.tree.next
      (raw.normalize s.engine), b.place ∈ (w.render s c raw data context).1.scene.tree.children c := by
  have htakes := takes_takeUpAll (w := w) ⟨data, context, none⟩ (raw.normalize s.engine) h.linked
    (h.linked.live_lt hc)
  have hkids : (w.render s c raw data context).1.scene.tree.children c = _ := htakes.children hc
  intro b hb
  rw [Booking.line_takeUpAll (w := w) (d := c) ⟨data, context, none⟩] at hb
  obtain ⟨i, r, hi, rfl⟩ := Booking.mem_ofRuns.mp hb
  rw [hkids]
  exact List.mem_append_right _ (List.mem_map_of_mem (List.mem_of_getElem? hi))

end World

end Montage
