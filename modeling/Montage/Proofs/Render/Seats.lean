import Montage.Proofs.Render.Siblings
import Montage.Proofs.Render.Tasks

/-!
Containers in which places are held, also for runs that wait for others to begin. Main statements: in
whatever order the runs take their steps, the children of the container are one segment for each place
that was held there, in the order of the places, between nodes that no run works on; and places that are
taken up later come after those.
-/

namespace Montage

namespace Tree

/-- What stands where a node stood, once `p` gave way to `ids`. -/
def givesWay (p : NodeId) (ids : List NodeId) (x : NodeId) : List NodeId :=
  if x = p then ids else [x]

variable {p : NodeId} {ids l : List NodeId}

theorem flatMap_givesWay (h : p ∉ l) : l.flatMap (givesWay p ids) = l := by
  have hone : ∀ x ∈ l, givesWay p ids x = [x] := by
    intro x hx
    refine if_neg ?_
    rintro rfl
    exact h hx
  exact (List.flatMap_congr hone).trans (List.flatMap_singleton' l)

theorem flatMap_givesWay_self : l.flatMap (givesWay p [p]) = l := by
  have hone : ∀ x ∈ l, givesWay p [p] x = [x] := by
    intro x _
    by_cases hx : x = p <;> simp [givesWay, hx]
  exact (List.flatMap_congr hone).trans (List.flatMap_singleton' l)

end Tree

variable {F α : Type}

/-- A place that is held, and what is rendered there. -/
structure Seat (F : Type) where
  place : NodeId
  brief : Brief F

variable [Medium α]

def Run.seat (r : Run F α) : Seat F :=
  ⟨r.place, r.brief⟩

namespace World

/-- What stands in the container for a seat. -/
inductive Seated (es : List (World F α × Act F α)) (w : World F α) (b : Seat F) :
    List NodeId → Prop
  /-- The place, as long as its run has not ended. -/
  | held {t : Task F α} {r : Run F α} (mem : t ∈ w.tasks) (run : r ∈ t.work.runs)
      (seat : r.seat = b) (item : w.scene.tree.get? b.place = some Medium.reserved)
      (held : w.scene.places.get? b.place = some ⟨b.brief.config.viewName?, false⟩) :
      Seated es w b [b.place]
  /-- What the run left there when it ended. -/
  | ended {v : World F α} {t : Task F α} {r : Run F α} {waiter : TaskId} {l : List NodeId}
      (event : (v, Act.step t.id) ∈ es) (mem : t ∈ v.tasks) (work : t.work = .run r)
      (seat : r.seat = b) (outcome : w.outcomeOf? t.id ≠ none)
      (free : ∀ u ∈ w.tasks, b.place ∉ u.work.places) (given : b.place < w.scene.tree.next)
      (stands : Stands es w ⟨t.id, waiter, r.place, r.config⟩ l) : Seated es w b l

variable {s : Setup F α} {es : List (World F α × Act F α)} {w w' : World F α} {a : Act F α}
  {t u : Task F α} {r : Run F α} {b : Seat F} {c n p q x : NodeId} {l : List NodeId} {o : Outcome}

theorem Seated.lt (h : Sound w) (hs : Seated es w b l) : b.place < w.scene.tree.next := by
  cases hs with
  | held mem run seat item held => exact h.linked.live_lt (Tree.get?_eq_some_live item)
  | ended event mem work seat outcome free given stands => exact given

/-- A seat whose place a task holds is represented by its place, and the run is that of the task. -/
theorem Seated.of_mem (h : Sound w) (hs : Seated es w b l) (ht : t ∈ w.tasks)
    (hp : b.place ∈ t.work.places) : l = [b.place] ∧ (∃ r ∈ t.work.runs, r.seat = b) ∧
      w.scene.tree.get? b.place = some Medium.reserved ∧
      w.scene.places.get? b.place = some ⟨b.brief.config.viewName?, false⟩ := by
  cases hs with
  | @held t' r mem run seat item held =>
    have hp' : b.place ∈ t'.work.places := Work.mem_places.mpr ⟨r, run, seat ▸ rfl⟩
    obtain rfl := h.held_one ht mem (mem_holds_of_place hp) (mem_holds_of_place hp')
    exact ⟨rfl, ⟨r, run, seat⟩, item, held⟩
  | ended event mem work seat outcome free given stands => exact absurd hp (free t ht)

/-- Whoever holds a place that was given out before held it then, or waited to begin its run. -/
theorem holder_back (h : Sound w) (ha : a.Known w.scene.tree.next) (hact : w.act s a = some w')
    (hu : u ∈ w'.tasks) (hp : p ∈ u.work.places) (hlt : p < w.scene.tree.next) :
    ∃ v ∈ w.tasks, p ∈ v.work.places ∧ (v.id = u.id ∨ ¬v.work.IsRun) := by
  rcases (shift_of_act h ha hact).origin h.roster hu with ⟨v, hv, hid, _, _, hpl⟩ | ⟨_, _, hpl⟩
  · exact ⟨v, hv, hpl p hp, .inl hid⟩
  · rcases hpl p hp with ⟨v, hv, hidle, hpv, _⟩ | ⟨hge, _⟩
    · exact ⟨v, hv, hpv, .inr hidle⟩
    · exact absurd hlt (Nat.not_lt.mpr hge)

/-- What nobody holds stays so. -/
theorem unheld_kept (h : Sound w) (ha : a.Known w.scene.tree.next) (hact : w.act s a = some w')
    (hn : n < w.scene.tree.next) (hfree : ∀ t ∈ w.tasks, n ∉ t.work.holds) :
    ∀ t ∈ w'.tasks, n ∉ t.work.holds := by
  intro u hu hm
  rcases List.mem_append.mp hm with hp | ho
  · obtain ⟨v, hv, hpv, _⟩ := holder_back h ha hact hu hp hn
    exact hfree v hv (mem_holds_of_place hpv)
  · rcases (shift_of_act h ha hact).output h.roster hu (Option.mem_toList.mp ho) with
      ⟨v, hv, _, _, hvo⟩ | ⟨rfl, _⟩
    · exact hfree v hv (mem_holds_of_output hvo)
    · exact Nat.lt_irrefl _ hn

/-- A run goes on, or begins, or it ends. -/
theorem run_kept (h : Sound w) (ha : a.Known w.scene.tree.next) (hact : w.act s a = some w')
    (ht : t ∈ w.tasks) (hr : r ∈ t.work.runs) :
    (∃ u ∈ w'.tasks, ∃ r' ∈ u.work.runs, r'.seat = r.seat) ∨ ∃ o, a.Ends w w' t r o := by
  have hshift := shift_of_act h ha hact
  by_cases hstep : a = .step t.id
  · subst hstep
    cases hwork : t.work with
    | errands es =>
      rw [hwork] at hr
      cases hr
    | run r₀ =>
      rw [hwork] at hr
      obtain rfl := List.mem_singleton.mp hr
      rcases hshift.run h.roster ht hwork with ⟨phase, hmem, _⟩ | ⟨_, o, settled⟩
      · exact .inl ⟨_, hmem, _, List.mem_cons_self, rfl⟩
      · exact .inr ⟨o, ⟨ht, hwork, rfl⟩, settled⟩
    | batch rs =>
      rw [hwork] at hr
      cases turn_of_mem h.roster ht hact with
      | expands rs' work scene moved =>
        rw [hwork] at work
        cases work
        obtain ⟨i, hi⟩ := List.mem_iff_getElem?.mp (show r ∈ rs from hr)
        obtain ⟨u, hu, _, _, huwork⟩ :=
          moved.exists_new h.roster ht (i := i) (k := .run r) (by simp [hi])
        exact .inl ⟨u, hu, r, by rw [huwork]; exact List.mem_cons_self, rfl⟩
      | ends work scene ended =>
        rcases work with work | work <;> rw [hwork] at work <;> cases work
        cases hr
      | waits r phase work => rw [hwork] at work; cases work
      | begins r phase shape work => rw [hwork] at work; cases work
      | draws r o phase work => rw [hwork] at work; cases work
      | nests r o phase raw around work => rw [hwork] at work; cases work
      | starts r o phase raw around work => rw [hwork] at work; cases work
      | lists r o phase page work => rw [hwork] at work; cases work
      | skips r work => rw [hwork] at work; cases work
      | fails r e offending o work => rw [hwork] at work; cases work
      | abandons r o e work => rw [hwork] at work; cases work
      | completes r o p work => rw [hwork] at work; cases work
      | passes e es work => rw [hwork] at work; cases work
      | turns wrapper container page all es work => rw [hwork] at work; cases work
  · exact .inl ⟨t, hshift.kept h.roster ht hstep, r, hr, rfl⟩

/-- A run that ended holds its place no more, and nobody else does. -/
theorem free_of_ends (h : Sound w) (ha : a.Known w.scene.tree.next) (hact : w.act s a = some w')
    (he : a.Ends w w' t r o) : ∀ u ∈ w'.tasks, r.place ∉ u.work.places := by
  intro u hu hp
  obtain ⟨⟨ht, hwork, _⟩, settled⟩ := he
  have hplace : r.place ∈ t.work.places := hwork ▸ List.mem_cons_self
  obtain ⟨v, hv, hpv, hid | hidle⟩ := holder_back h ha hact hu hp (h.place_lt ht hplace)
  · obtain rfl := h.held_one hv ht (mem_holds_of_place hpv) (mem_holds_of_place hplace)
    exact settled.ne_of_mem hu hid.symm
  · obtain rfl := h.held_one hv ht (mem_holds_of_place hpv) (mem_holds_of_place hplace)
    exact hidle ⟨r, hwork⟩

section

variable [LawfulMedium α]

namespace Seated

/-- A segment stays as it is, unless the act ends the run that it is for. -/
theorem kept (h : Sound w) (ha : a.Known w.scene.tree.next) (hact : w.act s a = some w')
    (hc : w'.scene.tree.contains c) (hs : Seated es w b l)
    (hl : ∀ x ∈ l, x ∈ w.scene.tree.children c)
    (hspares : ∀ x ∈ l, w.scene.tree.parent? x = some c → x ∉ a.discarded w ++ a.marked)
    (hends : ∀ t r o, a.Ends w w' t r o → r.place ∈ l → ¬w.scene.tree.contains r.place) :
    Seated (es ++ [(w, a)]) w' b l := by
  have hle := (frame_of_act h ha hact).fades.next_le
  cases hs with
  | @held t r mem run seat item held =>
    have hlive := Tree.get?_eq_some_live item
    have hne : ∀ t r o, a.Ends w w' t r o → r.place ≠ b.place := fun t r o he hp =>
      hends t r o he (hp ▸ List.mem_cons_self) (hp ▸ hlive)
    have hparent := h.linked.link (hl b.place List.mem_cons_self) hlive
    obtain ⟨_, hitem, hplace⟩ :=
      child_kept h ha hact (hspares b.place List.mem_cons_self hparent) hc hparent hne
    rcases run_kept h ha hact mem run with ⟨u, hu, r', hr', hseat⟩ | ⟨o, he⟩
    · exact .held hu hr' (hseat.trans seat) (hitem.trans item) (hplace.trans held)
    · exact absurd (congrArg Seat.place seat) (hne t r o he)
  | @ended v t r waiter _ event mem work seat outcome free given stands =>
    obtain ⟨o, ho⟩ := Option.ne_none_iff_exists'.mp outcome
    have hkept := (shift_of_act h ha hact).outcome_kept h.roster ho
    refine .ended (List.mem_append_left _ event) mem work seat (by simp [hkept]) ?_
      (Nat.lt_of_lt_of_le given hle) (stands.kept h ha hact hspares hc hl fun t' r' o' he => ⟨?_, ?_⟩)
    · intro u hu hp
      obtain ⟨v, hv, hpv, _⟩ := holder_back h ha hact hu hp given
      exact free v hv hpv
    · intro hid
      have hid : t'.id = t.id := hid
      rw [← hid, outcome_of_mem h.roster he.1.1] at ho
      cases ho
    · exact hends t' r' o' he

/-- When its run ends, a seat is represented by what the run puts in its place. -/
theorem ended_act (h : Sound w) (ha : a.Known w.scene.tree.next) (hact : w.act s a = some w')
    (hc : w'.scene.tree.contains c) (hs : Seated es w b l) (he : a.Ends w w' t r o)
    (hp : r.place = b.place) (hq : w.scene.tree.parent? b.place = some c) :
    l = [b.place] ∧ ∃ l', Seated (es ++ [(w, a)]) w' b l' ∧
      (o = .skipped ∧ l' = [b.place] ∨
        o ≠ .skipped ∧ w'.scene.tree.children c = Tree.putAt b.place l' (w.scene.tree.children c)) := by
  obtain ⟨⟨ht, hwork, hstep⟩, settled⟩ := id he
  have hplaces : b.place ∈ t.work.places := by rw [hwork, ← hp]; exact List.mem_cons_self
  obtain ⟨hsegment, ⟨r', hr', hseat⟩, hitem, hheld⟩ := hs.of_mem h ht hplaces
  rw [hwork] at hr'
  obtain rfl := List.mem_singleton.mp hr'
  have hlt : b.place < w'.scene.tree.next := Nat.lt_of_lt_of_le (h.place_lt ht hplaces)
    (frame_of_act h ha hact).fades.next_le
  have hevent : (w, Act.step t.id) ∈ es ++ [(w, a)] :=
    List.mem_append_right _ (hstep ▸ List.mem_cons_self)
  have houtcome : w'.outcomeOf? t.id ≠ none := by simp [outcome_of_ends he]
  have hfree : ∀ u ∈ w'.tasks, b.place ∉ u.work.places := hp ▸ free_of_ends h ha hact he
  refine ⟨hsegment, ?_⟩
  by_cases ho : o = .skipped
  · subst ho
    have hstands : Stands (es ++ [(w, a)]) w' ⟨t.id, t.id, r'.place, r'.config⟩ [b.place] := by
      rw [← hp]
      exact stands_of_skips h hact he rfl rfl (hp ▸ hitem) (by rw [hp, hheld, ← hseat]; rfl)
    exact ⟨_, .ended hevent ht hwork hseat houtcome hfree hlt hstands, .inl ⟨rfl, rfl⟩⟩
  · obtain ⟨l', hstands, hkids⟩ : ∃ l,
        Stands (es ++ [(w, a)]) w' ⟨t.id, t.id, r'.place, r'.config⟩ l ∧
          w'.scene.tree.children c = Tree.putAt r'.place l (w.scene.tree.children c) :=
      stands_of_ends h ha hact he ho (hp ▸ hq) hc rfl rfl rfl
    exact ⟨l', .ended hevent ht hwork hseat houtcome hfree hlt hstands, .inr ⟨ho, hp ▸ hkids⟩⟩

end Seated

end

/-- All that is held is younger than the nodes before `base`, and places stand in the container or in
outputs. -/
structure Hosted (c base : NodeId) (w : World F α) : Prop where
  orderly : Orderly w
  given : base ≤ w.scene.tree.next
  young : ∀ {t x}, t ∈ w.tasks → x ∈ t.work.holds → base ≤ x
  home : ∀ {t p q}, t ∈ w.tasks → p ∈ t.work.places → w.scene.tree.parent? p = some q →
    q = c ∨ ∃ u ∈ w.tasks, u.work.output? = some q

namespace Hosted

variable {base m : NodeId}

/-- Nothing that is held stands above a node that is older, or under one that is not held. -/
theorem not_above (h : Hosted c base w) (ht : t ∈ w.tasks) (hn : n ∈ t.work.holds) (hx : x < base) :
    ¬w.scene.tree.Under n x := fun hu =>
  Nat.not_lt.mpr (Nat.le_trans (h.young ht hn) (h.orderly.sound.linked.le_of_under hu)) hx

theorem not_below (h : Hosted c base w) (hc : c < base) (hn : base ≤ n)
    (hfree : ∀ t ∈ w.tasks, n ∉ t.work.holds) (ht : t ∈ w.tasks) (hx : x ∈ t.work.holds) :
    ¬w.scene.tree.Under n x := by
  have hroot : ∀ {u o}, u ∈ w.tasks → u.work.output? = some o → ¬w.scene.tree.Under n o := by
    intro u o hu ho hno
    obtain rfl := hno.eq_of_no_parent (h.orderly.sound.output_root hu ho)
    exact hfree u hu (mem_holds_of_output ho)
  intro hu
  rcases List.mem_append.mp hx with hp | ho
  · rcases hu.cases_parent with rfl | ⟨q, hq, hnq⟩
    · exact hfree t ht hx
    · rcases h.home ht hp hq with rfl | ⟨v, hv, hvo⟩
      · exact Nat.not_lt.mpr (Nat.le_trans hn (h.orderly.sound.linked.le_of_under hnq)) hc
      · exact hroot hv hvo hnq
  · exact hroot ht (Option.mem_toList.mp ho) hu

/-- The container is no output. -/
theorem not_output (h : Hosted c base w) (hx : x < base) (ht : t ∈ w.tasks) :
    t.work.output? ≠ some x := fun ho =>
  Nat.not_lt.mpr (h.young ht (mem_holds_of_output ho)) hx

variable [LawfulMedium α]

/-- An old node stays, unless it is discarded. -/
theorem live (h : Hosted c base w) (ha : a.Known w.scene.tree.next) (hact : w.act s a = some w')
    (hdisc : ∀ n ∈ a.discarded w, base ≤ n) (hx : x < base) (hl : w.scene.tree.contains x) :
    w'.scene.tree.contains x := by
  refine Classical.byContradiction fun hd => ?_
  obtain ⟨n, hroot, hn⟩ := (frame_of_act h.orderly.sound ha hact).gone hl hd
  have hu : w.scene.tree.Under n x := hn.elim (fun he => he ▸ .self) And.left
  rcases hroot with hm | ⟨t, r, o, ⟨⟨ht, hwork, _⟩, _⟩, _, rfl | ho⟩
  · exact Nat.not_lt.mpr (Nat.le_trans (hdisc n hm) (h.orderly.sound.linked.le_of_under hu)) hx
  · exact h.not_above ht (mem_holds_of_place (hwork ▸ List.mem_cons_self)) hx hu
  · exact h.not_above ht (mem_holds_of_output (hwork ▸ ho)) hx hu

/-- Every act that puts places in no other node than the container keeps this. -/
theorem act (h : Hosted c base w) (hp : a.IsProper w) (hact : w.act s a = some w')
    (hin : ∀ u ∈ w'.tasks, ∀ p ∈ u.work.places, ∀ q, w'.scene.tree.parent? p = some q →
      q ∈ a.containers w → q = c) : Hosted c base w' := by
  have hs := h.orderly.sound
  have hr := hs.roster
  have hshift := shift_of_act hs hp.1 hact
  have hle := (frame_of_act hs hp.1 hact).fades.next_le
  -- An output in which a place is held stays one.
  have hpaints : ∀ {v u q p}, v ∈ w.tasks → u ∈ w.tasks → u.work.output? = some q →
      p ∈ v.work.places → w.scene.tree.parent? p = some q →
      ∃ u' ∈ w'.tasks, u'.work.output? = some q := by
    intro v u q p hv hu ho hpl hq
    obtain ⟨r, hwork, hro⟩ := Work.run_of_output ho
    rcases hshift.run hr hu hwork with ⟨phase, hm, hout⟩ | ⟨hstep, o, settled⟩
    · exact ⟨_, hm, hout q hro⟩
    · exact absurd (h.orderly.nested hv hu ho hpl hq)
        (hr.not_owner (alone_of_steps ⟨hu, hwork, hstep⟩ hact) hv)
  have hold : ∀ {v p q}, v ∈ w.tasks → p ∈ v.work.places → w'.scene.tree.parent? p = some q →
      q = c ∨ ∃ u' ∈ w'.tasks, u'.work.output? = some q := by
    intro v p q hv hpl hq
    have hq := h.orderly.parent_back hp.1 hact hv hpl hq
    rcases h.home hv hpl hq with hqc | ⟨u, hu, ho⟩
    · exact .inl hqc
    · exact .inr (hpaints hv hu ho hpl hq)
  constructor
  case orderly => exact h.orderly.act hp hact
  case given => exact Nat.le_trans h.given hle
  case young =>
    intro u x hu hx
    rcases List.mem_append.mp hx with hpl | ho
    · by_cases hlt : x < w.scene.tree.next
      · obtain ⟨v, hv, hpv, _⟩ := holder_back hs hp.1 hact hu hpl hlt
        exact h.young hv (mem_holds_of_place hpv)
      · exact Nat.le_trans h.given (Nat.not_lt.mp hlt)
    · rcases hshift.output hr hu (Option.mem_toList.mp ho) with ⟨v, hv, _, _, hvo⟩ | ⟨rfl, _⟩
      · exact h.young hv (mem_holds_of_output hvo)
      · exact h.given
  case home =>
    intro u p q hu hpl hq
    rcases hshift.origin hr hu with ⟨v, hv, _, _, _, hsub⟩ | ⟨_, _, hsub⟩
    · exact hold hv (hsub p hpl) hq
    · rcases hsub p hpl with ⟨v, hv, _, hpv, _⟩ | ⟨_, ⟨_, _, _, _, hfresh⟩ | ⟨v, hv, r, hstep, hwork,
        howners, hfresh⟩⟩
      · exact hold hv hpv hq
      · exact .inl (hin u hu p hpl q hq (hfresh q hq))
      · -- The run that renders there goes on, for it waits for this task.
        obtain ⟨hro, _⟩ := hfresh q hq
        obtain ⟨v', hv', hid, _⟩ := (h.orderly.act hp hact).sound.roster.owned hu howners
        rcases hshift.run hr hv hwork with ⟨phase, hm, hout⟩ | ⟨_, o, settled⟩
        · exact .inr ⟨_, hm, hout q hro⟩
        · exact absurd hid (settled.ne_of_mem hv')

end Hosted

/-- The children of a container are one segment for each of some seats, in order, between others, and no
further place is held there. -/
structure Seating (c : NodeId) (before after : List NodeId) (seats : List (Seat F))
    (es : List (World F α × Act F α)) (w : World F α) : Prop where
  live : w.scene.tree.contains c
  segments : ∃ seg : Seat F → List NodeId,
    w.scene.tree.children c = before ++ (seats.flatMap seg ++ after) ∧
      ∀ b ∈ seats, Seated es w b (seg b)
  known : ∀ t ∈ w.tasks, ∀ p ∈ t.work.places, w.scene.tree.parent? p = some c →
    ∃ b ∈ seats, b.place = p

namespace Seating

variable {before after after' : List NodeId} {seats new : List (Seat F)}

/-- A place that is held in the container stands for its seat, and nowhere else. -/
theorem own (h : Seating c before after seats es w) (hs : Sound w) {seg : Seat F → List NodeId}
    (hkids : w.scene.tree.children c = before ++ (seats.flatMap seg ++ after))
    (hseg : ∀ b ∈ seats, Seated es w b (seg b)) (ht : t ∈ w.tasks) (hp : p ∈ t.work.places)
    (hq : w.scene.tree.parent? p = some c) : ∃ b ∈ seats, b.place = p ∧ seg b = [p] ∧
      p ∉ before ∧ p ∉ after ∧ ∀ b' ∈ seats, p ∈ seg b' → b' = b := by
  obtain ⟨b, hb, rfl⟩ := h.known t ht p hp hq
  obtain ⟨hone, _⟩ := (hseg b hb).of_mem hs ht hp
  have hmem : b.place ∈ seg b := hone ▸ List.mem_cons_self
  have hin := List.one_le_count_iff.mpr (List.mem_flatMap.mpr ⟨b, hb, hmem⟩)
  have hcount := hs.linked.once (x := c) (Tree.live_of_parent hq)
  rw [hkids, List.count_append, List.count_append] at hcount
  refine ⟨b, hb, rfl, hone, fun hm => ?_, fun hm => ?_, fun b' hb' hm => ?_⟩
  · have := List.one_le_count_iff.mpr hm
    omega
  · have := List.one_le_count_iff.mpr hm
    omega
  · exact eq_of_count (by omega) hb' hb hm hmem

variable [LawfulMedium α]

/-- Every act that works on no nodes, but for the steps of runs, keeps the segments in order. -/
theorem act (h : Seating c before after seats es w) (hw : Orderly w) (ha : a.Known w.scene.tree.next)
    (hact : w.act s a = some w') (htargets : a.targets w = [])
    (hout : ∀ t ∈ w.tasks, t.work.output? ≠ some c) (hc : w'.scene.tree.contains c) :
    Seating c before after seats (es ++ [(w, a)]) w' := by
  have hs := hw.sound
  simp only [Act.targets, List.append_eq_nil_iff] at htargets
  obtain ⟨⟨hcontainers, hdiscarded⟩, hmarked⟩ := htargets
  obtain ⟨seg, hkids, hseg⟩ := h.segments
  have hlisted : ∀ b ∈ seats, ∀ x ∈ seg b, x ∈ w.scene.tree.children c := by
    intro b hb x hx
    rw [hkids]
    simp only [List.mem_append, List.mem_flatMap]
    exact .inr (.inl ⟨b, hb, hx⟩)
  have hspares : ∀ x, x ∉ a.discarded w ++ a.marked := by simp [hdiscarded, hmarked]
  have hkept : ∀ b ∈ seats, (∀ t r o, a.Ends w w' t r o → r.place ∈ seg b →
      ¬w.scene.tree.contains r.place) → Seated (es ++ [(w, a)]) w' b (seg b) := fun b hb hends =>
    (hseg b hb).kept hs ha hact hc (hlisted b hb) (fun x _ _ => hspares x) hends
  refine ⟨hc, ?_, ?_⟩
  · by_cases hend : ∃ t r o, a.Ends w w' t r o ∧ w.scene.tree.parent? r.place = some c
    · obtain ⟨t, r, o, hend, hq⟩ := hend
      obtain ⟨b, hb, hbp, hone, hbefore, hafter, honly⟩ :=
        h.own hs hkids hseg hend.1.1 (hend.1.2.1 ▸ List.mem_cons_self) hq
      obtain ⟨_, l, hl, hnew⟩ := (hseg b hb).ended_act hs ha hact hc hend hbp.symm (hbp ▸ hq)
      -- The place gives way to what the run leaves there, in its own segment alone.
      have hother : ∀ b' ∈ seats, b' ≠ b → (seg b').flatMap (Tree.givesWay r.place l) = seg b' :=
        fun b' hb' hne => Tree.flatMap_givesWay fun hm => hne (honly b' hb' hm)
      have hmine : (seg b).flatMap (Tree.givesWay r.place l) = l := by simp [hone, Tree.givesWay]
      refine ⟨fun b' => (seg b').flatMap (Tree.givesWay r.place l), ?_, fun b' hb' => ?_⟩
      · have hput : w'.scene.tree.children c =
            (w.scene.tree.children c).flatMap (Tree.givesWay r.place l) := by
          rcases hnew with ⟨rfl, rfl⟩ | ⟨_, hput⟩
          · rw [hbp, Tree.flatMap_givesWay_self]
            refine (frame_of_act hs ha hact).children (hs.linked.live_lt h.live) hc ?_
            rintro (hm | ⟨n, hm, _⟩ | ⟨t', r', hstep, ho, _⟩ | ⟨t', r', o', hend', hne, _⟩)
            · simp [hcontainers] at hm
            · simp [hdiscarded] at hm
            · exact hout t' hstep.1 (hstep.2.1 ▸ ho)
            · exact hne (ends_unique hs.roster hend hend').2.2.symm
          · rw [hput, hbp]
            exact Tree.putAt_eq_flatMap (hs.linked.once (Tree.live_of_parent hq))
        rw [hput, hkids]
        simp only [List.flatMap_append, Tree.flatMap_givesWay hbefore, Tree.flatMap_givesWay hafter,
          List.flatMap_assoc]
      · by_cases hbb : b' = b
        · subst hbb
          simpa only [hmine] using hl
        · simp only [hother b' hb' hbb]
          refine hkept b' hb' fun t' r' o' hend' hm => ?_
          obtain ⟨_, rfl, _⟩ := ends_unique hs.roster hend hend'
          exact absurd (honly b' hb' hm) hbb
    · refine ⟨seg, ?_, fun b hb => hkept b hb fun t r o he hm hl => hend ⟨t, r, o, he, ?_⟩⟩
      · rw [← hkids]
        refine (frame_of_act hs ha hact).children (hs.linked.live_lt h.live) hc ?_
        rintro (hm | ⟨n, hm, _⟩ | ⟨t, r, hstep, ho, _⟩ | ⟨t, r, o, he, _, hq⟩)
        · simp [hcontainers] at hm
        · simp [hdiscarded] at hm
        · exact hout t hstep.1 (hstep.2.1 ▸ ho)
        · exact hend ⟨t, r, o, he, hq⟩
      · exact hs.linked.link (hlisted b hb _ hm) hl
  · intro u hu p hp hq
    have hold : ∀ {v}, v ∈ w.tasks → p ∈ v.work.places → ∃ b ∈ seats, b.place = p := fun hv hpv =>
      h.known _ hv p hpv (hw.parent_back ha hact hv hpv hq)
    rcases (shift_of_act hs ha hact).origin hs.roster hu with ⟨v, hv, _, _, _, hsub⟩ | ⟨_, _, hsub⟩
    · exact hold hv (hsub p hp)
    · rcases hsub p hp with ⟨v, hv, _, hpv, _⟩ | ⟨_, ⟨_, _, _, _, hin⟩ | ⟨v, hv, r, _, hwork, _, hin⟩⟩
      · exact hold hv hpv
      · have hm := hin c hq
        rw [hcontainers] at hm
        cases hm
      · exact absurd (show v.work.output? = some c from hwork ▸ (hin c hq).1) (hout v hv)

/-- Places that are taken up come after the others, where an act takes up no others and discards nothing
but what stood after them. -/
theorem extend (h : Seating c before after seats es w) (hw : Orderly w)
    (ha : a.Known w.scene.tree.next) (hact : w.act s a = some w') (hc : w'.scene.tree.contains c)
    (hends : ∀ t r o, ¬a.Ends w w' t r o)
    (hspares : ∀ x, w.scene.tree.parent? x = some c → x ∈ a.discarded w ++ a.marked → x ∈ after)
    (hfresh : ∀ b ∈ new, w.scene.tree.next ≤ b.place)
    (hnew : ∀ b ∈ new, Seated (es ++ [(w, a)]) w' b [b.place])
    (hkids : ∀ ids, w.scene.tree.children c = ids ++ after →
      w'.scene.tree.children c = ids ++ (new.map Seat.place ++ after'))
    (hplaces : ∀ u ∈ w'.tasks, ∀ p ∈ u.work.places, w.scene.tree.next ≤ p →
      ∃ b ∈ new, b.place = p) :
    Seating c before after' (seats ++ new) (es ++ [(w, a)]) w' := by
  have hs := hw.sound
  obtain ⟨seg, hold, hseg⟩ := h.segments
  have hlt : ∀ b ∈ seats, b.place < w.scene.tree.next := fun b hb => (hseg b hb).lt hs
  have hlisted : ∀ b ∈ seats, ∀ x ∈ seg b, x ∈ w.scene.tree.children c := by
    intro b hb x hx
    rw [hold]
    simp only [List.mem_append, List.mem_flatMap]
    exact .inr (.inl ⟨b, hb, hx⟩)
  refine ⟨hc, ⟨fun b => if b.place < w.scene.tree.next then seg b else [b.place], ?_, ?_⟩, ?_⟩
  · have hfirst : seats.flatMap (fun b => if b.place < w.scene.tree.next then seg b else [b.place]) =
        seats.flatMap seg := List.flatMap_congr fun b hb => if_pos (hlt b hb)
    have hrest : new.flatMap (fun b => if b.place < w.scene.tree.next then seg b else [b.place]) =
        new.map Seat.place := by
      rw [List.map_eq_flatMap]
      exact List.flatMap_congr fun b hb => if_neg (Nat.not_lt.mpr (hfresh b hb))
    rw [hkids (before ++ seats.flatMap seg) (by rw [hold, List.append_assoc]), List.flatMap_append,
      hfirst, hrest]
    simp only [List.append_assoc]
  · intro b hb
    rcases List.mem_append.mp hb with hb | hb
    · simp only [if_pos (hlt b hb)]
      refine (hseg b hb).kept hs ha hact hc (hlisted b hb) (fun x hx hq hm => ?_)
        fun t r o he => absurd he (hends t r o)
      have hcount := hs.linked.once (x := c) (Tree.live_of_parent hq)
      have hone := List.one_le_count_iff.mpr (List.mem_flatMap.mpr ⟨b, hb, hx⟩)
      have htwo := List.one_le_count_iff.mpr (hspares x hq hm)
      rw [hold, List.count_append, List.count_append] at hcount
      omega
    · simp only [if_neg (Nat.not_lt.mpr (hfresh b hb))]
      exact hnew b hb
  · intro u hu p hp hq
    by_cases hpl : p < w.scene.tree.next
    · obtain ⟨v, hv, hpv, _⟩ := holder_back hs ha hact hu hp hpl
      obtain ⟨b, hb, hbp⟩ := h.known v hv p hpv (hw.parent_back ha hact hv hpv hq)
      exact ⟨b, List.mem_append_left _ hb, hbp⟩
    · obtain ⟨b, hb, hbp⟩ := hplaces u hu p hp (Nat.not_lt.mp hpl)
      exact ⟨b, List.mem_append_right _ hb, hbp⟩

end Seating

end World

end Montage
