import Mathlib
import Montage.Html.Medium
import Montage.Proofs.Render.Bookings

/-!
The order of what is rendered into one container. Main statement: whatever is rendered into a container
and in whatever order it settles, the children of the container are at every moment those it had before,
followed by one segment for each config, in the order of the calls and of the configs of each call.
-/

namespace Montage

open Json (Value)

variable {F α : Type} [Medium α]

namespace World

/-- What stands for a booked config in its container, by how its rendering stands. -/
inductive Stands (es : List (World F α × Act F α)) (w : World F α) (b : Booking F) :
    List NodeId → Prop
  /-- The held place, as long as the run is under way. -/
  | pending {t : Task F α} {r : Run F α} (mem : t ∈ w.tasks) (id : t.id = b.task)
      (waiter : t.owner? = some b.waiter) (work : t.work = .run r) (place : r.place = b.place)
      (config : r.config = b.config) (outcome : w.outcomeOf? b.task = none)
      (item : w.scene.tree.get? b.place = some Medium.reserved)
      (held : w.scene.places.get? b.place = some ⟨b.config.viewName?, false⟩) :
      Stands es w b [b.place]
  /-- The same place as a trace of a view that is not shown. -/
  | skipped (outcome : w.outcomeOf? b.task = some .skipped)
      (item : w.scene.tree.get? b.place = some (Medium.skip Medium.reserved))
      (held : w.scene.places.get? b.place = some ⟨b.config.viewName?, true⟩) :
      Stands es w b [b.place]
  /-- The output, or what its children were when it was finished. -/
  | rendered {v : World F α} {t : Task F α} {r : Run F α} {n : NodeId}
      (event : (v, Act.step b.task) ∈ es) (mem : t ∈ v.tasks) (id : t.id = b.task)
      (work : t.work = .run r) (place : r.place = b.place) (config : r.config = b.config)
      (output : r.output? = some n) (outcome : w.outcomeOf? b.task = some .rendered) :
      Stands es w b (v.scene.placed n)
  /-- A node that shows the error. -/
  | failed {n : NodeId} {e : Error} {offending : Option Value} {o : Outcome}
      (wrong : o = .error ∨ o = .renderedError) (outcome : w.outcomeOf? b.task = some o)
      (item : w.scene.tree.get? n = some (Medium.failure (α := α) e offending).item) :
      Stands es w b [n]

/-- What was booked in a container, in order. -/
def bookings (s : Setup F α) (c : NodeId) (es : List (World F α × Act F α)) : List (Booking F) :=
  es.flatMap fun e => e.2.booked s c e.1

variable {s : Setup F α} {es : List (World F α × Act F α)} {w w' : World F α} {a : Act F α}
  {t : Task F α} {r : Run F α} {b : Booking F} {c n p q x : NodeId} {l : List NodeId} {o : Outcome}

/-- The outcome of a run that is under way is open. -/
theorem outcome_of_mem (h : Roster w) (ht : t ∈ w.tasks) : w.outcomeOf? t.id = none := by
  cases ho : w.outcomeOf? t.id with
  | none => rfl
  | some o => exact absurd rfl ((h.settled ho).2 t ht)

/-- A booked config whose run is under way is represented by its place. -/
theorem Stands.of_mem (h : Roster w) (hs : Stands es w b l) (ht : t ∈ w.tasks)
    (hid : t.id = b.task) : ∃ r, t.work = .run r ∧ r.place = b.place ∧ r.config = b.config ∧
      t.owner? = some b.waiter ∧ l = [b.place] ∧
      w.scene.tree.get? b.place = some Medium.reserved ∧
      w.scene.places.get? b.place = some ⟨b.config.viewName?, false⟩ := by
  have hnone := hid ▸ outcome_of_mem h ht
  cases hs with
  | pending mem id waiter work place config outcome item held =>
    have := h.id_inj mem ht (id.trans hid.symm)
    subst this
    exact ⟨_, work, place, config, waiter, rfl, item, held⟩
  | skipped outcome item held =>
    rw [hnone] at outcome
    cases outcome
  | rendered event mem id work place config output outcome =>
    rw [hnone] at outcome
    cases outcome
  | failed wrong outcome item =>
    rw [hnone] at outcome
    cases outcome

section

variable [LawfulMedium α]

/-- A child of a container that an act neither discards nor marks stays as it is, unless the act ends its
run. -/
theorem child_kept (h : Sound w) (ha : a.Known w.scene.tree.next) (hact : w.act s a = some w')
    (hspares : x ∉ a.discarded w ++ a.marked) (hc : w'.scene.tree.contains c)
    (hx : w.scene.tree.parent? x = some c)
    (hends : ∀ t r o, a.Ends w w' t r o → r.place ≠ x) :
    w'.scene.tree.contains x ∧ w'.scene.tree.get? x = w.scene.tree.get? x ∧
      w'.scene.places.get? x = w.scene.places.get? x := by
  have hframe := frame_of_act h ha hact
  have hl := Tree.live_of_parent hx
  have hlt := h.linked.live_lt hl
  have houtput : ∀ t r, a.Steps w t r → r.output? ≠ some x := by
    intro t r hstep ho
    obtain ⟨ht, hwork, _⟩ := hstep
    rw [h.output_root ht (hwork ▸ ho)] at hx
    cases hx
  have hl' : w'.scene.tree.contains x := by
    refine Classical.byContradiction fun hd => ?_
    obtain ⟨n, hroot, hn⟩ := hframe.gone hl hd
    have hne : x ≠ n := by
      rintro rfl
      rcases hroot with hdisc | ⟨t, r, o, hend, _, hp | ho⟩
      · exact hspares (List.mem_append_left _ hdisc)
      · exact hends t r o hend hp
      · exact houtput t r hend.1 ho
    obtain ⟨hu, hall⟩ := hn.resolve_left hne
    exact hall c (hu.parent (Ne.symm hne) hx) hc
  refine ⟨hl', hframe.item hlt hl' ?_, hframe.places hlt hl' ?_⟩
  · rintro (hm | ⟨t, r, hstep, ho⟩ | ⟨t, r, o, hend, hp⟩)
    · exact hspares (List.mem_append_right _ hm)
    · exact houtput t r hstep ho
    · exact hends t r o hend hp
  · rintro ⟨t, r, o, hend, hp⟩
    exact hends t r o hend hp

/-- A segment of several nodes needs none of them to stay as it is. One of a single node stays as it is,
unless the act ends the run that it is for. -/
theorem Stands.kept_of_single (h : Sound w) (ha : a.Known w.scene.tree.next)
    (hact : w.act s a = some w') (hc : w'.scene.tree.contains c) (hs : Stands es w b l)
    (hl : ∀ x, l = [x] → x ∈ w.scene.tree.children c)
    (hspares : ∀ x, l = [x] → w.scene.tree.parent? x = some c → x ∉ a.discarded w ++ a.marked)
    (hends : ∀ t r o, a.Ends w w' t r o →
      t.id ≠ b.task ∧ (l = [r.place] → ¬w.scene.tree.contains r.place)) :
    Stands (es ++ [(w, a)]) w' b l := by
  have hshift := shift_of_act h ha hact
  have hchild : ∀ {x v}, l = [x] → w.scene.tree.get? x = some v →
      w'.scene.tree.get? x = some v ∧ w'.scene.places.get? x = w.scene.places.get? x := by
    intro x v hx hv
    have hparent := h.linked.link (hl x hx) (Tree.get?_eq_some_live hv)
    obtain ⟨_, hitem, hplace⟩ := child_kept h ha hact (hspares x hx hparent) hc hparent
      fun t r o hend hp => (hends t r o hend).2 (hp ▸ hx) (hp ▸ Tree.get?_eq_some_live hv)
    exact ⟨hitem.trans hv, hplace⟩
  cases hs with
  | @pending t r mem id waiter work place config outcome item held =>
    rcases hshift.run h.roster mem work with ⟨phase, hmem, _⟩ | ⟨hstep, o, settled⟩
    · obtain ⟨hitem, hplace⟩ := hchild rfl item
      refine .pending hmem id waiter rfl place config ?_ hitem (hplace.trans held)
      have hnone := outcome_of_mem (h.act ha hact).roster hmem
      exact id ▸ hnone
    · exact absurd id (hends t r o ⟨⟨mem, work, hstep⟩, settled⟩).1
  | skipped outcome item held =>
    obtain ⟨hitem, hplace⟩ := hchild rfl item
    exact .skipped (hshift.outcome_kept h.roster outcome) hitem (hplace.trans held)
  | rendered event mem id work place config output outcome =>
    exact .rendered (List.mem_append_left _ event) mem id work place config output
      (hshift.outcome_kept h.roster outcome)
  | failed wrong outcome item =>
    exact .failed wrong (hshift.outcome_kept h.roster outcome) (hchild rfl item).1

/-- A segment stays as it is, unless the act ends the run that it is for. -/
theorem Stands.kept (h : Sound w) (ha : a.Known w.scene.tree.next) (hact : w.act s a = some w')
    (hspares : ∀ x ∈ l, w.scene.tree.parent? x = some c → x ∉ a.discarded w ++ a.marked)
    (hc : w'.scene.tree.contains c) (hs : Stands es w b l)
    (hl : ∀ x ∈ l, x ∈ w.scene.tree.children c)
    (hends : ∀ t r o, a.Ends w w' t r o →
      t.id ≠ b.task ∧ (r.place ∈ l → ¬w.scene.tree.contains r.place)) :
    Stands (es ++ [(w, a)]) w' b l := by
  have hmem : ∀ {x}, l = [x] → x ∈ l := fun hx => hx ▸ List.mem_cons_self
  exact hs.kept_of_single h ha hact hc (fun x hx => hl x (hmem hx)) (fun x hx => hspares x (hmem hx))
    fun t r o he => ⟨(hends t r o he).1, fun hx => (hends t r o he).2 (hmem hx)⟩

end

/-! The segment of a run that ends. -/

theorem ends_unique {t' : Task F α} {r' : Run F α} {o' : Outcome} (h : Roster w)
    (he : a.Ends w w' t r o) (he' : a.Ends w w' t' r' o') : t = t' ∧ r = r' ∧ o = o' := by
  obtain ⟨⟨ht, hwork, rfl⟩, hs⟩ := he
  obtain ⟨⟨ht', hwork', hid⟩, hs'⟩ := he'
  have := h.id_inj ht ht' (Act.step.inj hid)
  subst this
  rw [hwork] at hwork'
  refine ⟨rfl, Work.run.inj hwork', ?_⟩
  have ho := congrArg (Table.get? · t.id) (hs.outcomes.symm.trans hs'.outcomes)
  simpa [Table.get?_insert] using ho

theorem outcome_of_ends (he : a.Ends w w' t r o) : w'.outcomeOf? t.id = some o := by
  simp [outcomeOf?, he.2.outcomes, Table.get?_insert]

/-- A run that is skipped leaves a trace in its place. -/
theorem scene_of_skips (h : Sound w) (hact : w.act s a = some w')
    (he : a.Ends w w' t r .skipped) : w'.scene = w.scene.skip r.place := by
  obtain ⟨⟨ht, hwork, rfl⟩, settled⟩ := id he
  have hmoved : ∀ {work works}, ¬Moved w t work works w' := fun hm =>
    hm.not_settled h.roster ht settled
  have hother : ∀ {o}, Settled w t o w' → o = .skipped := fun hs =>
    (ends_unique h.roster he ⟨⟨ht, hwork, rfl⟩, hs⟩).2.2.symm
  cases turn_of_mem h.roster ht hact with
  | skips r' work fresh scene _ =>
    rw [hwork] at work
    cases work
    exact scene
  | fails r e offending o work fresh wrong scene settled =>
    rw [hother settled] at wrong
    rcases wrong with wrong | wrong <;> cases wrong
  | abandons r o e work painting scene settled => cases hother settled
  | completes r o p work painting scene settled => cases hother settled
  | ends work scene ended =>
    rcases work with work | work <;> rw [hwork] at work <;> cases work
  | waits r phase work output scene moved => exact absurd moved hmoved
  | begins r phase shape work fresh output scene moved => exact absurd moved hmoved
  | draws r o phase work painting output step script drawn moved => exact absurd moved hmoved
  | nests r o phase raw around work painting output script scene moved => exact absurd moved hmoved
  | starts r o phase raw around work painting output script scene moved => exact absurd moved hmoved
  | lists r o phase page work painting output script own scene moved => exact absurd moved hmoved
  | expands rs work scene moved => exact absurd moved hmoved
  | passes e es work scene moved => exact absurd moved hmoved
  | turns wrapper container page all es work scene moved => exact absurd moved hmoved

theorem stands_of_skips (h : Sound w) (hact : w.act s a = some w')
    (he : a.Ends w w' t r .skipped) (hid : t.id = b.task) (hplace : r.place = b.place)
    (hitem : w.scene.tree.get? b.place = some Medium.reserved)
    (hheld : w.scene.places.get? b.place = some ⟨b.config.viewName?, false⟩) :
    Stands es w' b [b.place] := by
  have hscene := scene_of_skips h hact he
  refine .skipped (hid ▸ outcome_of_ends he) ?_ ?_
  · rw [hscene, hplace]
    exact Tree.get?_modify.trans ((if_pos rfl).trans (congrArg (Option.map Medium.skip) hitem))
  · rw [hscene, hplace, Scene.get?_places_skip, if_pos rfl, hheld]
    rfl

/-- An output that is discarded is in no list of children and above no place of its own run. -/
theorem discard_output (h : Sound w) (ht : t ∈ w.tasks) (hwork : t.work = .run r)
    (hn : r.output? = some n) :
    (w.scene.discard n).tree.parent? r.place = w.scene.tree.parent? r.place ∧
      ∀ x, (w.scene.discard n).tree.contains x →
        (w.scene.discard n).tree.children x = w.scene.tree.children x := by
  have hpruned := Tree.Pruned.remove h.linked n
  have hroot := h.output_root ht (hwork ▸ hn : t.work.output? = some n)
  refine ⟨?_, fun x hx => (hpruned.children hx).trans (if_neg (by simp [hroot]))⟩
  by_cases hl : (w.scene.discard n).tree.contains r.place
  · exact hpruned.parent hl
  · rw [Tree.parent?_of_dead hl, Tree.parent?_of_dead]
    refine fun hlive => hl (hpruned.live.mpr ⟨hlive, fun hu => ?_⟩)
    exact Nat.not_le.mpr (h.younger ht hwork hn) (h.linked.le_of_under hu)

/-- How the end of a run fills its place in a node: with an error, or with its output. -/
inductive FillsPlace (w w' : World F α) (r : Run F α) (c : NodeId) (o : Outcome) : Prop
  | failed {t₀ t₁ : Tree α} {e : Error} {offending : Option Value}
      (wrong : o = .error ∨ o = .renderedError) (next : w.scene.tree.next ≤ t₀.next)
      (live : t₀.contains c)
      (kids : ∀ x, t₀.contains x → t₀.children x = w.scene.tree.children x)
      (root : Tree.Root t₀.next (Medium.failure (α := α) e offending).item t₀ t₁)
      (spliced : Tree.Spliced r.place c t₀.next false t₁ w'.scene.tree)
  | rendered {n : NodeId} {t₁ : Tree α} (done : o = .rendered) (output : r.output? = some n)
      (kids : ∀ x, t₁.children x = w.scene.tree.children x)
      (spliced : Tree.Spliced r.place c n (w.scene.isFragment n) t₁ w'.scene.tree)

section

variable [LawfulMedium α]

/-- A run whose place is in a node fills it when it ends, unless it is skipped. -/
theorem fillsPlace_of_ends (h : Sound w) (ha : a.Known w.scene.tree.next)
    (hact : w.act s a = some w') (he : a.Ends w w' t r o) (ho : o ≠ .skipped)
    (hq : w.scene.tree.parent? r.place = some c) : FillsPlace w w' r c o := by
  obtain ⟨⟨ht, hwork, rfl⟩, settled⟩ := id he
  have hdeed := deed_of_act h ha hact
  generalize hstep : (Act.step t.id : Act F α) = a at hdeed
  cases hdeed with
  | mild mild quiet =>
    rcases quiet (outcome_of_ends he) with hold | hskip
    · rw [outcome_of_mem h.roster ht] at hold
      cases hold
    · exact absurd hskip ho
  | @fails t' r' sc e offending o' mem alone work before wrong scene settled' =>
    obtain ⟨rfl, rfl, rfl⟩ := ends_unique h.roster he ⟨⟨mem, work, hstep⟩, settled'⟩
    obtain ⟨hmild, _, hf⟩ := filled_of_fails h ht hwork before e offending
    obtain ⟨hparent, hkids⟩ : sc.tree.parent? r.place = w.scene.tree.parent? r.place ∧
        ∀ x, sc.tree.contains x → sc.tree.children x = w.scene.tree.children x := by
      rcases before with rfl | ⟨n, hn, rfl⟩
      · exact ⟨rfl, fun _ _ => rfl⟩
      · exact discard_output h ht hwork hn
    rw [← scene] at hf
    cases hf with
    | kept attached root spliced =>
      rw [hparent, hq] at attached
      cases attached
      have hlive : sc.tree.contains c := Tree.Linked.parent_live root.grown.before (hparent.trans hq)
      exact .failed wrong hmild.steady.next_le hlive hkids root spliced
    | lost root detached pruned =>
      rw [hparent, hq] at detached
      cases detached
  | @completes t' r' n p mem alone work output scene settled' =>
    obtain ⟨rfl, rfl, rfl⟩ := ends_unique h.roster he ⟨⟨mem, work, hstep⟩, settled'⟩
    have hf := finished_of_completes h ht hwork output s.settings p
    rw [← scene] at hf
    cases hf with
    | kept attached decorated same spliced provenance places =>
      rw [hq] at attached
      cases attached
      exact .rendered rfl output same spliced
    | lost decorated detached pruned provenance places =>
      rw [hq] at detached
      cases detached

/-- A run that ends otherwise puts its output or an error where its place was. -/
theorem stands_of_ends (h : Sound w) (ha : a.Known w.scene.tree.next) (hact : w.act s a = some w')
    (he : a.Ends w w' t r o) (ho : o ≠ .skipped) (hq : w.scene.tree.parent? r.place = some c)
    (hc : w'.scene.tree.contains c) (hid : t.id = b.task) (hplace : r.place = b.place)
    (hconfig : r.config = b.config) : ∃ l, Stands (es ++ [(w, a)]) w' b l ∧
      w'.scene.tree.children c = Tree.putAt r.place l (w.scene.tree.children c) := by
  have hout := outcome_of_ends he
  rw [hid] at hout
  obtain ⟨⟨ht, hwork, rfl⟩, _⟩ := id he
  cases fillsPlace_of_ends h ha hact he ho hq with
  | @failed t₀ t₁ e offending wrong next live kids root spliced =>
    have hplt := Nat.lt_of_lt_of_le (h.linked.live_lt (Tree.live_of_parent hq)) next
    refine ⟨[t₀.next], .failed wrong hout ((spliced.item ?_).trans root.item), ?_⟩
    · refine spliced.live.mpr ⟨root.live, fun hu => ?_, by simp⟩
      exact Nat.ne_of_lt hplt (hu.eq_of_no_parent root.parent)
    · have hclt := Nat.lt_of_lt_of_le (h.linked.live_lt (h.linked.parent_live hq)) next
      rw [spliced.children hc, if_pos rfl, root.grown.children hclt (by simp), kids c live]
      rfl
  | @rendered n t₁ done output kids spliced =>
    subst done
    refine ⟨w.scene.placed n, .rendered (hid ▸ List.mem_append_right _ List.mem_cons_self) ht hid
      hwork hplace hconfig output hout, ?_⟩
    rw [spliced.children hc, if_pos rfl, kids, Scene.placed_eq_offered]
    simp only [Tree.offered, kids]

end

/-! All segments together. -/

/-- In lists that have at most one node in common place, the node tells its list. -/
theorem eq_of_count {β : Type} {f : β → List NodeId} {bs : List β} {b b' : β}
    (h : (bs.flatMap f).count x ≤ 1) (hb : b ∈ bs) (hb' : b' ∈ bs) (hx : x ∈ f b)
    (hx' : x ∈ f b') : b = b' := by
  induction bs with
  | nil => cases hb
  | cons a bs ih =>
    rw [List.flatMap_cons, List.count_append] at h
    have hone : ∀ {d}, d ∈ bs → x ∈ f d → 1 ≤ (bs.flatMap f).count x := fun hd hxd =>
      List.one_le_count_iff.mpr (List.mem_flatMap.mpr ⟨_, hd, hxd⟩)
    rcases List.mem_cons.mp hb with rfl | hm <;> rcases List.mem_cons.mp hb' with rfl | hm'
    · rfl
    · have := List.one_le_count_iff.mpr hx
      have := hone hm' hx'
      omega
    · have := List.one_le_count_iff.mpr hx'
      have := hone hm hx
      omega
    · exact ih (by omega) hm hm'

/-- One segment may take the place of the node that stood for it, all others staying as they are. -/
theorem putAt_segment {bs : List (Booking F)} {seg : Booking F → List NodeId} {old : List NodeId}
    (l : List NodeId) (hnodup : (bs.map Booking.task).Nodup) (hb : b ∈ bs) (hseg : seg b = [x])
    (hone : (old ++ bs.flatMap seg).count x ≤ 1) :
    Tree.putAt x l (old ++ bs.flatMap seg) =
      old ++ bs.flatMap fun b' => if b'.task = b.task then l else seg b' := by
  obtain ⟨bs₁, bs₂, rfl⟩ := List.append_of_mem hb
  rw [List.map_append, List.map_cons] at hnodup
  obtain ⟨_, hcons, hdisj⟩ := List.nodup_append.mp hnodup
  have hbefore : bs₁.flatMap (fun b' => if b'.task = b.task then l else seg b') =
      bs₁.flatMap seg := by
    refine List.flatMap_congr fun b' hb' => if_neg fun heq => ?_
    exact hdisj _ (List.mem_map_of_mem hb') _ List.mem_cons_self heq
  have hafter : bs₂.flatMap (fun b' => if b'.task = b.task then l else seg b') =
      bs₂.flatMap seg := by
    refine List.flatMap_congr fun b' hb' => if_neg fun heq => ?_
    exact (List.nodup_cons.mp hcons).1 (heq ▸ List.mem_map_of_mem hb')
  rw [List.flatMap_append, List.flatMap_cons, hseg] at hone ⊢
  have hfirst : x ∉ old ++ bs₁.flatMap seg := by
    intro hm
    have := List.one_le_count_iff.mpr hm
    simp only [List.count_append, List.count_singleton_self] at hone this
    omega
  have hput := Tree.putAt_append l (bs₂.flatMap seg) hfirst
  rw [List.singleton_append, ← List.append_assoc, hput, List.flatMap_append, List.flatMap_cons,
    hbefore, hafter, if_pos rfl]
  simp only [List.append_assoc]

/-- The children of a container are those it had and one segment for each booking, in order. -/
structure Lined (s : Setup F α) (c : NodeId) (old : List NodeId) (es : List (World F α × Act F α))
    (w : World F α) : Prop where
  orderly : Orderly w
  given : c < w.scene.tree.next
  nodup : ((bookings s c es).map Booking.task).Nodup
  booked_lt : ∀ b ∈ bookings s c es, b.task < w.nextTask
  segments : w.scene.tree.contains c → ∃ seg : Booking F → List NodeId,
    w.scene.tree.children c = old ++ (bookings s c es).flatMap seg ∧
      ∀ b ∈ bookings s c es, Stands es w b (seg b)
  /-- Every place in the container that is held by a run was booked. -/
  known : w.scene.tree.contains c → ∀ t ∈ w.tasks, ∀ p ∈ t.work.places,
    w.scene.tree.parent? p = some c → ∃ b ∈ bookings s c es, b.task = t.id

theorem bookings_snoc : bookings s c (es ++ [(w, a)]) = bookings s c es ++ a.booked s c w := by
  simp [bookings]

namespace Lined

variable {old : List NodeId}

/-- A place in the container that is held stands for its booking. -/
theorem place (h : Lined s c old es w) {seg : Booking F → List NodeId}
    (hseg : ∀ b ∈ bookings s c es, Stands es w b (seg b)) (ht : t ∈ w.tasks)
    (hp : p ∈ t.work.places) (hq : w.scene.tree.parent? p = some c) :
    ∃ b ∈ bookings s c es, b.task = t.id ∧ ∃ r, t.work = .run r ∧ r.place = p ∧
      r.place = b.place ∧ r.config = b.config ∧ seg b = [p] := by
  obtain ⟨b, hb, hid⟩ := h.known (h.orderly.sound.linked.parent_live hq) t ht p hp hq
  obtain ⟨r, hwork, hplace, hconfig, _, hl, _⟩ :=
    (hseg b hb).of_mem h.orderly.sound.roster ht hid.symm
  rw [hwork] at hp
  have hp : p = r.place := List.mem_singleton.mp hp
  exact ⟨b, hb, hid, r, hwork, hp.symm, hplace, hconfig, by rw [hl, hp, hplace]⟩

/-- A held place in the segment of a booking is that of the booking's own run. -/
theorem own (h : Lined s c old es w) {seg : Booking F → List NodeId}
    (hkids : w.scene.tree.children c = old ++ (bookings s c es).flatMap seg)
    (hseg : ∀ b ∈ bookings s c es, Stands es w b (seg b)) (hb : b ∈ bookings s c es)
    (ht : t ∈ w.tasks) (hp : p ∈ t.work.places) (hm : p ∈ seg b)
    (hl : w.scene.tree.contains p) : t.id = b.task := by
  have hin : p ∈ w.scene.tree.children c := by
    rw [hkids]
    exact List.mem_append_right _ (List.mem_flatMap.mpr ⟨b, hb, hm⟩)
  obtain ⟨b', hb', hid, _, _, _, _, _, hsegb⟩ :=
    h.place hseg ht hp (h.orderly.sound.linked.link hin hl)
  have hcount := h.orderly.sound.linked.once (x := c) hl
  rw [hkids, List.count_append] at hcount
  have heq := eq_of_count (by omega) hb hb' hm (by simp [hsegb])
  exact (heq ▸ hid).symm

/-- The bookings of an act are new. -/
theorem booked_act (h : Lined s c old es w) (ha : a.Known w.scene.tree.next)
    (hspares : a.Spares w c) (hact : w.act s a = some w') :
    ((bookings s c (es ++ [(w, a)])).map Booking.task).Nodup ∧
      ∀ b ∈ bookings s c (es ++ [(w, a)]), b.task < w'.nextTask := by
  have hle := (shift_of_act h.orderly.sound ha hact).next_le
  rw [bookings_snoc]
  rcases books_of_act h.orderly.sound ha hspares hact with
    ⟨waiter, first, rs, hbooked, hbooks, _⟩ | ⟨hbooked, _⟩
  · rw [hbooked]
    constructor
    · rw [List.map_append, Booking.map_task_ofRuns]
      refine List.nodup_append.mpr ⟨h.nodup, List.nodup_range', ?_⟩
      rintro i hi j hj rfl
      obtain ⟨b, hb, rfl⟩ := List.mem_map.mp hi
      obtain ⟨k, _, hk⟩ := List.mem_range'.mp hj
      refine Nat.not_le.mpr (h.booked_lt b hb) (Nat.le_trans hbooks.fresh ?_)
      exact hk ▸ Nat.le_add_right _ _
    · intro b hb
      rcases List.mem_append.mp hb with hb | hb
      · exact Nat.lt_of_lt_of_le (h.booked_lt b hb) hle
      · obtain ⟨i, r, hr, rfl⟩ := Booking.mem_ofRuns.mp hb
        obtain ⟨hi, _⟩ := List.getElem?_eq_some_iff.mp hr
        exact Nat.lt_of_lt_of_le (Nat.add_lt_add_left hi first) hbooks.next
  · rw [hbooked, List.append_nil]
    exact ⟨h.nodup, fun b hb => Nat.lt_of_lt_of_le (h.booked_lt b hb) hle⟩

section

variable [LawfulMedium α]

/-- Whatever place is held in the container after an act was booked before or by the act. -/
theorem known_act (h : Lined s c old es w) (ha : a.Known w.scene.tree.next)
    (hspares : a.Spares w c) (hact : w.act s a = some w') (hc : w.scene.tree.contains c) :
    ∀ t ∈ w'.tasks, ∀ p ∈ t.work.places, w'.scene.tree.parent? p = some c →
      ∃ b ∈ bookings s c (es ++ [(w, a)]), b.task = t.id := by
  intro u hu p hp hq
  obtain ⟨seg, _, hseg⟩ := h.segments hc
  have hold : ∀ {v : Task F α}, v ∈ w.tasks → p ∈ v.work.places →
      ∃ b ∈ bookings s c (es ++ [(w, a)]), b.task = v.id ∧ v.work.IsRun := by
    intro v hv hpv
    obtain ⟨b, hb, hid, r, hwork, _⟩ :=
      h.place hseg hv hpv (h.orderly.parent_back ha hact hv hpv hq)
    refine ⟨b, ?_, hid, ⟨r, hwork⟩⟩
    rw [bookings_snoc]
    exact List.mem_append_left _ hb
  rcases (shift_of_act h.orderly.sound ha hact).origin h.orderly.sound.roster hu with
    ⟨v, hv, hvid, _, _, hpl⟩ | ⟨hge, _, hpl⟩
  · obtain ⟨b, hb, hid, _⟩ := hold hv (hpl p hp)
    exact ⟨b, hb, hid.trans hvid⟩
  · rcases hpl p hp with ⟨v, hv, hrun, hpv, _⟩ | ⟨_, hin⟩
    · obtain ⟨_, _, _, hr⟩ := hold hv hpv
      exact absurd hr hrun
    · rcases books_of_act h.orderly.sound ha hspares hact with
        ⟨waiter, first, rs, hbooked, hbooks, _⟩ | ⟨_, hcontainer, hgrows⟩
      · obtain ⟨i, r, hr, hid⟩ := hbooks.only u hu hge (List.ne_nil_of_mem hp)
        refine ⟨⟨first + i, waiter, r.place, r.config⟩, ?_, hid.symm⟩
        rw [bookings_snoc, hbooked]
        exact List.mem_append_right _ (Booking.mem_ofRuns.mpr ⟨i, r, hr, rfl⟩)
      · rcases hin with ⟨_, _, _, _, hm⟩ | ⟨v, hv, r, hstep, hwork, _, hout⟩
        · exact absurd (hm c hq) hcontainer
        · obtain ⟨ho, hgrow⟩ := hout c hq
          exact absurd ⟨v, r, ⟨hv, hwork, hstep⟩, ho, hgrow⟩ hgrows

/-- New bookings stand for themselves, after all that were there before. -/
theorem segments_booked (h : Lined s c old es w) (ha : a.Known w.scene.tree.next)
    (hspares : a.Spares w c) (hact : w.act s a = some w') (hc : w.scene.tree.contains c)
    (hc' : w'.scene.tree.contains c) {waiter first : TaskId} {rs : List (Run F α)}
    (hbooked : a.booked s c w = Booking.ofRuns waiter first rs)
    (hbooks : Books w w' c waiter first rs) (hends : ∀ t r o, ¬a.Ends w w' t r o) :
    ∃ seg : Booking F → List NodeId,
      w'.scene.tree.children c = old ++ (bookings s c (es ++ [(w, a)])).flatMap seg ∧
        ∀ b ∈ bookings s c (es ++ [(w, a)]), Stands (es ++ [(w, a)]) w' b (seg b) := by
  obtain ⟨seg, hkids, hseg⟩ := h.segments hc
  refine ⟨fun b => if b.task < w.nextTask then seg b else [b.place], ?_, ?_⟩
  · have hold : (bookings s c es).flatMap
        (fun b => if b.task < w.nextTask then seg b else [b.place]) =
        (bookings s c es).flatMap seg :=
      List.flatMap_congr fun b hb => if_pos (h.booked_lt b hb)
    have hnew : (Booking.ofRuns waiter first rs).flatMap
        (fun b => if b.task < w.nextTask then seg b else [b.place]) = rs.map Run.place := by
      have hplaces : (Booking.ofRuns waiter first rs).map Booking.place = rs.map Run.place :=
        Booking.map_place_ofRuns
      rw [← hplaces, List.map_eq_flatMap]
      refine List.flatMap_congr fun b hb => if_neg ?_
      obtain ⟨i, r, _, rfl⟩ := Booking.mem_ofRuns.mp hb
      exact Nat.not_lt.mpr (Nat.le_trans hbooks.fresh (Nat.le_add_right _ _))
    rw [bookings_snoc, hbooked, List.flatMap_append, hold, hnew, hbooks.takes.children hc, hkids,
      List.append_assoc]
  · intro b hb
    rw [bookings_snoc, hbooked] at hb
    rcases List.mem_append.mp hb with hb | hb
    · simp only [if_pos (h.booked_lt b hb)]
      refine (hseg b hb).kept h.orderly.sound ha hact (fun _ _ => hspares.child) hc' (fun x hx => ?_)
        fun t r o hend => absurd hend (hends t r o)
      rw [hkids]
      exact List.mem_append_right _ (List.mem_flatMap.mpr ⟨b, hb, hx⟩)
    · obtain ⟨i, r, hr, rfl⟩ := Booking.mem_ofRuns.mp hb
      simp only [if_neg (Nat.not_lt.mpr (Nat.le_trans hbooks.fresh (Nat.le_add_right first i)))]
      obtain ⟨t, ht, hid, howner, hwork⟩ := hbooks.started i r hr
      have hm := List.mem_of_getElem? hr
      exact .pending ht hid howner hwork rfl rfl
        (hid ▸ outcome_of_mem (h.orderly.sound.act ha hact).roster ht) (hbooks.takes.item r hm)
        (hbooks.takes.held r hm)

section Ending

variable {seg : Booking F → List NodeId} (h : Lined s c old es w) (hact : w.act s a = some w')
  (hkids : w.scene.tree.children c = old ++ (bookings s c es).flatMap seg)
  (hseg : ∀ b ∈ bookings s c es, Stands es w b (seg b))
include hkids

omit [LawfulMedium α] in
theorem listed_segment (hb : b ∈ bookings s c es) (hx : x ∈ seg b) :
    x ∈ w.scene.tree.children c := by
  rw [hkids]
  exact List.mem_append_right _ (List.mem_flatMap.mpr ⟨b, hb, hx⟩)

include h hact hseg

omit [LawfulMedium α] in
/-- A run that is skipped leaves its place behind as its segment. -/
theorem kept_segment_of_skips (hb : b ∈ bookings s c es) (hend : a.Ends w w' t r o)
    (hid : t.id = b.task) (hskip : w.scene.tree.parent? r.place = some c → o = .skipped) :
    Stands (es ++ [(w, a)]) w' b (seg b) := by
  have hsound := h.orderly.sound
  obtain ⟨r', hwork, hplace, _, _, hl, hitem, hheld⟩ := (hseg b hb).of_mem hsound.roster hend.1.1 hid
  rw [hend.1.2.1] at hwork
  cases hwork
  have hlisted : b.place ∈ w.scene.tree.children c :=
    listed_segment hkids hb (hl ▸ List.mem_cons_self)
  have hq : w.scene.tree.parent? r.place = some c :=
    hplace ▸ hsound.linked.link hlisted (Tree.get?_eq_some_live hitem)
  obtain rfl := hskip hq
  rw [hl]
  exact stands_of_skips hsound hact hend hid hplace hitem hheld

variable (ha : a.Known w.scene.tree.next) (hspares : a.Spares w c)
  (hc' : w'.scene.tree.contains c)
include ha hspares hc'

/-- The segment of a task that does not end stays as it is. -/
theorem kept_segment (hb : b ∈ bookings s c es)
    (hne : ∀ t r o, a.Ends w w' t r o → t.id ≠ b.task) : Stands (es ++ [(w, a)]) w' b (seg b) := by
  refine (hseg b hb).kept h.orderly.sound ha hact (fun _ _ => hspares.child) hc'
    (fun _ => listed_segment hkids hb) fun t r o hend => ⟨hne t r o hend, fun hm hl => ?_⟩
  refine hne t r o hend ?_
  exact h.own hkids hseg hb hend.1.1 (hend.1.2.1 ▸ List.mem_cons_self) hm hl

/-- A run that ends otherwise than skipped has a segment in its place. -/
theorem segments_filled (hend : a.Ends w w' t r o) (ho : o ≠ .skipped)
    (hq : w.scene.tree.parent? r.place = some c) :
    ∃ seg : Booking F → List NodeId,
      w'.scene.tree.children c = old ++ (bookings s c es).flatMap seg ∧
        ∀ b ∈ bookings s c es, Stands (es ++ [(w, a)]) w' b (seg b) := by
  have hsound := h.orderly.sound
  obtain ⟨b, hb, hid, r', hwork, _, hplace, hconfig, hsegb⟩ :=
    h.place hseg hend.1.1 (hend.1.2.1 ▸ List.mem_cons_self) hq
  rw [hend.1.2.1] at hwork
  cases hwork
  have hends : ∃ l, Stands (es ++ [(w, a)]) w' b l ∧
      w'.scene.tree.children c = Tree.putAt r.place l (w.scene.tree.children c) :=
    stands_of_ends hsound ha hact hend ho hq hc' hid.symm hplace hconfig
  obtain ⟨l, hstands, hkids'⟩ := hends
  refine ⟨fun b' => if b'.task = b.task then l else seg b', ?_, fun b' hb' => ?_⟩
  · -- The place stands once in the list, so that it is not found before its segment.
    have hone := hsound.linked.once (x := c) (Tree.live_of_parent hq)
    rw [hkids] at hone
    rw [hkids', hkids]
    exact putAt_segment l h.nodup hb hsegb hone
  · dsimp only
    split
    · rename_i heq
      rw [List.inj_on_of_nodup_map h.nodup hb' hb heq]
      exact hstands
    · rename_i hne
      refine h.kept_segment hact hkids hseg ha hspares hc' hb' fun t' r' o' hend' hid' => hne ?_
      obtain ⟨rfl, _, _⟩ := ends_unique hsound.roster hend hend'
      exact hid'.symm.trans hid.symm

end Ending

/-- Where nothing is booked, at most one segment changes, that of a run that ends. -/
theorem segments_ended (h : Lined s c old es w) (ha : a.Known w.scene.tree.next)
    (hspares : a.Spares w c) (hact : w.act s a = some w') (hc : w.scene.tree.contains c)
    (hc' : w'.scene.tree.contains c) (hcontainer : c ∉ a.containers w)
    (hgrows : ¬∃ t r, a.Steps w t r ∧ r.output? = some c ∧ r.grows) :
    ∃ seg : Booking F → List NodeId,
      w'.scene.tree.children c = old ++ (bookings s c es).flatMap seg ∧
        ∀ b ∈ bookings s c es, Stands (es ++ [(w, a)]) w' b (seg b) := by
  obtain ⟨seg, hkids, hseg⟩ := h.segments hc
  by_cases hend : ∃ t r o, a.Ends w w' t r o ∧ o ≠ .skipped ∧ w.scene.tree.parent? r.place = some c
  · obtain ⟨t, r, o, hend, ho, hq⟩ := hend
    exact h.segments_filled hact hkids hseg ha hspares hc' hend ho hq
  · refine ⟨seg, ?_, fun b hb => ?_⟩
    · rw [← hkids]
      refine (frame_of_act h.orderly.sound ha hact).children h.given hc' ?_
      rintro (hm | ⟨n, hn, hp⟩ | hgrow | ⟨t, r, o, he⟩)
      · exact hcontainer hm
      · exact hspares.children n (List.mem_append_left _ hn) hp
      · exact hgrows hgrow
      · exact hend ⟨t, r, o, he⟩
    · by_cases hown : ∃ t r o, a.Ends w w' t r o ∧ t.id = b.task
      · obtain ⟨t, r, o, he, hid⟩ := hown
        refine h.kept_segment_of_skips hact hkids hseg hb he hid fun hq => ?_
        exact Classical.byContradiction fun ho => hend ⟨t, r, o, he, ho, hq⟩
      · exact h.kept_segment hact hkids hseg ha hspares hc' hb fun t r o he hid =>
          hown ⟨t, r, o, he, hid⟩

/-- Every act that spares the container keeps its children in order. -/
theorem act (h : Lined s c old es w) (hp : a.IsProper w) (hspares : a.Spares w c)
    (hact : w.act s a = some w') : Lined s c old (es ++ [(w, a)]) w' := by
  have ha := hp.1
  have hfades := (frame_of_act h.orderly.sound ha hact).fades
  obtain ⟨hnodup, hlt⟩ := h.booked_act ha hspares hact
  refine ⟨h.orderly.act hp hact, Nat.lt_of_lt_of_le h.given hfades.next_le, hnodup, hlt,
    fun hc' => ?_, fun hc' => h.known_act ha hspares hact (hfades.live h.given hc')⟩
  have hc := hfades.live h.given hc'
  rcases books_of_act h.orderly.sound ha hspares hact with
    ⟨waiter, first, rs, hbooked, hbooks, hends⟩ | ⟨hbooked, hcontainer, hgrows⟩
  · exact h.segments_booked ha hspares hact hc hc' hbooked hbooks hends
  · rw [bookings_snoc, hbooked, List.append_nil]
    exact h.segments_ended ha hspares hact hc hc' hcontainer hgrows

end

end Lined

/-! The outcomes that a call answers with. -/

/-- The tasks of finished calls are gone. -/
def Closed (w : World F α) : Prop :=
  ∀ id ∈ w.finished, id < w.nextTask ∧ ∀ t ∈ w.tasks, t.id ≠ id

theorem Closed.act (hc : Closed w) (h : Sound w) (ha : a.Known w.scene.tree.next)
    (hact : w.act s a = some w') : Closed w' := by
  have hshift := shift_of_act h ha hact
  have hold : ∀ id ∈ w.finished, id < w'.nextTask ∧ ∀ u ∈ w'.tasks, u.id ≠ id := by
    intro id hid
    obtain ⟨hlt, hne⟩ := hc id hid
    refine ⟨Nat.lt_of_lt_of_le hlt hshift.next_le, fun u hu => ?_⟩
    rcases hshift.origin h.roster hu with ⟨v, hv, hvid, _⟩ | ⟨hge, _⟩
    · exact hvid ▸ hne v hv
    · exact Nat.ne_of_gt (Nat.lt_of_lt_of_le hlt hge)
  intro id hid
  rcases hshift.finished with heq | ⟨t, ht, heq, hgone⟩
  · exact hold id (heq ▸ hid)
  · rw [heq] at hid
    rcases List.mem_cons.mp hid with rfl | hid
    · exact ⟨Nat.lt_of_lt_of_le (h.roster.id_lt ht) hshift.next_le, hgone⟩
    · exact hold id hid

theorem call_render (v : World F α) (raw : RawConfig F) (data context : Value) :
    (v.render s c raw data context).2.call = v.nextTask :=
  (sameTasks_takeUpAll (w := v) c ⟨data, context, none⟩ (raw.normalize s.engine)).next

section

variable [LawfulMedium α]

end

end World

end Montage
