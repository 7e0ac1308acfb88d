import Montage.Proofs.Render.Tasks

/-!
What nodes show while tasks paint. Main statements: a task that goes on leaves on its output what its job
draws, a task that ends leaves in its place what its job leaves behind, and whatever stands apart shows
what it showed.
-/

namespace Montage

open Json (Value)

variable {F α : Type}

/-- What nodes are held for. -/
abbrev Holding (α : Type) := NodeId → Option (List (Rose α))

namespace Tree

variable {t t' : Tree α} {held held' : Holding α} {f : List (Rose α)} {x : NodeId}

/-- A live node that is not held shows one tree. -/
theorem Shows.single_cases (h : Shows t held [x] f) (free : held x = none) :
    (t.get? x = none ∧ f = []) ∨
      ∃ v kids, t.get? x = some v ∧ Shows t held (t.children x) kids ∧ f = [.node v kids] := by
  cases h with
  | held hx rest =>
    rw [free] at hx
    cases hx
  | gone _ hx rest =>
    cases rest
    exact .inl ⟨hx, rfl⟩
  | node _ item below rest =>
    cases rest
    exact .inr ⟨_, _, item, below, rfl⟩

end Tree

variable [Medium α]

/-! Tasks that go on. -/

namespace Draws

variable {sc sc' : Scene F α} {old new : Work F α} {works : List (Work F α)}
  {draw : List (Rose α) → List (Rose α) → List (Rose α)} {held held' : Holding α}
  {f draft shown : List (Rose α)} {o x : NodeId}

/-- Only the own output of a task grows or changes. -/
theorem grown (h : Draws sc sc' old new works draw) (hl : sc.tree.Linked) :
    ∃ e, Tree.Grown e sc.tree sc'.tree ∧ ∀ o, e = some o → old.output? = some o := by
  cases h with
  | keeps tree output same places => exact ⟨none, tree ▸ .refl hl none, by simp⟩
  | begins v tree fresh output draws alone => exact ⟨none, tree ▸ .create hl v, by simp⟩
  | marks o f before after tree draws alone =>
    exact ⟨some o, tree ▸ .modify hl o f, fun _ he => Option.some.inj he ▸ before⟩
  | grows o ids extra before after grown items kids places adds draws =>
    exact ⟨some o, grown, fun _ he => Option.some.inj he ▸ before⟩

/-- A task keeps its output, and otherwise may only have a new one. -/
theorem output (h : Draws sc sc' old new works draw) : (∀ o, old.output? = some o →
    new.output? = some o) ∧ ∀ o, new.output? = some o → old.output? = some o ∨ o = sc.tree.next := by
  cases h with
  | keeps tree output same works => exact ⟨fun o ho => output.trans ho, fun o ho => .inl (output ▸ ho)⟩
  | begins v tree fresh output draws alone =>
    refine ⟨fun o ho => ?_, fun o ho => ?_⟩
    · rw [fresh] at ho
      cases ho
    · rw [output] at ho
      exact .inr (Option.some.inj ho).symm
  | marks o f before after tree draws alone =>
    exact ⟨fun _ ho => after.trans (before.symm.trans ho),
      fun _ ho => .inl (before.trans (after.symm.trans ho))⟩
  | grows o ids extra before after grown items kids places adds draws =>
    exact ⟨fun _ ho => after.trans (before.symm.trans ho),
      fun _ ho => .inl (before.trans (after.symm.trans ho))⟩

/-- The places of new tasks are those of the batch they come from, or new ones in the output. -/
theorem new_places (h : Draws sc sc' old new works draw) (hx : x ∈ works.flatMap Work.places) :
    x ∈ old.places ∨ sc.tree.next ≤ x ∧ sc'.tree.get? x = some Medium.reserved ∧
      sc'.tree.children x = [] ∧ ∀ q, sc'.tree.parent? x = some q → new.output? = some q := by
  cases h with
  | keeps tree output same works =>
    rcases works with rfl | ⟨rs, rfl, rfl⟩
    · cases hx
    · rw [World.places_runs] at hx
      exact .inl hx
  | begins v tree fresh output draws alone =>
    subst alone
    cases hx
  | marks o f before after tree draws alone =>
    subst alone
    cases hx
  | grows o ids extra before after grown items kids places adds draws =>
    obtain ⟨hge, _, hitem, hbare, hparent⟩ := places x hx
    exact .inr ⟨hge, hitem, hbare, fun q hq => hparent q hq ▸ after⟩

/-- Nodes that stand apart from the output of a task show what they showed. -/
theorem shows_other {ids : List NodeId} (h : Draws sc sc' old new works draw) (hl : sc.tree.Linked)
    (apart : ∀ o x, old.output? = some o → o ∉ sc.tree.children x)
    (hs : sc.tree.Shows held ids f) (hids : ∀ x ∈ ids, x < sc.tree.next ∧ old.output? ≠ some x)
    (same : ∀ y < sc.tree.next, held' y = held y) : sc'.tree.Shows held' ids f := by
  obtain ⟨e, hgrown, he⟩ := h.grown hl
  refine hgrown.shows hs (fun x hx => ⟨(hids x hx).1, fun hex => ?_⟩) (fun y c hc => ?_) same
  · exact (hids x hx).2 (he x hex)
  · exact apart c y (he c hc)

/-- The output of a task shows what its job draws. -/
theorem shows_own (h : Draws sc sc' old new works draw) (hl : sc.tree.Linked)
    (ho : ∀ o, old.output? = some o → o < sc.tree.next)
    (apart : ∀ o x, old.output? = some o → o ∉ sc.tree.children x)
    (hs : ∀ o, old.output? = some o → sc.tree.Shows held [o] draft)
    (free : ∀ o, old.output? = some o → held o = none)
    (same : ∀ y < sc.tree.next, held' y = held y)
    (hnew : ∀ x, sc.tree.next ≤ x → x ∉ works.flatMap Work.places → held' x = none)
    (hshown : sc'.tree.Shows held' (works.flatMap Work.places) shown)
    (hout : new.output? = some o) : sc'.tree.Shows held' [o] (draw draft shown) := by
  cases h with
  | keeps tree output same' places =>
    have hold : old.output? = some o := output ▸ hout
    rw [same' (by simp [hout])]
    refine (hs o hold).congr (P := (· < sc.tree.next)) ?_ ?_ ?_ ?_ same
    · simpa using ho o hold
    · exact fun x _ _ c hc => hl.listed_lt hc
    · exact fun x _ _ => by rw [tree]
    · exact fun x _ _ => by rw [tree]
  | begins v tree fresh output draws alone =>
    rw [hout] at output
    cases output
    rw [draws, tree]
    refine .node (hnew _ (Nat.le_refl _) (by simp [alone])) ?_ ?_ .nil
    · rw [Tree.get?_create, if_pos rfl]
    · rw [Tree.children_create, if_pos rfl]
      exact .nil
  | marks o' f before after tree draws alone =>
    rw [hout] at after
    cases after
    have hlt := ho o before
    have hfree := (same o hlt).trans (free o before)
    rw [draws, tree]
    rcases (hs o before).single_cases (free o before) with ⟨hgone, rfl⟩ | ⟨v, kids, hv, hkids, rfl⟩
    · refine .gone hfree ?_ .nil
      rw [Tree.get?_modify, if_pos rfl, hgone]
      rfl
    · refine .node hfree ?_ ?_ .nil
      · rw [Tree.get?_modify, if_pos rfl, hv]
        rfl
      · rw [Tree.children_modify]
        refine (Tree.Grown.modify hl o f).shows hkids (fun x hx => ⟨hl.listed_lt hx, ?_⟩) ?_ same
        · rintro ⟨⟩
          exact apart _ _ before hx
        · rintro x _ ⟨⟩
          exact apart _ _ before
  | grows o' ids extra before after grown items kids places adds draws =>
    rw [hout] at after
    cases after
    have hlt := ho o before
    have hfree := (same o hlt).trans (free o before)
    rw [draws]
    rcases (hs o before).single_cases (free o before) with ⟨hgone, rfl⟩ | ⟨v, kids', hv, hkids, rfl⟩
    · exact .gone hfree ((items o hlt).trans hgone) .nil
    · have hlive := Tree.get?_eq_some_live hv
      refine .node hfree ((items o hlt).trans hv) ?_ .nil
      rw [kids hlive]
      refine Tree.Shows.append ?_ (adds held' shown hnew hshown hlive)
      refine grown.shows hkids (fun x hx => ⟨hl.listed_lt hx, ?_⟩) ?_ same
      · rintro ⟨⟩
        exact apart _ _ before hx
      · rintro x _ ⟨⟩
        exact apart _ _ before

end Draws

/-! Tasks that end. -/

namespace Scene

variable {s : Scene F α} {held : Holding α} {ids : List NodeId}
  {f g draft : List (Rose α)} {n o p : NodeId}

/-- What is put in a place shows there what the place was held for. -/
theorem shows_splice (hl : s.tree.Linked) (hp : s.tree.contains p) (hlt : p < n)
    (hroot : s.tree.parent? n = none) (hn : n < s.tree.next)
    (apart : ∀ x, n ∉ s.tree.children x) (hs : s.tree.Shows held ids f)
    (hids : ∀ x ∈ ids, x ≠ p ∧ ¬s.tree.Under p x ∧ ¬s.tree.Under n x) (due : held p = some g)
    (hg : s.tree.Shows held (s.placed n) g) :
    (s.splice p n).1.tree.Shows (Function.update held p none) ids f := by
  cases hq : s.tree.parent? p with
  | none =>
    rw [splice_of_detached hq]
    have hpruned := Tree.Pruned.remove hl n
    have hmid : (s.tree.remove n).1.Shows held ids f :=
      hpruned.shows hroot apart hs (fun x hx => (hids x hx).2.2) fun _ _ => rfl
    -- Nothing lists the place.
    refine hmid.congr (P := (· ≠ p)) (fun x hx => (hids x hx).1) ?_ (fun _ _ _ => rfl)
      (fun _ _ _ => rfl) fun x hx => Function.update_of_ne hx none held
    rintro x _ _ c hc rfl
    have hlive : (s.tree.remove n).1.contains c :=
      hpruned.live.mpr ⟨hp, fun hu => Nat.not_lt.mpr (hl.le_of_under hu) hlt⟩
    have hparent := hpruned.after.link hc hlive
    rw [hpruned.parent hlive, hq] at hparent
    cases hparent
  | some q =>
    obtain ⟨-, hspliced⟩ := splice_of_ready ⟨hl, hq, hroot, hlt, hn⟩
    rw [placed_eq_offered] at hg
    have hshows := hspliced.shows apart hs (fun x hx => ⟨(hids x hx).2.2, .inr (hids x hx).2.1⟩) due
      (Function.update_self p none held) (fun y hy => Function.update_of_ne hy none held) hg
    have hsame : (ids.flatMap fun c => if c = p then
        s.tree.offered (s.isFragment n) n else [c]) = ids.flatMap fun c => [c] := by
      simp only [List.flatMap_def]
      exact congrArg List.flatten (List.map_congr_left fun x hx => if_neg (hids x hx).1)
    rw [hsame, List.flatMap_singleton'] at hshows
    exact hshows

/-- A skipped place shows its trace. -/
theorem shows_skip (hitem : s.tree.get? p = some Medium.reserved)
    (hbare : s.tree.children p = []) (hs : s.tree.Shows held ids f)
    (due : held p = some [.node (Medium.skip Medium.reserved) []]) :
    (s.skip p).tree.Shows (Function.update held p none) ids f := by
  have hshows : (s.skip p).tree.Shows (Function.update held p none)
      (ids.flatMap fun x => [x]) f := by
    refine hs.replaced (P := fun _ => True) (by simp) (by simp) (fun x _ hx => ?_)
      (fun x _ _ => ?_) (fun x _ hx => ?_) fun x f' _ hx => ?_
    · have hne : x ≠ p := fun he => by simp [he, due] at hx
      exact Tree.get?_modify.trans (if_neg hne)
    · rw [List.flatMap_singleton']
      exact Tree.children_modify
    · have hne : x ≠ p := fun he => by simp [he, due] at hx
      exact ⟨(Function.update_of_ne hne none held).trans hx, rfl⟩
    · by_cases he : x = p
      · subst he
        rw [due] at hx
        cases hx
        refine .node (Function.update_self x none held) ?_ ?_ .nil
        · exact (Tree.get?_modify.trans (if_pos rfl)).trans (by rw [hitem]; rfl)
        · have hkids : (s.skip x).tree.children x = [] := Tree.children_modify.trans hbare
          rw [hkids]
          exact .nil
      · exact List.append_nil f' ▸ .held ((Function.update_of_ne he none held).trans hx) .nil
  rwa [List.flatMap_singleton'] at hshows

/-- What classes make of an output. -/
theorem get?_decorate (settings : Settings) (view : Option String) (pr : Prepared F)
    (context : Value) : (s.decorate settings view o pr context).tree.get? o =
      if s.isFragment o then s.tree.get? o
      else (s.tree.get? o).map fun v =>
        (classesOf settings view pr.classes).foldl (fun v c => Medium.addClass c v) v := by
  have hfold : ∀ (cs : List String) (t : Tree α),
      (cs.foldl (fun t c => t.modify o (Medium.addClass c)) t).get? o =
        (t.get? o).map fun v => cs.foldl (fun v c => Medium.addClass c v) v := by
    intro cs
    induction cs with
    | nil => simp
    | cons c cs ih =>
      intro t
      rw [List.foldl_cons, ih, Tree.get?_modify, if_pos rfl, Option.map_map]
      rfl
  have hclasses : ∀ cs, (s.addClasses o cs).tree.get? o =
      if s.isFragment o then s.tree.get? o
      else (s.tree.get? o).map fun v => cs.foldl (fun v c => Medium.addClass c v) v := by
    intro cs
    unfold addClasses
    split
    · rfl
    · exact hfold cs s.tree
  unfold decorate
  cases (Fields.get? pr.props "tooltip").bind (Tooltip.ofProp · pr.data context) with
  | none => exact hclasses _
  | some tip => exact hclasses _

variable [LawfulMedium α]

/-- An error in a place shows what the place was held for, if that is the error. -/
theorem shows_fill (e : Error) (offending : Option Value) (hl : s.tree.Linked)
    (hp : s.tree.contains p) (hs : s.tree.Shows held ids f)
    (hids : ∀ x ∈ ids, x < s.tree.next ∧ x ≠ p ∧ ¬s.tree.Under p x)
    (hfree : ∀ x, s.tree.next ≤ x → held x = none)
    (due : held p = some [Medium.failure e offending]) :
    (s.fillWithError p e offending).tree.Shows (Function.update held p none) ids f := by
  have hfrag := LawfulMedium.isFragment_failure (α := α) e offending
  unfold fillWithError
  generalize Medium.failure (α := α) e offending = r at hfrag due
  have hshown := Tree.shows_grow r hl hfree
  obtain ⟨item, rs⟩ := r
  obtain ⟨hn, hroot⟩ := Tree.grow_root item rs hl
  have hplt := hl.live_lt hp
  simp only [hn]
  refine shows_splice (s := { s with tree := (s.tree.grow (.node item rs)).1 })
    hroot.grown.after (hroot.grown.lives hp) hplt hroot.parent
    (hroot.grown.after.live_lt hroot.live) (fun x hm => ?_)
    (hroot.grown.shows hs (fun x hx => ⟨(hids x hx).1, by simp⟩) (by simp) fun _ _ => rfl)
    (fun x hx => ⟨(hids x hx).2.1, fun hu => ?_, fun hu => ?_⟩) due ?_
  · have hparent := hroot.grown.after.link hm hroot.live
    rw [hroot.parent] at hparent
    cases hparent
  · exact (hids x hx).2.2 (hroot.grown.steady.path_back hu (hids x hx).1)
  · exact Nat.not_lt.mpr (hroot.grown.after.le_of_under hu) (hids x hx).1
  · have hplain : placed { s with tree := (s.tree.grow (.node item rs)).1 } s.tree.next =
        [s.tree.next] := by
      unfold placed
      rw [if_neg]
      simp only [isFragment, hroot.item, Option.map_some, Option.getD_some]
      exact Bool.eq_false_iff.mp hfrag
    rw [hplain]
    exact hshown

/-- A finished output shows in its place what its draft settles to. -/
theorem shows_finish (settings : Settings) (view : Option String) (pr : Prepared F)
    (context : Value) (prov : Provenance F) {left : Rose α → List (Rose α)}
    (hleft : ∀ v kids, left (.node v kids) = if Medium.isFragment v then kids
      else [.node ((classesOf settings view pr.classes).foldl (fun v c => Medium.addClass c v) v)
        kids])
    (hl : s.tree.Linked) (hp : s.tree.contains p) (hlt : p < o)
    (hroot : s.tree.parent? o = none) (ho : o < s.tree.next)
    (apart : ∀ x, o ∉ s.tree.children x) (hs : s.tree.Shows held ids f)
    (hids : ∀ x ∈ ids, x < s.tree.next ∧ x ≠ p ∧ ¬s.tree.Under p x ∧ ¬s.tree.Under o x)
    (hdraft : s.tree.Shows held [o] draft) (free : held o = none)
    (due : held p = some (draft.flatMap left)) :
    ((s.decorate settings view o pr context).finish p o prov).tree.Shows
      (Function.update held p none) ids f := by
  obtain ⟨hkids, hfrag⟩ := decorate_frame (s := s) (o := o) settings view pr context
  have hself := get?_decorate (s := s) (o := o) settings view pr context
  have hgrown := (Grown.decorate (s := s) (o := o) hl settings view pr context).tree
  rw [(finish_frame _ p o prov).1]
  generalize s.decorate settings view o pr context = s₁ at hkids hfrag hself hgrown ⊢
  have hmove : ∀ {ids f}, s.tree.Shows held ids f →
      (∀ x ∈ ids, x < s.tree.next ∧ x ≠ o) → s₁.tree.Shows held ids f := by
    intro ids f hs hids
    refine hgrown.shows hs (fun x hx => ⟨(hids x hx).1, ?_⟩) ?_ fun _ _ => rfl
    · rintro ⟨⟩
      exact (hids _ hx).2 rfl
    · rintro x _ ⟨⟩
      exact apart x
  refine shows_splice hgrown.after (hgrown.lives hp) hlt ((hgrown.parent ho).trans hroot)
    (Nat.lt_of_lt_of_le ho hgrown.next_le) (fun x => (hkids x).symm ▸ apart x) (hmove hs ?_) ?_ due ?_
  · exact fun x hx => ⟨(hids x hx).1, fun he => (hids x hx).2.2.2 (he ▸ .self)⟩
  · intro x hx
    obtain ⟨hxlt, hxp, hup, huo⟩ := hids x hx
    exact ⟨hxp, fun hu => hup (hgrown.steady.path_back hu hxlt),
      fun hu => huo (hgrown.steady.path_back hu hxlt)⟩
  · unfold placed
    rw [hfrag o, hkids o]
    rcases hdraft.single_cases free with ⟨hgone, rfl⟩ | ⟨v, kids, hv, hkids', rfl⟩
    · have hnone : s.isFragment o = false := by simp [isFragment, hgone]
      rw [hnone, hgone] at hself
      rw [hnone]
      exact .gone free hself .nil
    · have hv' : s.isFragment o = Medium.isFragment v := by simp [isFragment, hv]
      rw [hv', hv] at hself
      rw [hv', List.flatMap_singleton, hleft]
      have hbelow := hmove hkids' fun x hx => ⟨hl.listed_lt hx, fun he => apart o (he ▸ hx)⟩
      cases hfv : Medium.isFragment v with
      | true => exact hbelow
      | false =>
        rw [hfv] at hself
        refine .node free hself ?_ .nil
        rw [hkids o]
        exact hbelow

end Scene

/-- Held nodes that are held no more. -/
def Holding.without (held : Holding α) (places : List NodeId) : Holding α :=
  fun x => if x ∈ places then none else held x

omit [Medium α] in
theorem Holding.without_singleton (held : Holding α) (p : NodeId) :
    held.without [p] = Function.update held p none := by
  funext x
  by_cases hx : x = p
  · rw [hx, Function.update_self]
    exact if_pos (List.mem_singleton.mpr rfl)
  · rw [Function.update_of_ne hx]
    exact if_neg fun hm => hx (List.mem_singleton.mp hm)

omit [Medium α] in
/-- Nothing stands under a node without children. -/
theorem Tree.Linked.eq_of_bare {t : Tree α} {p x : NodeId} (h : t.Linked) (hbare : t.children p = [])
    (hu : t.Under p x) : p = x := by
  induction hu with
  | self => rfl
  | step above link ih =>
    subst ih
    have hm := h.listed link
    rw [hbare] at hm
    cases hm

/-- When a task ends, its place shows what it was held for, and what stands apart what it showed. -/
theorem Leaves.shows {s : Setup F α} [LawfulMedium α] {sc sc' : Scene F α} {old : Work F α}
    {left : List (Rose α) → List (Rose α)} {held : Holding α} {ids : List NodeId}
    {f draft : List (Rose α)} (h : Leaves s sc sc' old left) (hl : sc.tree.Linked)
    (hs : sc.tree.Shows held ids f)
    (hids : ∀ x ∈ ids, x < sc.tree.next ∧ x ∉ old.places ∧
      ∀ o, old.output? = some o → ¬sc.tree.Under o x)
    (hplace : ∀ p ∈ old.places,
      sc.tree.get? p = some Medium.reserved ∧ sc.tree.children p = [])
    (hout : ∀ o, old.output? = some o → sc.tree.parent? o = none ∧ o < sc.tree.next ∧
      (∀ x, o ∉ sc.tree.children x) ∧ held o = none ∧ sc.tree.Shows held [o] draft ∧
        ∀ p ∈ old.places, p < o)
    (hfree : ∀ x, sc.tree.next ≤ x → held x = none)
    (due : ∀ r, old = .run r → held r.place = some (left draft)) :
    sc'.tree.Shows (held.without old.places) ids f := by
  have hrun : ∀ r, old = .run r → sc.tree.contains r.place ∧
      sc.tree.get? r.place = some Medium.reserved ∧ sc.tree.children r.place = [] ∧
      held.without old.places = Function.update held r.place none ∧
      ∀ x ∈ ids, x < sc.tree.next ∧ x ≠ r.place ∧ ¬sc.tree.Under r.place x := by
    rintro r rfl
    obtain ⟨hitem, hbare⟩ := hplace r.place List.mem_cons_self
    refine ⟨Tree.get?_eq_some_live hitem, hitem, hbare, held.without_singleton _, fun x hx => ?_⟩
    obtain ⟨hlt, hne, _⟩ := hids x hx
    have hne : x ≠ r.place := fun he => hne (List.mem_singleton.mpr he)
    exact ⟨hlt, hne, fun hu => hne (hl.eq_of_bare hbare hu).symm⟩
  cases h with
  | closes places output tree =>
    rw [places]
    refine hs.congr (P := fun _ => True) (by simp) (by simp) ?_ ?_ fun x _ => ?_
    · exact fun _ _ _ => by rw [tree]
    · exact fun _ _ _ => by rw [tree]
    · exact if_neg (by simp)
  | skips r work fresh scene leaves =>
    obtain ⟨_, hitem, hbare, hheld, _⟩ := hrun r work
    rw [hheld, scene]
    exact Scene.shows_skip hitem hbare hs ((due r work).trans (by rw [leaves]))
  | fills r e offending work fresh scene leaves =>
    obtain ⟨hp, _, _, hheld, hx⟩ := hrun r work
    rw [hheld, scene]
    exact Scene.shows_fill e offending hl hp hs hx hfree ((due r work).trans (by rw [leaves]))
  | abandons r o e work painting scene leaves =>
    obtain ⟨hp, _, _, hheld, hx⟩ := hrun r work
    have hold : old.output? = some o := work ▸ painting
    obtain ⟨hroot, _, apart, _, _, hlt⟩ := hout o hold
    have hpo : r.place < o := hlt r.place (work ▸ List.mem_cons_self)
    have hpruned := Tree.Pruned.remove hl o
    rw [hheld, scene]
    refine Scene.shows_fill (s := sc.discard o) e none hpruned.after
      (hpruned.live.mpr ⟨hp, fun hu => Nat.not_lt.mpr (hl.le_of_under hu) hpo⟩)
      (hpruned.shows hroot apart hs (fun x hm => (hids x hm).2.2 o hold) fun _ _ => rfl)
      (fun x hm => ?_) (fun x hge => hfree x (hpruned.next ▸ hge))
      ((due r work).trans (by rw [leaves]))
    obtain ⟨hxlt, hne, hup⟩ := hx x hm
    exact ⟨hpruned.next.symm ▸ hxlt, hne, fun hu => hup (hpruned.steady.path_back hu hxlt)⟩
  | completes r o p work painting scene leaves =>
    obtain ⟨hp, _, _, hheld, hx⟩ := hrun r work
    have hold : old.output? = some o := work ▸ painting
    obtain ⟨hroot, ho, apart, hnone, hdraft, hlt⟩ := hout o hold
    rw [hheld, scene]
    exact Scene.shows_finish s.settings r.resolved.name? p r.context (r.provenance p)
      (fun _ _ => rfl) hl hp (hlt r.place (work ▸ List.mem_cons_self)) hroot ho apart hs
      (fun x hm => ⟨(hx x hm).1, (hx x hm).2.1, (hx x hm).2.2, (hids x hm).2.2 o hold⟩) hdraft hnone
      ((due r work).trans (by rw [leaves]))

/-- Whatever a task that ends leaves in its place, what stands apart from it shows what it showed. -/
theorem Leaves.shows_apart {s : Setup F α} [LawfulMedium α] {sc sc' : Scene F α} {old : Work F α}
    {left : List (Rose α) → List (Rose α)} {held : Holding α} {ids : List NodeId}
    {f : List (Rose α)} (h : Leaves s sc sc' old left) (hl : sc.tree.Linked)
    (hs : sc.tree.Shows held ids f)
    (hids : ∀ x ∈ ids, x < sc.tree.next ∧ (∀ p ∈ old.places, ¬sc.tree.Under x p) ∧
      ∀ o, old.output? = some o → ¬sc.tree.Under o x)
    (hplace : ∀ p ∈ old.places,
      sc.tree.get? p = some Medium.reserved ∧ sc.tree.children p = [] ∧ held p = none)
    (hout : ∀ o, old.output? = some o → sc.tree.parent? o = none ∧ o < sc.tree.next ∧
      (∀ x, o ∉ sc.tree.children x) ∧ held o = none ∧ ∀ p ∈ old.places, p < o)
    (hfree : ∀ x, sc.tree.next ≤ x → held x = none) : sc'.tree.Shows held ids f := by
  have hbare : ∀ p ∈ old.places,
      sc.tree.get? p = some Medium.reserved ∧ sc.tree.children p = [] :=
    fun p hp => ⟨(hplace p hp).1, (hplace p hp).2.1⟩
  have hself : ∀ x ∈ ids, x < sc.tree.next ∧ x ∉ old.places ∧
      ∀ o, old.output? = some o → ¬sc.tree.Under o x := fun x hx =>
    ⟨(hids x hx).1, fun hm => (hids x hx).2.1 x hm .self, (hids x hx).2.2⟩
  have hdraft : ∃ draft, ∀ o, old.output? = some o → sc.tree.Shows held [o] draft := by
    cases ho : old.output? with
    | none => exact ⟨[], nofun⟩
    | some o =>
      obtain ⟨draft, hd⟩ := Tree.Shows.exists_of_linked hl held [o]
      exact ⟨draft, fun o' ho' => Option.some.inj ho' ▸ hd⟩
  obtain ⟨draft, hdraft⟩ := hdraft
  have hwithout : held.without old.places = held := by
    funext x
    by_cases hx : x ∈ old.places
    · exact (if_pos hx).trans (hplace x hx).2.2.symm
    · exact if_neg hx
  rcases Classical.em (∃ r, old = .run r) with ⟨r, rfl⟩ | hrun
  · -- For once the place is held for what will be left there.
    obtain ⟨hitem, _, hnone⟩ := hplace r.place List.mem_cons_self
    have hlive := Tree.get?_eq_some_live hitem
    let held' : Holding α := Function.update held r.place (some (left draft))
    have hsame : ∀ x, x ≠ r.place → held' x = held x := fun x hx => Function.update_of_ne hx ..
    have hback : held'.without (Work.run r).places = held := by
      refine Eq.trans ?_ hwithout
      funext x
      by_cases hx : x = r.place
      · exact (if_pos (List.mem_singleton.mpr hx)).trans (if_pos (List.mem_singleton.mpr hx)).symm
      · rw [Holding.without, Holding.without, hsame x hx]
    rw [← hback]
    have hdue : ∀ r', Work.run r = .run r' → held' r'.place = some (left draft) := by
      rintro r' ⟨⟩
      exact Function.update_self ..
    refine h.shows hl ?_ hself hbare (fun o ho => ?_) (fun x hx => ?_) hdue
    · exact hs.of_apart hl hlive (fun x hx => (hids x hx).2.1 _ List.mem_cons_self) hsame
    · obtain ⟨hroot, hlt, apart, ho', hplaces⟩ := hout o ho
      have hne := Nat.ne_of_gt (hplaces _ List.mem_cons_self)
      refine ⟨hroot, hlt, apart, (hsame o hne).trans ho', ?_, hplaces⟩
      refine (hdraft o ho).of_apart hl hlive (fun x hx hu => ?_) hsame
      rw [List.mem_singleton.mp hx] at hu
      exact Nat.not_lt.mpr (hl.le_of_under hu) (hplaces _ List.mem_cons_self)
    · exact (hsame x (Nat.ne_of_gt (Nat.lt_of_lt_of_le (hl.live_lt hlive) hx))).trans (hfree x hx)
  · rw [← hwithout]
    exact h.shows hl hs hself hbare
      (fun o ho => ⟨(hout o ho).1, (hout o ho).2.1, (hout o ho).2.2.1, (hout o ho).2.2.2.1, hdraft o ho,
        (hout o ho).2.2.2.2⟩) hfree fun r hr => absurd ⟨r, hr⟩ hrun

end Montage
