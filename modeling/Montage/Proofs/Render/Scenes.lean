import Montage.Proofs.Arena.Replacement
import Montage.Proofs.Render.Media
import Montage.Render.Scene

/-!
What the operations of a scene do to its tree and to what is known about its nodes, one statement for
each operation.
-/

namespace Montage.Scene

variable {F α : Type} {s s' s'' : Scene F α} {n o p q x : NodeId}

/-! Removing. -/

@[simp] theorem tree_remove : (s.remove n).1.tree = (s.tree.remove n).1 := rfl

theorem get?_clicks_remove : (s.remove n).1.clicks.get? x =
    if x ∈ (s.tree.remove n).2 then none else s.clicks.get? x :=
  Table.get?_forget ..

theorem clicks_of_remove {c : Click F} (h : (s.remove n).1.clicks.get? x = some c) :
    s.clicks.get? x = some c := by
  rw [get?_clicks_remove] at h
  split at h
  · cases h
  · exact h

theorem get?_clicks_discard : (s.discard n).clicks.get? x =
    if x ∈ (s.tree.remove n).2 then none else s.clicks.get? x :=
  Table.get?_forget ..

theorem clicks_of_discard {c : Click F} (h : (s.discard n).clicks.get? x = some c) :
    s.clicks.get? x = some c :=
  clicks_of_remove h

theorem get?_tooltips_discard : (s.discard n).tooltips.get? x =
    if x ∈ (s.tree.remove n).2 then none else s.tooltips.get? x :=
  Table.get?_forget ..

theorem get?_places_discard : (s.discard n).places.get? x =
    if x ∈ (s.tree.remove n).2 then none else s.places.get? x :=
  Table.get?_forget ..

theorem get?_provenance_discard : (s.discard n).provenance.get? x =
    if x ∈ (s.tree.remove n).2 then none else s.provenance.get? x :=
  Table.get?_forget ..

/-! Putting an output in its place. -/

variable [Medium α]

theorem placed_eq_offered : s.placed o = s.tree.offered (s.isFragment o) o := rfl

/-- An output puts its children in its place, or itself. -/
theorem placed_cases (h : x ∈ s.placed o) :
    (s.isFragment o = true ∧ x ∈ s.tree.children o) ∨ x = o := by
  rw [placed_eq_offered, Tree.offered] at h
  split at h
  · exact .inl ⟨‹_›, h⟩
  · exact .inr (List.mem_singleton.mp h)

theorem isFragment_of_item (h : s'.tree.get? o = s.tree.get? o) :
    s'.isFragment o = s.isFragment o := by
  simp [isFragment, h]

theorem isFragment_of_dead (h : ¬s.tree.contains o) : s.isFragment o = false := by
  cases hv : s.tree.get? o with
  | none => simp [isFragment, hv]
  | some v => exact absurd (Tree.get?_eq_some_live hv) h

/-- Without an attached place, the output is removed. -/
theorem splice_of_detached (h : s.tree.parent? p = none) :
    s.splice p o = ((s.remove o).1, []) := by
  simp [splice, Tree.replace_of_no_parent h]

/-- What a splice does not touch. -/
theorem splice_frame (s : Scene F α) (p o : NodeId) : (s.splice p o).1.places = s.places ∧
    (s.splice p o).1.provenance = s.provenance := by
  simp only [splice]
  split
  · split <;> exact ⟨rfl, rfl⟩
  · exact ⟨rfl, rfl⟩

/-- Clicks and tooltips are lost together, and none is bound. -/
theorem splice_forgets (s : Scene F α) (p o : NodeId) : ∃ gone : List NodeId, ∀ x,
    (s.splice p o).1.clicks.get? x = (if x ∈ gone then none else s.clicks.get? x) ∧
    (s.splice p o).1.tooltips.get? x = if x ∈ gone then none else s.tooltips.get? x := by
  have hone : ∀ (s : Scene F α) n x,
      (s.remove n).1.clicks.get? x = (if x ∈ (s.remove n).2 then none else s.clicks.get? x) ∧
      (s.remove n).1.tooltips.get? x = if x ∈ (s.remove n).2 then none else s.tooltips.get? x :=
    fun s n x => ⟨Table.get?_forget .., Table.get?_forget ..⟩
  have htwo : ∀ (s : Scene F α) m n, ∃ gone : List NodeId, ∀ x,
      ((s.remove m).1.remove n).1.clicks.get? x =
        (if x ∈ gone then none else s.clicks.get? x) ∧
      ((s.remove m).1.remove n).1.tooltips.get? x =
        if x ∈ gone then none else s.tooltips.get? x := by
    intro s m n
    refine ⟨(s.remove m).2 ++ ((s.remove m).1.remove n).2, fun x => ?_⟩
    obtain ⟨hc, ht⟩ := hone s m x
    obtain ⟨hc', ht'⟩ := hone (s.remove m).1 n x
    rw [hc', hc, ht', ht]
    simp only [List.mem_append]
    constructor <;> split <;> simp_all
  simp only [splice]
  split
  · split
    · exact htwo { s with tree := (s.tree.replace p (s.placed o)).1 } p o
    · exact ⟨_, hone { s with tree := (s.tree.replace p (s.placed o)).1 } p⟩
  · exact ⟨_, hone { s with tree := (s.tree.replace p (s.placed o)).1 } o⟩

theorem clicks_splice {c : Click F} (h : (s.splice p o).1.clicks.get? x = some c) :
    s.clicks.get? x = some c := by
  obtain ⟨gone, hgone⟩ := splice_forgets s p o
  rw [(hgone x).1] at h
  split at h
  · cases h
  · exact h

/-- With an attached place, the output stands there. -/
theorem splice_of_ready (h : s.tree.Ready p q o) : (s.splice p o).2 = s.placed o ∧
    s.tree.Spliced p q o (s.isFragment o) (s.splice p o).1.tree := by
  have hids : p ∉ s.tree.offered (s.isFragment o) o := h.place_not_offered
  obtain ⟨hfound, hr⟩ := h.linked.wired.replace_of_parent h.place hids
  have hsame : ({ s with tree := (s.tree.replace p (s.placed o)).1 }.remove p).1.isFragment o =
      s.isFragment o := by
    by_cases hl : s.tree.contains o
    · refine isFragment_of_item ?_
      have hu : ¬s.tree.Under p o := fun hu => Nat.ne_of_lt h.younger (hu.eq_of_no_parent h.root)
      have hl' := (h.live_of_place_removed hr).mpr ⟨hl, hu⟩
      exact (Tree.get?_remove hl').trans (hr.item o)
    · rw [isFragment_of_dead hl, isFragment_of_dead]
      exact fun hl' => hl ((h.live_of_place_removed hr).mp hl').1
  have hspliced := h.spliced hr
  simp only [splice]
  rw [placed_eq_offered] at hsame ⊢
  simp only [hfound, ↓reduceIte, hsame, true_and]
  split
  · rename_i hf
    rw [hf] at hspliced
    simpa [hf] using hspliced
  · rename_i hf
    simpa [hf] using hspliced

end Montage.Scene

namespace Montage

variable {F α : Type}

/-- The handles that an errand goes on with were given out. -/
def Errand.Known (bound : NodeId) : Errand F → Prop
  | .turn _ container page _ => container < bound ∧ page.more.getD container < bound
  | _ => True

theorem Errand.Known.mono {e : Errand F} {m n : NodeId} (h : e.Known m) (hmn : m ≤ n) :
    e.Known n := by
  cases e with
  | turn wrapper container page all =>
    exact ⟨Nat.lt_of_lt_of_le h.1 hmn, Nat.lt_of_lt_of_le h.2 hmn⟩
  | wait g => trivial
  | report e => trivial

namespace Scene

variable {s s' s'' : Scene F α} {d n o p q x : NodeId} {e : Option NodeId}

/-- Nodes are new, and what is known about older ones stays. -/
structure Grown (e : Option NodeId) (s s' : Scene F α) : Prop where
  tree : Tree.Grown e s.tree s'.tree
  places : ∀ {x}, x < s.tree.next → s'.places.get? x = s.places.get? x
  places_live : ∀ {x}, s'.places.contains x → s.places.contains x ∨ s'.tree.contains x
  provenance : s'.provenance = s.provenance
  clicks : ∀ {x c}, s'.clicks.get? x = some c →
    s.clicks.get? x = some c ∨ ∀ e ∈ c.errands, e.Known s'.tree.next

namespace Grown

/-- A change of the tree alone. -/
theorem of_tree {tree : Tree α} (h : Tree.Grown e s.tree tree) :
    Grown e s { s with tree := tree } where
  tree := h
  places _ := rfl
  places_live hc := .inl hc
  provenance := rfl
  clicks hc := .inl hc

theorem refl (h : s.tree.Linked) : Grown e s s :=
  of_tree (.refl h e)

theorem trans (h : Grown (some d) s s') (h' : Grown e s' s'')
    (he : e = some d ∨ ∃ n, e = some n ∧ s.tree.next ≤ n ∧ s'.tree.contains n) :
    Grown (some d) s s'' where
  tree := h.tree.trans h'.tree he
  places hx := (h'.places (Nat.lt_of_lt_of_le hx h.tree.next_le)).trans (h.places hx)
  places_live {x} hc := by
    rcases h'.places_live hc with hc | hc
    · exact (h.places_live hc).imp_right h'.tree.lives
    · exact .inr hc
  provenance := h'.provenance.trans h.provenance
  clicks hc := by
    rcases h'.clicks hc with hc | hc
    · rcases h.clicks hc with hc | hc
      · exact .inl hc
      · exact .inr fun e he => (hc e he).mono h'.tree.next_le
    · exact .inr hc

/-- A click is put on a node. -/
theorem click (h : s.tree.Linked) {c : Click F} (hc : ∀ e ∈ c.errands, e.Known s.tree.next) :
    Grown e s { s with clicks := s.clicks.insert n c } where
  tree := .refl h e
  places _ := rfl
  places_live hc := .inl hc
  provenance := rfl
  clicks {x c'} hx := by
    rw [Table.get?_insert] at hx
    split at hx
    · cases hx
      exact .inr hc
    · exact .inl hx

end Grown

/-! Reserving. -/

section Reserve

variable [Medium α] {view : Option String}

theorem get?_places_reserve : (s.reserve d view).1.places.get? x =
    if x = s.tree.next then some ⟨view, false⟩ else s.places.get? x :=
  Table.get?_insert ..

theorem Grown.reserve (h : s.tree.Linked) (hd : d < s.tree.next) (view : Option String) :
    Grown (some d) s (s.reserve d view).1 where
  tree := .attach h hd _
  places hx := get?_places_reserve.trans (if_neg (Nat.ne_of_lt hx))
  places_live {x} hc := by
    rw [Table.contains, get?_places_reserve] at hc
    split at hc
    · exact .inr (Tree.contains_attach.mpr (.inr ‹_›))
    · exact .inl hc
  provenance := rfl
  clicks hc := .inl hc

end Reserve

/-! Showing that a list goes on. -/

section More

variable {page : Page F} {wrapper container : NodeId}

theorem Grown.addButton (h : s.tree.Linked) (hw : wrapper < s.tree.next)
    (hc : container < s.tree.next) (hm : page.more.getD container < s.tree.next) (b : Button α) :
    Grown (some wrapper) s (s.addButton wrapper container page b) := by
  have hg := Tree.Grown.attach h hw b.node
  have hn : s.tree.next < (s.tree.attach wrapper b.node).1.next := by simp
  have hl : (s.tree.attach wrapper b.node).1.contains s.tree.next :=
    Tree.contains_attach.mpr (.inr rfl)
  have hg' := hg.trans (.attach hg.after hn b.label) (.inr ⟨_, rfl, Nat.le_refl _, hl⟩)
  refine (of_tree hg').trans (.click hg'.after ?_) (.inl rfl)
  simp only [List.mem_singleton, forall_eq]
  exact ⟨Nat.lt_of_lt_of_le hc hg'.next_le, Nat.lt_of_lt_of_le hm hg'.next_le⟩

theorem Grown.addButtons (bs : List (Button α)) (h : s.tree.Linked) (hw : wrapper < s.tree.next)
    (hc : container < s.tree.next) (hm : page.more.getD container < s.tree.next) :
    Grown (some wrapper) s (bs.foldl (fun s b => s.addButton wrapper container page b) s) := by
  induction bs generalizing s with
  | nil => exact .refl h
  | cons b bs ih =>
    have hg := Grown.addButton h hw hc hm b
    have hle := hg.tree.next_le
    exact hg.trans (ih hg.tree.after (Nat.lt_of_lt_of_le hw hle) (Nat.lt_of_lt_of_le hc hle)
      (Nat.lt_of_lt_of_le hm hle)) (.inl rfl)

theorem Grown.showMore [Medium α] (settings : Settings) (container : NodeId) (page : Page F)
    (h : s.tree.Linked) (hc : container < s.tree.next) (hm : page.more.getD container < s.tree.next) :
    Grown (some (page.more.getD container)) s (s.showMore settings container page) := by
  unfold Scene.showMore
  obtain ⟨item, label, buttons⟩ :=
    Medium.more (α := α) settings page.limit (page.items.length - page.offset)
  have hwrapper := Tree.Grown.attach h hm item
  have hl : (s.tree.attach (page.more.getD container) item).1.contains s.tree.next :=
    Tree.contains_attach.mpr (.inr rfl)
  have hlabel : ∀ label, Tree.Grown (some (page.more.getD container)) s.tree
      ((s.tree.attach (page.more.getD container) item).1.attach s.tree.next label).1 :=
    fun label => hwrapper.trans (.attach hwrapper.after (by simp) label)
      (.inr ⟨_, rfl, Nat.le_refl _, hl⟩)
  have hbuttons : ∀ tree, Tree.Grown (some (page.more.getD container)) s.tree tree →
      s.tree.next < tree.next → tree.contains s.tree.next →
      Grown (some (page.more.getD container)) s (buttons.foldl
        (fun s' b => s'.addButton s.tree.next container page b) { s with tree := tree }) := by
    intro tree hg hn hlive
    have hle := hg.next_le
    exact (of_tree hg).trans
      (.addButtons buttons hg.after hn (Nat.lt_of_lt_of_le hc hle) (Nat.lt_of_lt_of_le hm hle))
      (.inr ⟨_, rfl, Nat.le_refl _, hlive⟩)
  cases label with
  | none => exact hbuttons (s.tree.attach _ item).1 hwrapper (by simp) hl
  | some label =>
    refine hbuttons ((s.tree.attach _ item).1.attach s.tree.next label).1 (hlabel label) ?_
      (Tree.contains_attach.mpr (.inl hl))
    rw [Tree.next_attach, Tree.next_attach]
    exact Nat.lt_succ_of_lt (Nat.lt_succ_self _)

theorem get?_addButton (wrapper container : NodeId) (page : Page F) (b : Button α)
    (hx : x < s.tree.next) :
    (s.addButton wrapper container page b).tree.get? x = s.tree.get? x ∧
      x < (s.addButton wrapper container page b).tree.next :=
  ⟨(Tree.get?_attach_of_lt (Tree.lt_next_attach hx)).trans (Tree.get?_attach_of_lt hx),
    Tree.lt_next_attach (Tree.lt_next_attach hx)⟩

theorem get?_addButtons (bs : List (Button α)) (hx : x < s.tree.next) :
    (bs.foldl (fun s b => s.addButton wrapper container page b) s).tree.get? x =
      s.tree.get? x := by
  induction bs generalizing s with
  | nil => rfl
  | cons b bs ih =>
    obtain ⟨hb, hlt⟩ := get?_addButton wrapper container page b hx
    exact (ih hlt).trans hb

/-- Showing that a list goes on leaves the items of older nodes alone. -/
theorem get?_showMore [Medium α] {settings : Settings} (hx : x < s.tree.next) :
    (s.showMore settings container page).tree.get? x = s.tree.get? x := by
  unfold Scene.showMore
  obtain ⟨item, label, buttons⟩ :=
    Medium.more (α := α) settings page.limit (page.items.length - page.offset)
  have hw : ∀ d, x < (s.tree.attach d item).1.next := fun _ => Tree.lt_next_attach hx
  cases label with
  | none => exact (get?_addButtons buttons (hw _)).trans (Tree.get?_attach_of_lt hx)
  | some label =>
    exact (get?_addButtons buttons (Tree.lt_next_attach (hw _))).trans
      ((Tree.get?_attach_of_lt (hw _)).trans (Tree.get?_attach_of_lt hx))

end More

/-! Decorating. -/

section Decorate

variable [Medium α]

theorem Grown.addClasses (h : s.tree.Linked) (classes : List String) :
    Grown (some o) s (s.addClasses o classes) := by
  unfold Scene.addClasses
  split
  · exact .refl h
  · refine of_tree ?_
    generalize s.tree = t at h
    induction classes generalizing t with
    | nil => exact .refl h _
    | cons c cs ih =>
      have hg := Tree.Grown.modify h o (Medium.addClass c)
      exact hg.trans (ih _ hg.after) (.inl rfl)

theorem Grown.decorate (h : s.tree.Linked) (settings : Settings) (view : Option String)
    (p : Prepared F) (context : Json.Value) :
    Grown (some o) s (s.decorate settings view o p context) := by
  have hg := Grown.addClasses (o := o) h (classesOf settings view p.classes)
  unfold Scene.decorate
  cases (Fields.get? p.props "tooltip").bind (Tooltip.ofProp · p.data context) with
  | none => exact hg
  | some tip => exact ⟨hg.tree, hg.places, hg.places_live, hg.provenance, hg.clicks⟩

theorem isFragment_modify [LawfulMedium α] {t : Tree α} (c : String) :
    ((t.modify o (Medium.addClass c)).get? x).map Medium.isFragment =
      (t.get? x).map Medium.isFragment := by
  rw [Tree.get?_modify]
  split
  · cases t.get? x <;> simp [LawfulMedium.isFragment_addClass]
  · rfl

theorem foldl_addClass_frame [LawfulMedium α] {t : Tree α} (classes : List String) :
    let t' := classes.foldl (fun t c => t.modify o (Medium.addClass c)) t
    (∀ x, t'.children x = t.children x) ∧
      ∀ x, (t'.get? x).map Medium.isFragment = (t.get? x).map Medium.isFragment := by
  induction classes generalizing t with
  | nil => simp
  | cons c cs ih =>
    obtain ⟨hk, hf⟩ := ih (t := t.modify o (Medium.addClass c))
    refine ⟨fun x => (hk x).trans Tree.children_modify, fun x => (hf x).trans ?_⟩
    exact isFragment_modify c

theorem addClasses_frame [LawfulMedium α] (classes : List String) :
    (∀ x, (s.addClasses o classes).tree.children x = s.tree.children x) ∧
      ∀ x, (s.addClasses o classes).isFragment x = s.isFragment x := by
  unfold Scene.addClasses
  split
  · simp
  · obtain ⟨hk, hf⟩ := foldl_addClass_frame (o := o) (t := s.tree) classes
    exact ⟨hk, fun x => congrArg (·.getD false) (hf x)⟩

/-- Decorating does not change what an output puts in its place. -/
theorem decorate_frame [LawfulMedium α] (settings : Settings) (view : Option String)
    (p : Prepared F) (context : Json.Value) :
    (∀ x, (s.decorate settings view o p context).tree.children x = s.tree.children x) ∧
      ∀ x, (s.decorate settings view o p context).isFragment x = s.isFragment x := by
  have hf := addClasses_frame (s := s) (o := o) (classesOf settings view p.classes)
  unfold Scene.decorate
  cases (Fields.get? p.props "tooltip").bind (Tooltip.ofProp · p.data context) with
  | none => exact hf
  | some tip => exact hf

theorem places_decorate (settings : Settings) (view : Option String) (p : Prepared F)
    (context : Json.Value) : (s.decorate settings view o p context).places = s.places := by
  have hc : ∀ cs, (s.addClasses o cs).places = s.places := by
    intro cs
    unfold addClasses
    split <;> rfl
  unfold Scene.decorate
  cases (Fields.get? p.props "tooltip").bind (Tooltip.ofProp · p.data context) with
  | none => exact hc _
  | some tip => exact hc _

end Decorate

/-! Settling. -/

section Settle

variable [Medium α]

/-- Skipping changes the place alone. -/
theorem skip_steady (h : s.tree.Linked) : Tree.Grown (some p) s.tree (s.skip p).tree :=
  .modify h p _

theorem get?_places_skip : (s.skip p).places.get? x =
    if x = p then (s.places.get? x).map fun v => { v with skipped := true }
    else s.places.get? x :=
  Table.get?_modify ..

/-- What a failure does to the tree: its nodes are made, and put in the place or removed again. -/
inductive Filled (p : NodeId) (item : α) (t t' : Tree α) : Prop
  | kept {q : NodeId} {t₁ : Tree α} (attached : t.parent? p = some q)
      (root : Tree.Root t.next item t t₁)
      (spliced : Tree.Spliced p q t.next false t₁ t')
  | lost {t₁ : Tree α} (root : Tree.Root t.next item t t₁) (detached : t.parent? p = none)
      (pruned : Tree.Pruned t.next t₁ t')

variable [LawfulMedium α] (e : Error) (offending : Option Json.Value)

/-- A failure in an attached place puts the tree that shows it there. -/
theorem spliced_fillWithError (h : s.tree.Linked) (hp : p < s.tree.next)
    (hq : s.tree.parent? p = some q) :
    Tree.Spliced p q s.tree.next false (s.tree.grow (Medium.failure (α := α) e offending)).1
      (s.fillWithError p e offending).tree := by
  have hfrag := LawfulMedium.isFragment_failure (α := α) e offending
  unfold fillWithError
  generalize Medium.failure (α := α) e offending = r at hfrag
  obtain ⟨item, rs⟩ := r
  obtain ⟨hn, hroot⟩ := Tree.grow_root item rs h
  have hready : Tree.Ready p q s.tree.next (s.tree.grow (.node item rs)).1 := {
    linked := hroot.grown.after
    place := (hroot.grown.parent hp).trans hq
    root := hroot.parent
    younger := hp
    given := hroot.grown.after.live_lt hroot.live }
  have hs := (splice_of_ready (s := { s with tree := (s.tree.grow (.node item rs)).1 }) hready).2
  have hf : isFragment { s with tree := (s.tree.grow (.node item rs)).1 } s.tree.next = false := by
    simp only [isFragment, hroot.item, Option.map_some, Option.getD_some]
    exact hfrag
  rw [hf] at hs
  exact hs

theorem fillWithError_filled (h : s.tree.Linked) (hp : p < s.tree.next) :
    Filled p (Medium.failure (α := α) e offending).item s.tree
      (s.fillWithError p e offending).tree := by
  have hspliced := fun {q} => spliced_fillWithError (q := q) e offending h hp
  revert hspliced
  unfold fillWithError
  generalize Medium.failure (α := α) e offending = r
  intro hspliced
  obtain ⟨item, rs⟩ := r
  obtain ⟨hn, hroot⟩ := Tree.grow_root item rs h
  cases hq : s.tree.parent? p with
  | none =>
    have hdet : (s.tree.grow (.node item rs)).1.parent? p = none :=
      (hroot.grown.parent hp).trans hq
    refine .lost hroot hq ?_
    simp only [hn]
    rw [splice_of_detached hdet]
    exact .remove hroot.grown.after _
  | some q => exact .kept hq hroot (hspliced hq)

omit [LawfulMedium α] in
/-- Of what is known about nodes, a failure takes away the place. -/
theorem fillWithError_frame : (s.fillWithError p e offending).places = s.places.erase p ∧
    (s.fillWithError p e offending).provenance = s.provenance ∧
    ∀ {x c}, (s.fillWithError p e offending).clicks.get? x = some c →
      s.clicks.get? x = some c := by
  unfold fillWithError
  generalize s.tree.grow (Medium.failure (α := α) e offending) = r
  obtain ⟨tree, output⟩ := r
  obtain ⟨hp, hv⟩ := splice_frame { s with tree := tree } p output
  exact ⟨congrArg (Table.erase · p) hp, hv, fun h => clicks_splice (s := { s with tree := tree }) h⟩

omit [Medium α] [LawfulMedium α] in
theorem get?_foldl_insert {β : Type} (v : β) (ids : List NodeId) (t : Table β) :
    (ids.foldl (fun t id => t.insert id v) t).get? x = if x ∈ ids then some v else t.get? x := by
  induction ids generalizing t with
  | nil => simp
  | cons i ids ih =>
    rw [List.foldl_cons, ih, Table.get?_insert]
    by_cases hx : x = i <;> simp [hx]

omit [LawfulMedium α] in
/-- Finishing puts the output in place, and notes where all that stands there came from. -/
theorem finish_frame (s : Scene F α) (p o : NodeId) (prov : Provenance F) :
    (s.finish p o prov).tree = (s.splice p o).1.tree ∧
    (s.finish p o prov).places = s.places.erase p ∧
    (s.finish p o prov).clicks = (s.splice p o).1.clicks ∧
    ∀ x, (s.finish p o prov).provenance.get? x =
      if x ∈ (s.splice p o).2 then some prov else s.provenance.get? x := by
  obtain ⟨hp, hv⟩ := splice_frame s p o
  unfold finish
  generalize s.splice p o = r at hp hv
  obtain ⟨s', ids⟩ := r
  refine ⟨rfl, congrArg (Table.erase · p) hp, rfl, fun x => ?_⟩
  exact hv ▸ get?_foldl_insert prov ids s'.provenance

omit [Medium α] [LawfulMedium α] in
theorem Filled.fades {item : α} {t t' : Tree α} (h : Filled p item t t') : Tree.Fades t t' := by
  cases h with
  | kept attached root spliced => exact root.grown.steady.fades.trans spliced.fades
  | lost root detached pruned => exact root.grown.steady.fades.trans pruned.steady.fades

omit [Medium α] [LawfulMedium α] in
theorem Filled.full {item : α} {t t' : Tree α} {gone : NodeId → Prop} (h : Filled p item t t')
    (hf : t.FullBut gone) : t'.FullBut gone := by
  cases h with
  | kept attached root spliced => exact spliced.full (root.grown.full hf) (.inl root.live)
  | lost root detached pruned => exact pruned.steady.full (root.grown.full hf)

/-- What a finished output does to the scene: it is put in its place, or removed again. -/
inductive Finished (p n : NodeId) (prov : Provenance F) (s s' : Scene F α) : Prop
  | kept {q : NodeId} {t₁ : Tree α} (attached : s.tree.parent? p = some q)
      (decorated : Tree.Grown (some n) s.tree t₁)
      (same : ∀ x, t₁.children x = s.tree.children x)
      (spliced : Tree.Spliced p q n (s.isFragment n) t₁ s'.tree)
      (provenance : ∀ x, s'.provenance.get? x =
        if x ∈ s.placed n then some prov else s.provenance.get? x)
      (places : s'.places = s.places.erase p)
  | lost {t₁ : Tree α} (decorated : Tree.Grown (some n) s.tree t₁)
      (detached : s.tree.parent? p = none) (pruned : Tree.Pruned n t₁ s'.tree)
      (provenance : ∀ x, s'.provenance.get? x = s.provenance.get? x)
      (places : s'.places = s.places.erase p)

omit [LawfulMedium α] in
theorem Finished.fades {prov : Provenance F} (h : Finished p n prov s s') :
    Tree.Fades s.tree s'.tree := by
  cases h with
  | kept attached decorated same spliced provenance places =>
    exact decorated.steady.fades.trans spliced.fades
  | lost decorated detached pruned provenance places =>
    exact decorated.steady.fades.trans pruned.steady.fades

omit [LawfulMedium α] in
theorem Finished.full {prov : Provenance F} {gone : NodeId → Prop} (h : Finished p n prov s s')
    (hf : s.tree.FullBut gone) (hn : s.tree.contains n ∨ gone n) : s'.tree.FullBut gone := by
  cases h with
  | kept attached decorated same spliced provenance places =>
    exact spliced.full (decorated.full hf) (hn.imp_left decorated.lives)
  | lost decorated detached pruned provenance places =>
    exact pruned.steady.full (decorated.full hf)

theorem finished (h : s.tree.Linked) (hlt : p < n) (hroot : s.tree.parent? n = none)
    (hgiven : n < s.tree.next) (settings : Settings) (view : Option String) (pr : Prepared F)
    (context : Json.Value) (prov : Provenance F) :
    Finished p n prov s ((s.decorate settings view n pr context).finish p n prov) := by
  have hg := Grown.decorate (o := n) h settings view pr context
  obtain ⟨hsame, hfrag⟩ := decorate_frame (s := s) (o := n) settings view pr context
  have hplaces := places_decorate (s := s) (o := n) settings view pr context
  generalize s.decorate settings view n pr context = d at hg hsame hfrag hplaces
  obtain ⟨htree, hpl, _, hprov⟩ := finish_frame d p n prov
  have hplaced : d.placed n = s.placed n := by
    rw [placed_eq_offered, placed_eq_offered, hfrag, Tree.offered, Tree.offered, hsame]
  have hp := hg.tree.parent (Nat.lt_trans hlt hgiven)
  cases hq : s.tree.parent? p with
  | none =>
    rw [splice_of_detached (hp.trans hq)] at htree hprov
    refine .lost hg.tree hq (htree ▸ .remove hg.tree.after n) (fun x => ?_) (hplaces ▸ hpl)
    exact (hprov x).trans ((if_neg List.not_mem_nil).trans (hg.provenance ▸ rfl))
  | some q =>
    have hready : Tree.Ready p q n d.tree := {
      linked := hg.tree.after
      place := hp.trans hq
      root := (hg.tree.parent hgiven).trans hroot
      younger := hlt
      given := Nat.lt_of_lt_of_le hgiven hg.tree.next_le }
    obtain ⟨hids, hs⟩ := splice_of_ready hready
    rw [hfrag, ← htree] at hs
    rw [hids, hplaced, hg.provenance] at hprov
    exact .kept hq hg.tree hsame hs hprov (hplaces ▸ hpl)

end Settle

end Scene

end Montage
