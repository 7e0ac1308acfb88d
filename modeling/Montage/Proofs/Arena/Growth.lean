import Montage.Proofs.Arena.Operations

/-!
Trees that gain nodes. Whatever is painted on a node leaves all older nodes as they are, but for the
node itself, and what is new stands under it.
-/

namespace Montage.Tree

variable {α : Type} {t t' t'' : Tree α} {a d n x : NodeId}

/-- Nodes are new, and of the older ones only `d` may have another item and further children. -/
structure Grown (d : Option NodeId) (t t' : Tree α) : Prop where
  before : t.Linked
  after : t'.Linked
  next_le : t.next ≤ t'.next
  live : ∀ {x}, x < t.next → t'.contains x = t.contains x
  parent : ∀ {x}, x < t.next → t'.parent? x = t.parent? x
  item : ∀ {x}, x < t.next → d ≠ some x → t'.get? x = t.get? x
  children : ∀ {x}, x < t.next → d ≠ some x → t'.children x = t.children x
  extended : ∀ {x}, x < t.next → d = some x →
    ∃ new, t'.children x = t.children x ++ new ∧ ∀ c ∈ new, t.next ≤ c
  listed : ∀ {x c}, c ∈ t'.children x → c < t.next → c ∈ t.children x
  under : ∀ {a x}, d = some a → t.contains a → t.next ≤ x → t'.contains x → t'.Under a x
  full : ∀ {gone}, t.FullBut gone → t'.FullBut gone

/-- A path survives where the nodes that are left keep their parents. -/
theorem Under.kept (h : t.Under a x) (hl : t'.Linked) (hx : t'.contains x)
    (hk : ∀ y p, t.parent? y = some p → t'.contains y → t'.parent? y = some p) :
    t'.Under a x := by
  induction h with
  | self => exact .self
  | step _ link ih =>
    have hp := hk _ _ link hx
    exact .step (ih (hl.parent_live hp)) hp

theorem Linked.of_same (h : t.Linked) (hn : t'.next = t.next)
    (hc : ∀ x, t'.contains x = t.contains x) (hp : ∀ x, t'.parent? x = t.parent? x)
    (hk : ∀ x, t'.children x = t.children x) : t'.Linked where
  live_lt hx := hn ▸ h.live_lt (hc _ ▸ hx)
  listed_lt hx := hn ▸ h.listed_lt (hk _ ▸ hx)
  listed hx := hk _ ▸ h.listed (hp _ ▸ hx)
  link hx hl := hp _ ▸ h.link (hk _ ▸ hx) (hc _ ▸ hl)
  once {x c} hl := hk x ▸ h.once (hc c ▸ hl)
  ordered hx := h.ordered (hp _ ▸ hx)

namespace Grown

variable {e : Option NodeId}

theorem refl (h : t.Linked) (d : Option NodeId) : Grown d t t where
  before := h
  after := h
  next_le := Nat.le_refl _
  live _ := rfl
  parent _ := rfl
  item _ _ := rfl
  children _ _ := rfl
  extended _ _ := ⟨[], by simp⟩
  listed hc _ := hc
  under _ _ hx hl := absurd (h.live_lt hl) (Nat.not_lt.mpr hx)
  full := id

theorem lives (h : Grown e t t') (hx : t.contains x) : t'.contains x := by
  rw [h.live (h.before.live_lt hx)]
  exact hx

theorem path (h : Grown e t t') (hu : t.Under a x) (hx : t.contains x) : t'.Under a x :=
  hu.kept h.after (h.lives hx) fun _ _ hp _ =>
    (h.parent (h.before.live_lt (live_of_parent hp))).trans hp

/-- Growth goes on at the same node, or at one that is new itself. -/
theorem trans_at {d : Option NodeId} (h : Grown d t t') (h' : Grown e t' t'')
    (he : e = d ∨ ∃ n, e = some n ∧ t.next ≤ n ∧ (d ≠ none → t'.contains n)) : Grown d t t'' := by
  have hne : ∀ {x}, x < t.next → d ≠ some x → e ≠ some x := by
    intro x hx hd hex
    rcases he with rfl | ⟨n, rfl, hn, _⟩
    · exact hd hex
    · exact Nat.not_lt.mpr hn (Option.some.inj hex ▸ hx)
  have hlt : ∀ {x}, x < t.next → x < t'.next := fun hx => Nat.lt_of_lt_of_le hx h.next_le
  refine {
    before := h.before
    after := h'.after
    next_le := Nat.le_trans h.next_le h'.next_le
    live := ?live, parent := ?parent, item := ?item, children := ?children
    extended := ?extended, under := ?under
    listed := fun hc hx => h.listed (h'.listed hc (hlt hx)) hx
    full := fun hf => h'.full (h.full hf) }
  case live => exact fun hx => (h'.live (hlt hx)).trans (h.live hx)
  case parent => exact fun hx => (h'.parent (hlt hx)).trans (h.parent hx)
  case item => exact fun hx hd => (h'.item (hlt hx) (hne hx hd)).trans (h.item hx hd)
  case children => exact fun hx hd => (h'.children (hlt hx) (hne hx hd)).trans (h.children hx hd)
  case extended =>
    intro x hx hd
    obtain ⟨new, hnew, hge⟩ := h.extended hx hd
    by_cases hex : e = some x
    · obtain ⟨more, hmore, hge'⟩ := h'.extended (hlt hx) hex
      refine ⟨new ++ more, by rw [hmore, hnew, List.append_assoc], fun c hc => ?_⟩
      rcases List.mem_append.mp hc with hc | hc
      · exact hge c hc
      · exact Nat.le_trans h.next_le (hge' c hc)
    · exact ⟨new, (h'.children (hlt hx) hex).trans hnew, hge⟩
  case under =>
    intro a x hd ha hx hl
    by_cases hx' : x < t'.next
    · rw [h'.live hx'] at hl
      exact h'.path (h.under hd ha hx hl) hl
    · have hx' := Nat.not_lt.mp hx'
      rcases he with rfl | ⟨n, rfl, hn, hnl⟩
      · exact h'.under hd (h.lives ha) hx' hl
      · have hnl := hnl (by simp [hd])
        exact (h'.path (h.under hd ha hn hnl) hnl).trans (h'.under rfl hnl hx' hl)

theorem trans (h : Grown (some d) t t') (h' : Grown e t' t'')
    (he : e = some d ∨ ∃ n, e = some n ∧ t.next ≤ n ∧ t'.contains n) : Grown (some d) t t'' := by
  refine h.trans_at h' (he.imp_right ?_)
  rintro ⟨n, hn, hge, hl⟩
  exact ⟨n, hn, hge, fun _ => hl⟩

/-- Growth at a node that is new itself leaves all older nodes as they are. -/
theorem trans_fresh (h : Grown none t t') (h' : Grown (some n) t' t'') (hn : t.next ≤ n) :
    Grown none t t'' :=
  h.trans_at h' (.inr ⟨n, rfl, hn, fun hd => absurd rfl hd⟩)

theorem create (h : t.Linked) (v : α) : Grown none t (t.create v).1 where
  before := h
  after := h.create v
  next_le := Nat.le_succ _
  live {x} hx := by
    rw [Bool.eq_iff_iff, contains_create]
    exact or_iff_left (Nat.ne_of_lt hx)
  parent hx := parent?_create.trans (if_neg (Nat.ne_of_lt hx))
  item hx _ := get?_create.trans (if_neg (Nat.ne_of_lt hx))
  children hx _ := children_create.trans (if_neg (Nat.ne_of_lt hx))
  extended := by simp
  listed {x c} hc _ := by
    rw [children_create] at hc
    split at hc
    · simp at hc
    · exact hc
  under := by simp
  full hf x c hc := by
    rw [children_create] at hc
    split at hc
    · cases hc
    · exact (hf x c hc).imp_left fun hl => contains_create.mpr (.inl hl)

theorem modify (h : t.Linked) (n : NodeId) (f : α → α) : Grown (some n) t (t.modify n f) where
  before := h
  after := h.of_same rfl (fun _ => contains_modify) (fun _ => parent?_modify)
    fun _ => children_modify
  next_le := Nat.le_refl _
  live _ := contains_modify
  parent _ := parent?_modify
  item {x} _ hn := get?_modify.trans (if_neg fun he : x = n => hn (he ▸ rfl))
  children _ _ := children_modify
  extended _ _ := ⟨[], by simp⟩
  listed hc _ := children_modify (f := f) ▸ hc
  under _ _ hx hl := absurd (h.live_lt (contains_modify ▸ hl)) (Nat.not_lt.mpr hx)
  full hf x c hc := (hf x c (children_modify (f := f) ▸ hc)).imp_left contains_modify.trans

end Grown

/-- A tree of one node. -/
def single (v : α) : Tree α :=
  (empty.create v).1

@[simp] theorem children_single (v : α) (x : NodeId) : (Tree.single v).children x = [] := by
  rw [single, children_create]
  split <;> rfl

theorem Linked.single (v : α) : (Tree.single v).Linked := by
  refine Linked.create ?_ v
  constructor <;> intros <;> simp_all [empty, contains, Table.contains, children, parent?]

/-- A new child keeps the links in order, if the node it is put under is one that was given out. -/
theorem Linked.attach (h : t.Linked) (hd : d < t.next) (v : α) : (t.attach d v).1.Linked where
  live_lt {x} hx := by
    rw [next_attach]
    rcases contains_attach.mp hx with hx | hx
    · exact Nat.lt_succ_of_lt (h.live_lt hx)
    · exact hx ▸ Nat.lt_succ_self _
  listed_lt {x c} hc := by
    rw [next_attach]
    rw [children_attach h hd] at hc
    split at hc
    · rcases List.mem_append.mp hc with hc | hc
      · exact Nat.lt_succ_of_lt (h.listed_lt hc)
      · exact List.mem_singleton.mp hc ▸ Nat.lt_succ_self _
    · exact Nat.lt_succ_of_lt (h.listed_lt hc)
  listed {x c} hp := by
    rw [parent?_attach hd] at hp
    rw [children_attach h hd]
    split at hp
    · split at hp
      · rename_i hc hl
        rw [if_pos ⟨(Option.some.inj hp).symm, hl⟩, hc]
        simp
      · simp at hp
    · split
      · rename_i hx
        exact List.mem_append_left _ (hx.1 ▸ h.listed hp)
      · exact h.listed hp
  link {x c} hc hl := by
    rw [parent?_attach hd]
    rw [children_attach h hd] at hc
    split at hc
    · rename_i hx
      rcases List.mem_append.mp hc with hc | hc
      · have hne : c ≠ t.next := Nat.ne_of_lt (h.listed_lt hc)
        rw [if_neg hne, hx.1]
        exact h.link hc ((contains_attach.mp hl).resolve_right hne)
      · rw [if_pos (List.mem_singleton.mp hc), if_pos hx.2, hx.1]
    · have hne : c ≠ t.next := Nat.ne_of_lt (h.listed_lt hc)
      rw [if_neg hne]
      exact h.link hc ((contains_attach.mp hl).resolve_right hne)
  once {x c} hl := by
    have hnew : (t.children x).count t.next = 0 :=
      List.count_eq_zero_of_not_mem fun hm => Nat.lt_irrefl _ (h.listed_lt hm)
    rw [children_attach h hd]
    rcases contains_attach.mp hl with hc | rfl
    · have hne : c ≠ t.next := Nat.ne_of_lt (h.live_lt hc)
      split
      · have hz : [t.next].count c = 0 := List.count_eq_zero_of_not_mem (by simpa using hne)
        rw [List.count_append, hz]
        exact h.once hc
      · exact h.once hc
    · split
      · rename_i hx
        rw [List.count_append, ← hx.1, hnew]
        simp
      · simp [hnew]
  ordered {x c} hp := by
    rw [parent?_attach hd] at hp
    split at hp
    · split at hp
      · rename_i hc _
        exact Option.some.inj hp ▸ hc ▸ hd
      · simp at hp
    · exact h.ordered hp

namespace Grown

theorem attach (h : t.Linked) (hd : d < t.next) (v : α) :
    Grown (some d) t (t.attach d v).1 where
  before := h
  after := h.attach hd v
  next_le := by simp
  live {x} hx := by
    rw [Bool.eq_iff_iff, contains_attach]
    exact or_iff_left (Nat.ne_of_lt hx)
  parent hx := (parent?_attach hd).trans (if_neg (Nat.ne_of_lt hx))
  item hx _ := get?_attach.trans (if_neg (Nat.ne_of_lt hx))
  children {x} _ hn := by
    rw [children_attach h hd, if_neg]
    exact fun he => hn (he.1 ▸ rfl)
  extended {x} hx hn := by
    rw [children_attach h hd]
    split
    · rename_i he
      exact ⟨[t.next], by rw [he.1], by simp⟩
    · exact ⟨[], by simp⟩
  listed {x c} hc hlt := by
    rw [children_attach h hd] at hc
    split at hc
    · rename_i hx
      rcases List.mem_append.mp hc with hc | hc
      · exact hx.1 ▸ hc
      · exact absurd (List.mem_singleton.mp hc) (Nat.ne_of_lt hlt)
    · exact hc
  under {a x} hn ha hx hl := by
    cases hn
    have hx : x = t.next :=
      (contains_attach.mp hl).resolve_left fun hl => Nat.not_lt.mpr hx (h.live_lt hl)
    subst hx
    exact .of_parent (by rw [parent?_attach hd, if_pos rfl, if_pos ha])
  full hf x c hc := by
    rw [children_attach h hd] at hc
    rw [contains_attach]
    split at hc
    · rcases List.mem_append.mp hc with hc | hc
      · exact (hf d c hc).imp_left .inl
      · exact .inl (.inr (List.mem_singleton.mp hc))
    · exact (hf x c hc).imp_left .inl

mutual

theorem plant (r : Rose α) {t : Tree α} {d : NodeId} (h : t.Linked)
    (hd : d < t.next) : Grown (some d) t (t.plant d r) := by
  cases r with
  | node item children =>
    have hg := Grown.attach h hd item
    have hn : t.next < (t.attach d item).1.next := by simp
    have hl : (t.attach d item).1.contains t.next := contains_attach.mpr (.inr rfl)
    exact hg.trans (plantAll children hg.after hn) (.inr ⟨t.next, rfl, Nat.le_refl _, hl⟩)

theorem plantAll (rs : List (Rose α)) {t : Tree α} {d : NodeId} (h : t.Linked)
    (hd : d < t.next) : Grown (some d) t (t.plantAll d rs) := by
  cases rs with
  | nil => exact .refl h _
  | cons r rs =>
    have hg := plant r h hd
    exact hg.trans (plantAll rs hg.after (Nat.lt_of_lt_of_le hd hg.next_le)) (.inl rfl)

end

theorem grow (r : Rose α) (h : t.Linked) : Grown none t (t.grow r).1 := by
  cases r with
  | node item children =>
    have hg := Grown.create h item
    exact hg.trans_fresh (plantAll children hg.after (Nat.lt_succ_self _)) (Nat.le_refl _)

end Grown

mutual

/-- Painting leaves the items of older nodes alone. -/
theorem get?_plant (r : Rose α) {t : Tree α} {d x : NodeId} (h : t.Linked) (hd : d < t.next)
    (hx : x < t.next) : (t.plant d r).get? x = t.get? x := by
  cases r with
  | node item children =>
    have hn : t.next < (t.attach d item).1.next := by simp
    refine (get?_plantAll children (h.attach hd item) hn (Nat.lt_trans hx hn)).trans ?_
    exact get?_attach.trans (if_neg (Nat.ne_of_lt hx))

theorem get?_plantAll (rs : List (Rose α)) {t : Tree α} {d x : NodeId} (h : t.Linked)
    (hd : d < t.next) (hx : x < t.next) : (t.plantAll d rs).get? x = t.get? x := by
  cases rs with
  | nil => rfl
  | cons r rs =>
    have hg := Grown.plant r h hd
    have hle := hg.next_le
    exact (get?_plantAll rs hg.after (Nat.lt_of_lt_of_le hd hle) (Nat.lt_of_lt_of_le hx hle)).trans
      (get?_plant r h hd hx)

end

/-- A tree that was grown stands by itself, and all that is new is under its root. -/
structure Root (n : NodeId) (item : α) (t t' : Tree α) : Prop where
  grown : Grown none t t'
  root : n = t.next
  live : t'.contains n
  parent : t'.parent? n = none
  item : t'.get? n = some item
  under : ∀ {x}, t.next ≤ x → t'.contains x → t'.Under n x

theorem grow_root (item : α) (rs : List (Rose α)) (h : t.Linked) :
    (t.grow (.node item rs)).2 = t.next ∧
      Root t.next item t (t.grow (.node item rs)).1 := by
  have hc := h.create item
  have hn : t.next < (t.create item).1.next := Nat.lt_succ_self _
  have hl : (t.create item).1.contains t.next := contains_create.mpr (.inr rfl)
  have hg := Grown.plantAll rs hc hn
  refine ⟨rfl, .grow (.node item rs) h, rfl, hg.lives hl, ?_, ?_, ?_⟩
  · exact (hg.parent hn).trans (parent?_create.trans (if_pos rfl))
  · exact (get?_plantAll rs hc hn hn).trans (get?_create.trans (if_pos rfl))
  · intro x hx hlx
    by_cases hxn : x = t.next
    · subst hxn
      exact .self
    · exact hg.under rfl hl (Nat.lt_of_le_of_ne hx (Ne.symm hxn)) hlx

end Montage.Tree
