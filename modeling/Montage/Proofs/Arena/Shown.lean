import Montage.Proofs.Arena.Lineage
import Montage.Proofs.Arena.Replacement

/-!
What a list of nodes shows, as plain trees. Some nodes may be held for trees that are still to be
painted, and stand for those. Main statements: nodes show what they showed as long as they and all below
them are left alone, a held node may be replaced by nodes that show what it was held for, and `subtree?`
tells what a node shows.
-/

namespace Montage.Tree

variable {α : Type}

/-- What a list of nodes shows, in order. A held node shows what it is held for, and a node that is gone
shows nothing. -/
inductive Shows (t : Tree α) (held : NodeId → Option (List (Rose α))) :
    List NodeId → List (Rose α) → Prop
  | nil : Shows t held [] []
  | held {x : NodeId} {ids : List NodeId} {f fs : List (Rose α)} (due : held x = some f)
      (rest : Shows t held ids fs) : Shows t held (x :: ids) (f ++ fs)
  | gone {x : NodeId} {ids : List NodeId} {fs : List (Rose α)} (free : held x = none)
      (gone : t.get? x = none) (rest : Shows t held ids fs) : Shows t held (x :: ids) fs
  | node {x : NodeId} {ids : List NodeId} {v : α} {kids fs : List (Rose α)}
      (free : held x = none) (item : t.get? x = some v)
      (below : Shows t held (t.children x) kids) (rest : Shows t held ids fs) :
      Shows t held (x :: ids) (.node v kids :: fs)

/-- No node is held for anything. -/
def noneHeld : NodeId → Option (List (Rose α)) :=
  fun _ => none

variable {t t' : Tree α} {held held' : NodeId → Option (List (Rose α))} {ids ids' : List NodeId}
  {f f' g : List (Rose α)} {d p x : NodeId}

theorem contains_iff_get? : t.contains x ↔ t.get? x ≠ none := by
  simp [contains_iff_slot, get?]

namespace Shows

theorem append (h : Shows t held ids f) (h' : Shows t held ids' f') :
    Shows t held (ids ++ ids') (f ++ f') := by
  induction h with
  | nil => exact h'
  | held hx _ ih => exact List.append_assoc .. ▸ .held hx ih
  | gone free hx _ ih => exact .gone free hx ih
  | node free item below _ _ ih => exact .node free item below ih

/-- Several nodes show something if each of them does. -/
theorem exists_of_each (hids : ∀ x ∈ ids, ∃ f, Shows t held [x] f) : ∃ f, Shows t held ids f := by
  induction ids with
  | nil => exact ⟨[], .nil⟩
  | cons x ids ih =>
    obtain ⟨f, hf⟩ := hids x List.mem_cons_self
    obtain ⟨f', hf'⟩ := ih fun y hy => hids y (List.mem_cons_of_mem _ hy)
    exact ⟨f ++ f', hf.append hf'⟩

/-- Whatever is listed shows something. -/
theorem exists_of_linked (h : t.Linked) (held : NodeId → Option (List (Rose α)))
    (ids : List NodeId) : ∃ f, Shows t held ids f := by
  have hdead : ∀ {x}, t.get? x = none → ∃ f, Shows t held [x] f := by
    intro x hgone
    cases hx : held x with
    | some f => exact ⟨_, .held hx .nil⟩
    | none => exact ⟨_, .gone hx hgone .nil⟩
  -- The live nodes below a node are younger, so that less is left below them.
  have hone : ∀ n x, t.next - x = n → ∃ f, Shows t held [x] f := by
    intro n
    induction n using Nat.strongRecOn with
    | ind n ih =>
      rintro x rfl
      cases hv : t.get? x with
      | none => exact hdead hv
      | some item =>
        cases hx : held x with
        | some f => exact ⟨_, .held hx .nil⟩
        | none =>
          have hl := get?_eq_some_live hv
          have hkids : ∀ c ∈ t.children x, ∃ f, Shows t held [c] f := by
            intro c hc
            by_cases hcl : t.contains c
            · have hlt := Nat.sub_lt_sub_left (h.live_lt hl) (h.ordered (h.link hc hcl))
              exact ih _ hlt c rfl
            · exact hdead (Classical.byContradiction fun hv => hcl (contains_iff_get?.mpr hv))
          obtain ⟨kids, hkids⟩ := exists_of_each hkids
          exact ⟨_, .node hx hv hkids .nil⟩
  exact exists_of_each fun x _ => hone _ x rfl

/-- Nodes of a kind may be replaced by others that show the same. -/
theorem replaced {P : NodeId → Prop} {sub : NodeId → List NodeId} (h : Shows t held ids f)
    (hids : ∀ x ∈ ids, P x) (closed : ∀ x, P x → held x = none → ∀ c ∈ t.children x, P c)
    (item : ∀ x, P x → held x = none → t'.get? x = t.get? x)
    (children : ∀ x, P x → held x = none → t'.children x = (t.children x).flatMap sub)
    (free : ∀ x, P x → held x = none → held' x = none ∧ sub x = [x])
    (kept : ∀ x f, P x → held x = some f → Shows t' held' (sub x) f) :
    Shows t' held' (ids.flatMap sub) f := by
  induction h with
  | nil => exact .nil
  | held hx _ ih =>
    rw [List.flatMap_cons]
    exact (kept _ _ (hids _ List.mem_cons_self) hx).append
      (ih fun y hy => hids y (List.mem_cons_of_mem _ hy))
  | gone hfree hx _ ih =>
    have hP := hids _ List.mem_cons_self
    obtain ⟨hfree', hsub⟩ := free _ hP hfree
    rw [List.flatMap_cons, hsub]
    exact .gone hfree' ((item _ hP hfree).trans hx)
      (ih fun y hy => hids y (List.mem_cons_of_mem _ hy))
  | node hfree hitem _ _ ihb ih =>
    have hP := hids _ List.mem_cons_self
    obtain ⟨hfree', hsub⟩ := free _ hP hfree
    rw [List.flatMap_cons, hsub]
    refine .node hfree' ((item _ hP hfree).trans hitem) ?_
      (ih fun y hy => hids y (List.mem_cons_of_mem _ hy))
    rw [children _ hP hfree]
    exact ihb (closed _ hP hfree)

/-- Nodes that are left alone, with all below them, show what they showed. -/
theorem congr {P : NodeId → Prop} (h : Shows t held ids f) (hids : ∀ x ∈ ids, P x)
    (closed : ∀ x, P x → held x = none → ∀ c ∈ t.children x, P c)
    (item : ∀ x, P x → held x = none → t'.get? x = t.get? x)
    (children : ∀ x, P x → held x = none → t'.children x = t.children x)
    (same : ∀ x, P x → held' x = held x) : Shows t' held' ids f := by
  rw [← List.flatMap_singleton' ids]
  refine h.replaced hids closed item (fun x hx hfree => ?_) (fun x hx hfree => ?_)
    (fun x f hx hh => ?_)
  · rw [List.flatMap_singleton']
    exact children x hx hfree
  · exact ⟨(same x hx).trans hfree, rfl⟩
  · exact List.append_nil f ▸ .held ((same x hx).trans hh) .nil

/-- What a node is held for matters only to those above it. -/
theorem of_apart (h : Shows t held ids f) (hl : t.Linked) (hp : t.contains p)
    (hids : ∀ x ∈ ids, ¬t.Under x p) (same : ∀ x, x ≠ p → held' x = held x) :
    Shows t held' ids f := by
  refine h.congr (P := fun x => ¬t.Under x p) hids ?_ (fun _ _ _ => rfl) (fun _ _ _ => rfl) ?_
  · intro x hx _ y hy hu
    exact hx ((Under.of_parent (hl.link hy (hu.top_live hl hp))).trans hu)
  · exact fun x hx => same x fun he => hx (he ▸ .self)

end Shows

/-- Where the target stands once, it is the one that gives way. -/
theorem putAt_eq_flatMap {l : List NodeId} (h : l.count p ≤ 1) :
    putAt p ids l = l.flatMap fun c => if c = p then ids else [c] := by
  induction l with
  | nil => rfl
  | cons c l ih =>
    rw [putAt, List.flatMap_cons]
    split
    · rename_i hc
      subst hc
      have hnot : c ∉ l := by
        rw [List.count_cons_self] at h
        exact List.count_eq_zero.mp (Nat.le_zero.mp (Nat.le_of_succ_le_succ h))
      have hsame : l.flatMap (fun y => if y = c then ids else [y]) = l.flatMap fun y => [y] := by
        simp only [List.flatMap_def]
        refine congrArg List.flatten (List.map_congr_left fun y hy => if_neg ?_)
        exact fun he => hnot (he ▸ hy)
      rw [hsame, List.flatMap_singleton']
    · rename_i hc
      have h' : l.count p ≤ 1 := Nat.le_trans List.count_le_count_cons h
      rw [ih h']
      rfl

/-! Painting shows what is painted. -/

section Plant

/-- Nodes that are new show what they showed as long as their tree grows elsewhere. -/
theorem Shows.grown {b : NodeId} (h : Shows t held ids f) (hg : Grown (some d) t t')
    (hd : d < b) (hids : ∀ x ∈ ids, b ≤ x ∧ x < t.next)
    (hlisted : ∀ x c, b ≤ x → c ∈ t.children x → b ≤ c) : Shows t' held ids f := by
  have hne : ∀ x, b ≤ x ∧ x < t.next → some d ≠ some x := fun x hx he =>
    Nat.not_lt.mpr hx.1 (Option.some.inj he ▸ hd)
  exact h.congr hids (fun x hx _ c hc => ⟨hlisted x c hx.1 hc, hg.before.listed_lt hc⟩)
    (fun x hx _ => hg.item hx.2 (hne x hx)) (fun x hx _ => hg.children hx.2 (hne x hx))
    fun _ _ => rfl

mutual

theorem shows_plant (r : Rose α) {t : Tree α} {d : NodeId} (h : t.Linked) (hd : t.contains d)
    (hfree : ∀ x, t.next ≤ x → held x = none) :
    (t.plant d r).children d = t.children d ++ [t.next] ∧
      Shows (t.plant d r) held [t.next] [r] := by
  have hdlt := h.live_lt hd
  cases r with
  | node item children =>
    have hg := Grown.attach h hdlt item
    have hn : t.next < (t.attach d item).1.next := by simp
    have hl : (t.attach d item).1.contains t.next := contains_attach.mpr (.inr rfl)
    have hne : d ≠ t.next := Nat.ne_of_lt hdlt
    obtain ⟨ids, hids, hshows⟩ := shows_plantAll children hg.after hl fun x hx =>
      hfree x (Nat.le_trans hg.next_le hx)
    have hnew := Grown.plantAll children hg.after hn
    have hitem : ((t.attach d item).1.plantAll t.next children).get? t.next = some item := by
      rw [get?_plantAll children hg.after hn hn, get?_attach, if_pos rfl]
    have hkids : ((t.attach d item).1.plantAll t.next children).children t.next = ids := by
      rw [hids, children_attach h hdlt, if_neg fun he => hne he.1.symm,
        children_of_dead h.not_live_next, List.nil_append]
    constructor
    · change ((t.attach d item).1.plantAll t.next children).children d = _
      rw [hnew.children (Nat.lt_of_lt_of_le hdlt hg.next_le)
        fun he => hne (Option.some.inj he).symm, children_attach h hdlt, if_pos ⟨rfl, hd⟩]
    · exact .node (hfree _ (Nat.le_refl _)) hitem (hkids.symm ▸ hshows) .nil

theorem shows_plantAll (rs : List (Rose α)) {t : Tree α} {d : NodeId} (h : t.Linked)
    (hd : t.contains d) (hfree : ∀ x, t.next ≤ x → held x = none) :
    ∃ ids, (t.plantAll d rs).children d = t.children d ++ ids ∧
      Shows (t.plantAll d rs) held ids rs := by
  have hdlt := h.live_lt hd
  cases rs with
  | nil => exact ⟨[], (List.append_nil _).symm, .nil⟩
  | cons r rs =>
    have hg := Grown.plant r h hdlt
    obtain ⟨hone, hshows⟩ := shows_plant r h hd hfree
    obtain ⟨ids, hids, hrest⟩ := shows_plantAll rs hg.after (hg.lives hd) fun x hx =>
      hfree x (Nat.le_trans hg.next_le hx)
    have hnew := Grown.plantAll rs hg.after (Nat.lt_of_lt_of_le hdlt hg.next_le)
    refine ⟨t.next :: ids, ?_, ?_⟩
    · change ((t.plant d r).plantAll d rs).children d = _
      rw [hids, hone, List.append_assoc]
      rfl
    · have hnext : t.next < (t.plant d r).next := by
        refine hg.after.listed_lt (x := d) ?_
        rw [hone]
        exact List.mem_append_right _ List.mem_cons_self
      have hfirst : Shows ((t.plant d r).plantAll d rs) held [t.next] [r] := by
        refine hshows.grown hnew hdlt ?_ ?_
        · simp [hnext]
        · intro x c hx hc
          refine Nat.not_lt.mp fun hlt => ?_
          have hold := hg.listed hc hlt
          exact Nat.not_lt.mpr hx (h.live_lt (live_of_listed hold))
      exact hfirst.append hrest

end

/-- A tree that was grown shows itself. -/
theorem shows_grow (r : Rose α) (h : t.Linked) (hfree : ∀ x, t.next ≤ x → held x = none) :
    Shows (t.grow r).1 held [t.next] [r] := by
  cases r with
  | node item children =>
    have hc := h.create item
    have hn : t.next < (t.create item).1.next := Nat.lt_succ_self _
    have hl : (t.create item).1.contains t.next := contains_create.mpr (.inr rfl)
    obtain ⟨ids, hids, hshows⟩ := shows_plantAll children hc hl fun x hx =>
      hfree x (Nat.le_trans (Nat.le_succ _) hx)
    have hitem : ((t.create item).1.plantAll t.next children).get? t.next = some item := by
      rw [get?_plantAll children hc hn hn, get?_create, if_pos rfl]
    have hkids : ((t.create item).1.plantAll t.next children).children t.next = ids := by
      rw [hids, children_create, if_pos rfl, List.nil_append]
    exact .node (hfree _ (Nat.le_refl _)) hitem (hkids.symm ▸ hshows) .nil

end Plant

/-! What changes of a tree leave as it is. -/

section Changes

variable {n o q : NodeId} {e : Option NodeId} {fragment : Bool}

/-- Growth at a node that is in no list shows elsewhere what was shown. -/
theorem Grown.shows (h : Grown e t t') (hs : Shows t held ids f)
    (hids : ∀ x ∈ ids, x < t.next ∧ e ≠ some x) (apart : ∀ x c, e = some c → c ∉ t.children x)
    (same : ∀ x < t.next, held' x = held x) : Shows t' held' ids f := by
  refine hs.congr hids (fun x _ _ c hc => ⟨h.before.listed_lt hc, fun he => ?_⟩)
    (fun x hx _ => h.item hx.1 hx.2) (fun x hx _ => h.children hx.1 hx.2) fun x hx => same x hx.1
  exact apart x c he hc

/-- A subtree that stands by itself is removed. -/
theorem Pruned.shows (h : Pruned n t t') (root : t.parent? n = none)
    (apart : ∀ x, n ∉ t.children x) (hs : Shows t held ids f) (hids : ∀ x ∈ ids, ¬t.Under n x)
    (same : ∀ x, ¬t.Under n x → held' x = held x) : Shows t' held' ids f := by
  have hlive : ∀ {x}, ¬t.Under n x → (t'.contains x ↔ t.contains x) := fun hx =>
    h.live.trans (and_iff_left hx)
  refine hs.congr hids (fun x hx _ c hc hu => ?_) (fun x hx _ => ?_) (fun x hx _ => ?_) same
  · rcases hu.cases_parent with rfl | ⟨p, hp, hu⟩
    · exact apart x hc
    · have hparent := h.before.link hc (live_of_parent hp)
      rw [hparent] at hp
      exact hx (Option.some.inj hp ▸ hu)
  · by_cases hl : t.contains x
    · exact h.item ((hlive hx).mpr hl)
    · have hd : ¬t'.contains x := fun hl' => hl ((hlive hx).mp hl')
      rw [contains_iff_get?, not_not] at hl hd
      rw [hl, hd]
  · by_cases hl : t.contains x
    · rw [h.children ((hlive hx).mpr hl), root, if_neg (by simp)]
    · rw [children_of_dead hl, children_of_dead fun hl' => hl ((hlive hx).mp hl')]

namespace Spliced

variable (h : Spliced p q o fragment t t')
include h

theorem place_not_under : ¬t.Under o p := fun hu =>
  Nat.not_lt.mpr (h.ready.linked.le_of_under hu) h.ready.younger

theorem output_not_under : ¬t.Under p o := fun hu =>
  Nat.ne_of_lt h.ready.younger (hu.eq_of_no_parent h.ready.root)

/-- What stands under an output does not stand under its place. -/
theorem not_under_place (hx : t.Under o x) : ¬t.Under p x := fun hu =>
  (hu.comparable hx).elim h.output_not_under h.place_not_under

/-- An output shows in its place what it showed before. -/
theorem shows_output (hs : Shows t held (t.offered fragment o) f)
    (same : ∀ x, x ≠ p → held' x = held x) : Shows t' held' (t.offered fragment o) f := by
  have hqo : q < o := h.ready.parent_lt_output
  have hplace := live_of_parent h.ready.place
  have hdead : ∀ {x}, ¬t.contains x → ¬t'.contains x := fun hx hl => hx (h.live.mp hl).1
  -- Nodes under the output are left alone, and so are the dead ones that are listed there.
  refine hs.congr (P := fun x => t.Under o x ∧ ¬(fragment ∧ x = o) ∨ ¬t.contains x) ?_ ?_ ?_ ?_ ?_
  · intro x hx
    by_cases hl : t.contains x
    · unfold offered at hx
      split at hx
      · have hp := h.ready.linked.link hx hl
        refine .inl ⟨.of_parent hp, fun hf => ?_⟩
        rw [hf.2, h.ready.root] at hp
        cases hp
      · rename_i hf
        exact .inl ⟨List.mem_singleton.mp hx ▸ .self, fun hf' => hf hf'.1⟩
    · exact .inr hl
  · rintro x (⟨hu, hx⟩ | hx) _ c hc
    · by_cases hl : t.contains c
      · have hp := h.ready.linked.link hc hl
        refine .inl ⟨hu.step hp, fun hf => ?_⟩
        rw [hf.2, h.ready.root] at hp
        cases hp
      · exact .inr hl
    · exact absurd (live_of_listed hc) hx
  · rintro x hP _
    by_cases hl : t.contains x
    · obtain ⟨hu, hx⟩ := hP.resolve_right (not_not.mpr hl)
      exact h.item (h.live.mpr ⟨hl, h.not_under_place hu, hx⟩)
    · have hd := hdead hl
      rw [contains_iff_get?, not_not] at hl hd
      rw [hl, hd]
  · rintro x hP _
    by_cases hl : t.contains x
    · obtain ⟨hu, hx⟩ := hP.resolve_right (not_not.mpr hl)
      have hne : x ≠ q := Nat.ne_of_gt (Nat.lt_of_lt_of_le hqo (h.ready.linked.le_of_under hu))
      rw [h.children (h.live.mpr ⟨hl, h.not_under_place hu, hx⟩), if_neg hne]
    · rw [children_of_dead hl, children_of_dead (hdead hl)]
  · rintro x hP
    refine same x ?_
    rintro rfl
    exact hP.elim (fun hu => h.place_not_under hu.1) fun hd => hd hplace

/-- Lists name the output where they named its place. -/
theorem children_eq_flatMap (hx : t'.contains x) : t'.children x =
    (t.children x).flatMap fun c => if c = p then t.offered fragment o else [c] := by
  have hplace := live_of_parent h.ready.place
  rw [← putAt_eq_flatMap (h.ready.linked.once hplace), h.children hx]
  split
  · rename_i hxq
    rw [hxq]
  · rename_i hxq
    have hnot : p ∉ t.children x := fun hm => hxq (by
      have := h.ready.linked.link hm hplace
      rw [h.ready.place] at this
      exact (Option.some.inj this).symm)
    calc t.children x = (t.children x).flatMap fun c => [c] := (List.flatMap_singleton' _).symm
      _ = putAt p (t.offered fragment o) (t.children x) := by
        rw [putAt_eq_flatMap (h.ready.linked.once hplace)]
        simp only [List.flatMap_def]
        refine congrArg List.flatten (List.map_congr_left fun c hc => (if_neg ?_).symm)
        exact fun he => hnot (he ▸ hc)

/-- An output in its place shows what the place was held for. -/
theorem shows (apart : ∀ x, o ∉ t.children x) (hs : Shows t held ids g)
    (hids : ∀ x ∈ ids, ¬t.Under o x ∧ (x = p ∨ ¬t.Under p x)) (due : held p = some f)
    (free : held' p = none) (same : ∀ y, y ≠ p → held' y = held y)
    (hf : Shows t held (t.offered fragment o) f) :
    Shows t' held' (ids.flatMap fun c => if c = p then t.offered fragment o else [c]) g := by
  have hlinked := h.ready.linked
  have hne : ∀ {y}, held y = none → y ≠ p := by
    rintro y hy rfl
    rw [due] at hy
    cases hy
  have hout : ∀ {y}, ¬t.Under o y → ¬t.Under p y → (t'.contains y ↔ t.contains y) := by
    intro y hyo hyp
    refine h.live.trans (and_iff_left ⟨hyp, fun hf => hyo ?_⟩)
    rw [hf.2]
    exact .self
  refine hs.replaced hids ?_ ?_ ?_ ?_ ?_
  · rintro y ⟨hyo, hyp⟩ hy c hc
    have hyp := hyp.resolve_left (hne hy)
    have hback : ∀ {a}, t.Under a c → a = c ∨ t.Under a y := by
      intro a ha
      refine ha.cases_parent.imp_right ?_
      rintro ⟨b, hb, hab⟩
      rw [hlinked.link hc (live_of_parent hb)] at hb
      exact Option.some.inj hb ▸ hab
    constructor
    · intro hoc
      rcases hback hoc with rfl | hoy
      · exact apart y hc
      · exact hyo hoy
    · by_cases hcp : c = p
      · exact .inl hcp
      · exact .inr fun hpc => (hback hpc).elim (fun he => hcp he.symm) hyp
  · rintro y ⟨hyo, hyp⟩ hy
    have hiff := hout hyo (hyp.resolve_left (hne hy))
    by_cases hl : t.contains y
    · exact h.item (hiff.mpr hl)
    · have hd : ¬t'.contains y := fun hl' => hl (hiff.mp hl')
      rw [contains_iff_get?, not_not] at hl hd
      rw [hl, hd]
  · rintro y ⟨hyo, hyp⟩ hy
    have hiff := hout hyo (hyp.resolve_left (hne hy))
    by_cases hl : t.contains y
    · exact h.children_eq_flatMap (hiff.mpr hl)
    · rw [children_of_dead hl, children_of_dead fun hl' => hl (hiff.mp hl')]
      rfl
  · rintro y _ hy
    exact ⟨(same y (hne hy)).trans hy, if_neg (hne hy)⟩
  · rintro y f' _ hy
    by_cases hyp : y = p
    · subst hyp
      rw [due] at hy
      rw [if_pos rfl, ← Option.some.inj hy]
      exact h.shows_output hf same
    · rw [if_neg hyp]
      exact List.append_nil f' ▸ .held ((same y hyp).trans hy) .nil

end Spliced

end Changes

/-! Reading a subtree. -/

/-- How many live nodes are not older than a node, which bounds how many stand below it in a row. -/
def younger (t : Tree α) (x : NodeId) : Nat :=
  (t.slots.entries.filter fun e => x ≤ e.1).length

theorem younger_le (t : Tree α) (x : NodeId) : t.younger x ≤ t.size :=
  List.length_filter_le ..

theorem younger_lt (hp : t.contains p) (hlt : p < x) : t.younger x < t.younger p := by
  obtain ⟨s, hs⟩ := contains_iff.mp hp
  have hsub : (t.slots.entries.filter fun e => x ≤ e.1) =
      (t.slots.entries.filter fun e => p ≤ e.1).filter fun e => x ≤ e.1 := by
    rw [List.filter_filter]
    refine List.filter_congr fun e _ => ?_
    by_cases he : x ≤ e.1
    · simp [he, Nat.le_trans (Nat.le_of_lt hlt) he]
    · simp [he]
  rw [younger, hsub]
  refine List.length_filter_lt_length_iff_exists.mpr ⟨(p, s), ?_, by simpa using hlt⟩
  exact List.mem_filter.mpr ⟨Table.mem_entries.mpr hs, by simp⟩

theorem younger_pos (hx : t.contains x) : 0 < t.younger x := by
  obtain ⟨s, hs⟩ := contains_iff.mp hx
  exact List.length_pos_of_mem (List.mem_filter.mpr ⟨Table.mem_entries.mpr hs, by simp⟩)

/-- What is read of nodes, deep enough, is what they show. -/
theorem Shows.filterMap_subtreeWithin (h : Shows t noneHeld ids f) (ht : t.Linked) (fuel : Nat)
    (hfuel : ∀ x ∈ ids, t.contains x → t.younger x ≤ fuel) :
    ids.filterMap (t.subtreeWithin fuel) = f := by
  generalize hheld : (noneHeld : NodeId → Option (List (Rose α))) = held at h
  induction h generalizing fuel with
  | nil => rfl
  | held hx _ _ =>
    rw [← hheld] at hx
    cases hx
  | @gone x ids fs _ hx _ ih =>
    have hread : t.subtreeWithin fuel x = none := by
      cases fuel with
      | zero => rfl
      | succ n => simp [subtreeWithin, Option.map_eq_none_iff.mp hx]
    rw [List.filterMap_cons, hread]
    exact ih fuel fun y hy => hfuel y (List.mem_cons_of_mem _ hy)
  | @node x ids v kids fs _ hitem _ _ ihb ih =>
    have hl := get?_eq_some_live hitem
    have hx := hfuel x List.mem_cons_self hl
    obtain ⟨n, rfl⟩ := Nat.exists_eq_add_of_lt (Nat.lt_of_lt_of_le (younger_pos hl) hx)
    obtain ⟨s, hs, rfl⟩ := Option.map_eq_some_iff.mp hitem
    have hbelow : (t.children x).filterMap (t.subtreeWithin n) = kids :=
      ihb n fun c hc hcl => by
        have := younger_lt hl (ht.ordered (ht.link hc hcl))
        omega
    have hread : t.subtreeWithin (0 + n + 1) x = some (.node s.value kids) := by
      rw [← hbelow, Nat.zero_add]
      simp [subtreeWithin, hs, children]
    rw [List.filterMap_cons, hread]
    exact congrArg _ (ih _ fun y hy => hfuel y (List.mem_cons_of_mem _ hy))

/-- The subtree at a node is what the node shows. -/
theorem subtree?_of_shows (h : Shows t noneHeld [x] f) (ht : t.Linked) :
    (t.subtree? x).toList = f := by
  rw [← h.filterMap_subtreeWithin ht t.size fun x _ _ => younger_le t x, subtree?]
  cases hs : t.subtreeWithin t.size x <;> simp [hs]

/-- A node that has a subtree is live. -/
theorem live_of_subtree? {r : Rose α} (h : t.subtree? x = some r) : t.contains x := by
  rw [subtree?] at h
  cases hsize : t.size with
  | zero =>
    rw [hsize] at h
    cases h
  | succ n =>
    rw [hsize, subtreeWithin] at h
    split at h
    · cases h
    · exact contains_iff.mpr ⟨_, ‹_›⟩

end Montage.Tree
