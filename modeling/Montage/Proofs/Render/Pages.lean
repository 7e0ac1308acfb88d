import Mathlib.Data.List.Basic
import Mathlib.Data.List.Induction
import Montage.Proofs.Render.Clicks

/-!
The pages of a list. A click shows the page after the last one, or all that is left. Main statements: the
pages show the items one after the other, and what is taken up for a page stands at the end of its
container, followed by buttons if items are left.
-/

namespace Montage

open Json (Value)

variable {F α : Type}

namespace Page

/-- The items of a page, each with where it stands. -/
def shown (page : Page F) : List (Value × ListItem) :=
  World.listItems page.items page.start page.stop

/-- The page as the buttons after it know it. -/
def onward (page : Page F) : Page F :=
  { page with offset := page.stop }

/-- The page that a click on a button shows. -/
def next (page : Page F) (all : Bool) : Page F :=
  { page.onward with limit := if all then none else page.limit }

/-- The page that is shown last when these clicks are made. -/
def last (page : Page F) (clicks : List Bool) : Page F :=
  clicks.foldl next page

/-- All pages that are shown. -/
def course (page : Page F) : List Bool → List (Page F)
  | [] => [page]
  | all :: clicks => page :: (page.next all).course clicks

/-- The first item that is not shown yet: each click goes on by a page, or to the end. -/
def reached (page : Page F) (clicks : List Bool) : Nat :=
  clicks.foldl (fun e all =>
    if all then page.items.length else e + nextPage page.limit (page.items.length - e)) page.stop

variable (page : Page F) (clicks : List Bool) (all : Bool)

theorem start_le_stop : page.start ≤ page.stop := by
  unfold stop
  split
  · exact Nat.min_le_right ..
  · exact Nat.le_min.mpr ⟨Nat.le_add_right .., Nat.min_le_right ..⟩

theorem stop_le : page.stop ≤ page.items.length := by
  unfold stop
  split
  · exact Nat.le_refl _
  · exact Nat.min_le_right ..

/-- A page goes on by its size, or to the end. -/
theorem stop_eq : page.stop = page.start + nextPage page.limit (page.items.length - page.start) := by
  have hle : page.start ≤ page.items.length := Nat.min_le_right ..
  unfold stop nextPage
  cases page.limit with
  | none => simp only; omega
  | some n => simp only; omega

theorem start_next : (page.next all).start = page.stop :=
  Nat.min_eq_left page.stop_le

theorem stop_next : (page.next all).stop = if all then page.items.length else
    page.stop + nextPage page.limit (page.items.length - page.stop) := by
  cases all with
  | true => rfl
  | false =>
    rw [stop_eq, start_next]
    rfl

theorem last_append : page.last (clicks ++ [all]) = (page.last clicks).next all := by
  simp [last]

theorem course_append : page.course (clicks ++ [all]) =
    page.course clicks ++ [(page.last clicks).next all] := by
  induction clicks generalizing page with
  | nil => rfl
  | cons first clicks ih => exact congrArg (page :: ·) (ih (page.next first))

theorem reached_append : page.reached (clicks ++ [all]) = if all then page.items.length else
    page.reached clicks + nextPage page.limit (page.items.length - page.reached clicks) := by
  simp [reached]

/-- Clicks change where a page begins, and how far it goes. -/
theorem last_frame : (page.last clicks).item = page.item ∧ (page.last clicks).items = page.items ∧
    (page.last clicks).context = page.context ∧ (page.last clicks).more = page.more := by
  induction clicks using List.reverseRecOn with
  | nil => exact ⟨rfl, rfl, rfl, rfl⟩
  | append_singleton clicks all ih =>
    rw [last_append]
    exact ih

/-- As long as items are left, the size of the page is that of the first. -/
theorem limit_last (h : (page.last clicks).stop < page.items.length) :
    (page.last clicks).limit = page.limit := by
  induction clicks using List.reverseRecOn with
  | nil => rfl
  | append_singleton clicks all ih =>
    have hitems := (page.last_frame clicks).2.1
    rw [last_append] at h ⊢
    have hstop := (page.last clicks).stop_next all
    cases all with
    | true =>
      rw [hstop, if_pos rfl, hitems] at h
      exact absurd h (Nat.lt_irrefl _)
    | false =>
      rw [hstop, if_neg Bool.false_ne_true] at h
      exact ih (Nat.lt_of_le_of_lt (Nat.le_add_right ..) h)

theorem stop_last : (page.last clicks).stop = page.reached clicks := by
  induction clicks using List.reverseRecOn with
  | nil => rfl
  | append_singleton clicks all ih =>
    have hitems := (page.last_frame clicks).2.1
    rw [last_append, stop_next, reached_append, hitems, ih]
    by_cases hleft : (page.last clicks).stop < page.items.length
    · rw [page.limit_last clicks hleft]
    · -- Nothing is left, so that the size of the page does not matter.
      have hnone : page.items.length - page.reached clicks = 0 := by omega
      have hzero : ∀ limit, nextPage limit 0 = 0 := fun limit => by cases limit <;> simp [nextPage]
      rw [hnone, hzero, hzero]

theorem start_le_reached : page.start ≤ page.reached clicks := by
  induction clicks using List.reverseRecOn with
  | nil => exact page.start_le_stop
  | append_singleton clicks all ih =>
    rw [reached_append]
    split
    · exact Nat.min_le_right ..
    · exact Nat.le_trans ih (Nat.le_add_right ..)

/-- A click goes on by at least one item, if items are left. -/
theorem reached_lt (hlimit : page.limit ≠ some 0) (h : page.reached clicks < page.items.length) :
    page.reached clicks < page.reached (clicks ++ [all]) := by
  rw [reached_append]
  split
  · exact h
  · refine Nat.lt_add_of_pos_right ?_
    unfold nextPage
    split
    · exact Nat.sub_pos_of_lt h
    · rename_i n hn
      have : n ≠ 0 := fun he => hlimit (he ▸ hn)
      omega

/-! The items of a page. -/

theorem map_index_shown : page.shown.map (·.2.index) =
    List.range' page.start (page.stop - page.start) := by
  have hle := page.stop_le
  rw [shown, World.listItems, List.map_filterMap, List.range'_eq_map_range,
    ← List.filterMap_eq_map]
  refine List.filterMap_congr fun i hi => ?_
  have hlt : page.start + i < page.items.length := by
    have := List.mem_range.mp hi
    omega
  simp [List.getElem?_eq_getElem hlt]

/-- The pages show the items one after the other. -/
theorem map_index_course : ((page.course clicks).flatMap shown).map (·.2.index) =
    List.range' page.start (page.reached clicks - page.start) := by
  induction clicks using List.reverseRecOn with
  | nil => simpa [course, reached] using page.map_index_shown
  | append_singleton clicks all ih =>
    have hstart := (page.last clicks).start_next all
    have hfirst := page.start_le_reached clicks
    have hstop := ((page.last clicks).next all).start_le_stop
    rw [course_append, List.flatMap_append, List.map_append, ih, List.flatMap_singleton,
      map_index_shown, hstart, ← last_append, stop_last, stop_last]
    rw [hstart, ← last_append, stop_last, stop_last] at hstop
    have hsum : page.reached (clicks ++ [all]) - page.start =
        (page.reached clicks - page.start) + (page.reached (clicks ++ [all]) - page.reached clicks) := by
      omega
    have hbegin : page.reached clicks = page.start + (page.reached clicks - page.start) := by omega
    rw [hsum, ← List.range'_append_1, ← hbegin]

end Page

variable [Medium α]

namespace Scene

variable {sc : Scene F α} {settings : Settings} {c : NodeId} {page : Page F}

/-- A wrapper offers the rest of a list: it shows what the medium makes of the rest, its last children
show pages when they are clicked, and nothing else does. -/
structure Offers (sc : Scene F α) (settings : Settings) (c : NodeId) (rest : Page F)
    (wrapper : NodeId) : Prop where
  parent : sc.tree.parent? wrapper = some (rest.more.getD c)
  shows : sc.tree.Shows Tree.noneHeld [wrapper]
    [(Medium.more settings rest.limit (rest.items.length - rest.offset)).rose]
  buttons : ∃ top ids, sc.tree.children wrapper = top ++ ids ∧
    top.length = (Medium.more (α := α) settings rest.limit
      (rest.items.length - rest.offset)).label.toList.length ∧
    ids.map sc.clicks.get? = (Medium.more (α := α) settings rest.limit
      (rest.items.length - rest.offset)).buttons.map
        fun b => some ⟨[], [.turn wrapper c rest b.all]⟩
  only : ∀ x k, sc.clicks.get? x = some k → k.turned? c ≠ none →
    sc.tree.parent? x = some wrapper ∧ ∃ all, k = ⟨[], [.turn wrapper c rest all]⟩

/-- What follows the last page: a wrapper if items are left. -/
inductive Tail (sc : Scene F α) (settings : Settings) (c : NodeId) (page : Page F) :
    List NodeId → Prop
  | none (all : page.stop = page.items.length)
      (only : ∀ x k, sc.clicks.get? x = some k → k.turned? c = none) : Tail sc settings c page []
  | some {wrapper : NodeId} (left : page.stop < page.items.length)
      (offers : sc.Offers settings c page.onward wrapper) : Tail sc settings c page [wrapper]

/-- Showing that a list goes on offers the rest. -/
theorem offers_showMore (settings : Settings) (page : Page F) (h : sc.tree.Linked)
    (hm : sc.tree.contains (page.more.getD c))
    (hnone : ∀ x k, sc.clicks.get? x = some k → k.turned? c = none) :
    (sc.showMore settings c page).tree.children (page.more.getD c) =
        sc.tree.children (page.more.getD c) ++ [sc.tree.next] ∧
      (sc.showMore settings c page).Offers settings c page sc.tree.next := by
  have hlt := h.live_lt hm
  obtain ⟨top, ids, hkids, htop, hnew, hbound, hold⟩ := clicks_showMore sc settings c page h hlt
  have hfree : ∀ x, sc.tree.next ≤ x → Tree.noneHeld (α := α) x = none := fun _ _ => rfl
  obtain ⟨hlast, hshows⟩ := Tree.shows_plant
    (Medium.more settings page.limit (page.items.length - page.offset)).rose h hm hfree
  have hlinked := (Tree.Grown.plant
    (Medium.more settings page.limit (page.items.length - page.offset)).rose h hlt).after
  rw [← tree_showMore sc settings c page] at hlast hshows hlinked
  have hlive : (sc.showMore settings c page).tree.contains sc.tree.next :=
    Tree.live_of_subtree? (Option.toList_eq_singleton_iff.mp (Tree.subtree?_of_shows hshows hlinked))
  refine ⟨hlast, ⟨hlinked.link (by simp [hlast]) hlive, hshows, ⟨top, ids, hkids, htop, hbound⟩, ?_⟩⟩
  intro x k hk ht
  by_cases hx : x ∈ ids
  · have hm : some k ∈ ids.map (sc.showMore settings c page).clicks.get? :=
      hk ▸ List.mem_map_of_mem hx
    rw [hbound] at hm
    obtain ⟨b, _, hb⟩ := List.mem_map.mp hm
    exact ⟨hlinked.link (by simp [hkids, hx]) (hnew x hx).2, b.all, (Option.some.inj hb).symm⟩
  · rw [hold x hx] at hk
    exact absurd (hnone x k hk) ht

end Scene

namespace World

variable {w : World F α} {s : Setup F α} {c d : NodeId}

/-! What is taken up for a page. -/

theorem briefs_takeUpAll (around : Surroundings) (cs : List (Config F)) :
    (w.takeUpAll d around cs).2.map Run.brief = cs.map (Brief.ofConfig α w.registry around) := by
  induction cs generalizing w with
  | nil => rfl
  | cons c cs ih => exact congrArg _ (ih (w := (w.takeUp d around c).1))

theorem briefs_takeUpItems (raw : RawConfig F) (context : Value) (items : List (Value × ListItem)) :
    (w.takeUpItems s d raw context items).2.map (·.map Run.brief) =
      items.map fun i => (raw.normalize s.engine).map
        (Brief.ofConfig α w.registry ⟨i.1, i.2.context context, some i.2⟩) := by
  induction items generalizing w with
  | nil => rfl
  | cons i items ih =>
    obtain ⟨v, item⟩ := i
    have hrest := ih (w := (w.takeUpRaw s d ⟨v, item.context context, some item⟩ raw).1)
    have hregistry := (sameHouse_takeUpAll (w := w) (d := d) ⟨v, item.context context, some item⟩
      (raw.normalize s.engine)).registry
    rw [takeUpRaw, hregistry] at hrest
    exact congrArg₂ List.cons (briefs_takeUpAll _ _) hrest

/-- A click on a button takes up the next page. -/
theorem takeUpList_onward (page : Page F) (all : Bool) :
    w.takeUpList s c page.onward all = w.takeUpList s c (page.next all) false := by
  cases all <;> rfl

/-- A page was taken up: places are held for its items in their order at the end of the container, and
what follows the page comes after them, or is at the end of another node. -/
structure Laid (s : Setup F α) (registry : Registry F) (c : NodeId) (page : Page F)
    (sc sc' : Scene F α) (batches : List (List (Run F α))) (affs : List NodeId) : Prop where
  briefs : batches.map (·.map Run.brief) = page.shown.map fun i =>
    (page.item.normalize s.engine).map
      (Brief.ofConfig α registry ⟨i.1, i.2.context page.context, some i.2⟩)
  fresh : ∀ r ∈ batches.flatten, sc.tree.next ≤ r.place
  nodup : (batches.flatten.map Run.place).Nodup
  item : ∀ r ∈ batches.flatten, sc'.tree.get? r.place = some Medium.reserved
  held : ∀ r ∈ batches.flatten, sc'.places.get? r.place = some ⟨r.config.viewName?, false⟩
  parent : ∀ r ∈ batches.flatten, ∀ q, sc'.tree.parent? r.place = some q → q = c
  unpainted : ∀ r ∈ batches.flatten, r.output? = none
  live : ∀ x, sc.tree.contains x → sc'.tree.contains x
  kids : sc'.tree.children c = sc.tree.children c ++
    (batches.flatten.map Run.place ++ if page.more.getD c = c then affs else [])
  other : page.more.getD c ≠ c →
    sc'.tree.children (page.more.getD c) = sc.tree.children (page.more.getD c) ++ affs
  tail : sc'.Tail s.settings c page affs
  after : ∀ n ∈ affs, sc.tree.next ≤ n ∧ n ∉ batches.flatten.map Run.place

/-- Taking up a page where no click shows one yet. -/
theorem laid_takeUpList (page : Page F) (h : w.scene.tree.Linked) (hc : w.scene.tree.contains c)
    (hm : w.scene.tree.contains (page.more.getD c))
    (hnone : ∀ x k, w.scene.clicks.get? x = some k → k.turned? c = none) :
    ∃ affs, Laid s w.registry c page w.scene (w.takeUpList s c page false).1.scene
      (w.takeUpList s c page false).2 affs := by
  have hlt := h.live_lt hc
  have htakes := takes_takeUpItems s page.item page.context page.shown h hlt
  have hbriefs := briefs_takeUpItems (w := w) (s := s) (d := c) page.item page.context page.shown
  have hclicks := clicks_takeUpItems (w := w) (s := s) (d := c) page.item page.context page.shown
  have heq : w.takeUpList s c page false =
      if page.stop < page.items.length then
        ({ (w.takeUpItems s c page.item page.context page.shown).1 with
            scene := (w.takeUpItems s c page.item page.context page.shown).1.scene.showMore
              s.settings c page.onward },
          (w.takeUpItems s c page.item page.context page.shown).2)
      else w.takeUpItems s c page.item page.context page.shown := takeUpList_eq w s c page
  rw [heq]
  generalize w.takeUpItems s c page.item page.context page.shown = v at htakes hbriefs hclicks ⊢
  rw [← hclicks] at hnone
  have hlives : ∀ x, w.scene.tree.contains x → v.1.scene.tree.contains x := fun x hx =>
    htakes.grown.tree.lives hx
  have hother : page.more.getD c ≠ c → v.1.scene.tree.children (page.more.getD c) =
      w.scene.tree.children (page.more.getD c) := fun hne =>
    htakes.grown.tree.children (h.live_lt hm) fun he => hne (Option.some.inj he).symm
  split
  · rename_i hleft
    have hlinked := htakes.grown.tree.after
    have hclt := hlinked.live_lt (hlives c hc)
    have hg := Scene.Grown.showMore s.settings c page.onward hlinked hclt
      (hlinked.live_lt (hlives _ hm))
    obtain ⟨hlast, hoffers⟩ :=
      Scene.offers_showMore s.settings page.onward hlinked (hlives _ hm) hnone
    refine ⟨[v.1.scene.tree.next], hbriefs, fun r hr => (htakes.fresh r hr).1, htakes.nodup, ?_, ?_,
      ?_, htakes.unpainted, fun x hx => hg.tree.lives (hlives x hx), ?_, fun hne => ?_,
      .some hleft hoffers, ?_⟩
    · exact fun r hr => (Scene.get?_showMore (htakes.fresh r hr).2).trans (htakes.item r hr)
    · exact fun r hr => (hg.places (htakes.fresh r hr).2).trans (htakes.held r hr)
    · intro r hr q hq
      rw [hg.tree.parent (htakes.fresh r hr).2] at hq
      exact htakes.parent r hr q hq
    · split
      · rename_i he
        have hlast' := hlast
        simp only [Page.onward, he] at hlast'
        rw [← List.append_assoc, ← htakes.children hc]
        exact hlast'
      · rename_i hne
        rw [List.append_nil, ← htakes.children hc]
        exact hg.tree.children hclt fun he => hne (Option.some.inj he)
    · rw [← hother hne]
      exact hlast
    · intro n hn
      rw [List.mem_singleton.mp hn]
      refine ⟨htakes.grown.tree.next_le, fun hm => ?_⟩
      obtain ⟨r, hr, he⟩ := List.mem_map.mp hm
      exact Nat.ne_of_lt (htakes.fresh r hr).2 he
  · rename_i hleft
    refine ⟨[], hbriefs, fun r hr => (htakes.fresh r hr).1, htakes.nodup, htakes.item, htakes.held,
      htakes.parent, htakes.unpainted, hlives, ?_, fun hne => ?_,
      .none (Nat.le_antisymm page.stop_le (Nat.not_lt.mp hleft)) hnone, by simp⟩
    · rw [ite_self, List.append_nil, htakes.children hc]
    · rw [List.append_nil, hother hne]

end World

end Montage
