import Montage.Proofs.Render.Paging

/-!
Lists whose buttons are clicked at any time, also while the pages of earlier clicks are still to be shown.
Main statement: until a page is shown for a click whose wrapper is gone, the list is shown page by page;
and such a page shows an item that is shown already.
-/

namespace Montage

open Json (Value)

variable {F α : Type} [Medium α]

namespace Act

/-- The items that a step shows of a list in a container for a click. -/
def shows (c : NodeId) (w : World F α) : Act F α → List (Value × ListItem)
  | .step id =>
    match (w.task? id).map Task.work with
    | some (.errands (.turn _ d page all :: _)) =>
      if d = c then ({ page with limit := if all then none else page.limit } : Page F).shown else []
    | _ => []
  | _ => []

/-- Shows a page for a click whose wrapper is gone. -/
def IsStale (c : NodeId) (w : World F α) : Act F α → Prop
  | .step id =>
    match (w.task? id).map Task.work with
    | some (.errands (.turn n d _ _ :: _)) => d = c ∧ ¬w.scene.tree.contains n
    | _ => False
  | _ => False

/-- Tasks take steps, gates open, and buttons of a list are clicked, at any time. -/
def Presses (c : NodeId) (w : World F α) : Act F α → Prop
  | .step _ | .note _ | .release _ => True
  | .click n => (Act.click n : Act F α).clicked? c w ≠ none
  | _ => False

instance (c : NodeId) (w : World F α) (a : Act F α) : Decidable (a.Presses c w) :=
  match a with
  | .step _ | .note _ | .release _ => inferInstanceAs (Decidable True)
  | .click n => inferInstanceAs (Decidable ((Act.click n : Act F α).clicked? c w ≠ none))
  | .render .. | .renderConfig .. | .renderList .. | .discard _ | .create _ | .plant .. | .mark ..
  | .popup _ | .define _ => inferInstanceAs (Decidable False)

end Act

namespace Page

variable (page : Page F) (clicks : List Bool) (all : Bool)

/-- The page of a click begins with an item that no page before it shows. -/
theorem reached_mem_next (hlimit : page.limit ≠ some 0) (h : page.reached clicks < page.items.length) :
    page.reached clicks ∈ ((page.last clicks).next all).shown.map (·.2.index) := by
  rw [map_index_shown, start_next, stop_last, ← last_append, stop_last, List.mem_range'_1]
  have hlt := page.reached_lt clicks all hlimit h
  omega

theorem reached_mem_course {more : List Bool} (hlt : page.reached clicks < page.reached more) :
    page.reached clicks ∈ ((page.course more).flatMap shown).map (·.2.index) := by
  rw [map_index_course, List.mem_range'_1]
  have hstart := page.start_le_reached clicks
  omega

end Page

namespace World

/-- All items that are shown of a list, those of its first page and those that were clicked for. -/
def itemsShown (c : NodeId) (page : Page F) (es : List (World F α × Act F α)) :
    List (Value × ListItem) :=
  page.shown ++ es.flatMap fun e => e.2.shows c e.1

variable {s : Setup F α} {es : List (World F α × Act F α)} {u w w' : World F α} {a : Act F α}
  {t : Task F α} {c n : NodeId} {page : Page F}

theorem itemsShown_snoc :
    itemsShown c page (es ++ [(w, a)]) = itemsShown c page es ++ a.shows c w := by
  simp [itemsShown]

/-- An errand that shows what follows some pages of a list. Its wrapper is the one that is there, or it is
gone, and then more was shown since. -/
inductive Clicked (page : Page F) (c : NodeId) (alls : List Bool) (affs : List NodeId) (w : World F α) :
    Errand F → Prop
  | there {n : NodeId} {all : Bool} (only : affs = [n]) :
    Clicked page c alls affs w (.turn n c (page.last alls).onward all)
  | gone {n : NodeId} {clicks : List Bool} {all : Bool} (known : n < w.scene.tree.next)
    (dead : ¬w.scene.tree.contains n) (left : page.reached clicks < page.items.length)
    (since : page.limit ≠ some 0 → page.reached clicks < page.reached alls) :
    Clicked page c alls affs w (.turn n c (page.last clicks).onward all)

/-- The buttons of a list are clicked, and no page was shown for a click whose wrapper is gone. -/
structure Pressing (s : Setup F α) (c : NodeId) (page : Page F) (u : World F α) (alls : List Bool)
    (affs : List NodeId) (seats : List (List (Seat F))) (es : List (World F α × Act F α))
    (w : World F α) : Prop where
  shelf : Shelf s c page u alls affs seats es w
  turned : turnsOf c es = alls
  shown : itemsShown c page es = (page.course alls).flatMap Page.shown
  fresh : ∀ e ∈ es, ¬e.2.IsStale c e.1
  due : ∀ {t e errands}, t ∈ w.tasks → t.work = .errands (e :: errands) →
    errands = [] ∧ Clicked page c alls affs w e

/-- A page was shown for a click whose wrapper was gone, and an item for the second time. -/
structure Repeated (c : NodeId) (page : Page F) (es : List (World F α × Act F α)) : Prop where
  stale : ∃ e ∈ es, e.2.IsStale c e.1
  twice : page.limit ≠ some 0 → ¬((itemsShown c page es).map (·.2.index)).Nodup

theorem Repeated.snoc (h : Repeated c page es) (w : World F α) (a : Act F α) :
    Repeated c page (es ++ [(w, a)]) where
  stale := by
    obtain ⟨e, he, hstale⟩ := h.stale
    exact ⟨e, List.mem_append_left _ he, hstale⟩
  twice hlimit hnodup := by
    rw [itemsShown_snoc, List.map_append] at hnodup
    exact h.twice hlimit (List.Nodup.of_append_left hnodup)

/-- A task without an errand shows nothing. -/
theorem shows_of_plain (h : Roster w) (ht : t ∈ w.tasks)
    (hplain : ∀ e errands, t.work ≠ .errands (e :: errands)) :
    (Act.step t.id).shows c w = [] ∧ ¬(Act.step t.id).IsStale c w := by
  simp only [Act.shows, Act.IsStale, h.task? ht, Option.map_some]
  cases hwork : t.work with
  | run r => exact ⟨rfl, id⟩
  | batch rs => exact ⟨rfl, id⟩
  | errands errands =>
    cases errands with
    | nil => exact ⟨rfl, id⟩
    | cons e errands => exact absurd hwork (hplain e errands)

/-- A task of a click shows the page that the button offers. -/
theorem shows_of_turn (h : Roster w) (ht : t ∈ w.tasks) {clicks : List Bool} {all : Bool}
    (hwork : t.work = .errands [.turn n c (page.last clicks).onward all]) :
    (Act.step t.id).shows c w = ((page.last clicks).next all).shown := by
  simp [Act.shows, h.task? ht, hwork, Page.next, Page.onward]

variable {alls : List Bool} {affs : List NodeId} {seats : List (List (Seat F))} {e : Errand F}

/-- A wrapper that is gone stays so. -/
theorem Clicked.kept (h : Clicked page c alls affs w e)
    (hfades : Tree.Fades w.scene.tree w'.scene.tree) : Clicked page c alls affs w' e := by
  cases h with
  | there only => exact .there only
  | gone known dead left since =>
    exact .gone (Nat.lt_of_lt_of_le known hfades.next_le) (fun hl => dead (hfades.live known hl)) left
      since

namespace Pressing

variable [LawfulMedium α]

/-- What shows no page, and begins no errands, goes on by itself. -/
theorem calm (h : Pressing s c page u alls affs seats es w)
    (hshelf : Shelf s c page u alls affs seats (es ++ [(w, a)]) w') (hknown : a.Known w.scene.tree.next)
    (hact : w.act s a = some w') (hturned : a.turned? c w = none) (hshows : a.shows c w = [])
    (hfresh : ¬a.IsStale c w)
    (hdue : ∀ {v e errands}, v ∈ w'.tasks → v.work = .errands (e :: errands) →
      v ∈ w.tasks ∨ errands = [] ∧ Clicked page c alls affs w e) :
    Pressing s c page u alls affs seats (es ++ [(w, a)]) w' where
  shelf := hshelf
  turned := by rw [turnsOf_snoc, hturned, h.turned, Option.toList_none, List.append_nil]
  shown := by rw [itemsShown_snoc, hshows, h.shown, List.append_nil]
  fresh e he := by
    rcases List.mem_append.mp he with he | he
    · exact h.fresh e he
    · exact List.mem_singleton.mp he ▸ hfresh
  due hv hwork := by
    have hfades := (frame_of_act h.shelf.hosted.orderly.sound hknown hact).fades
    have hold := (hdue hv hwork).elim (fun hv => h.due hv hwork) id
    exact ⟨hold.1, hold.2.kept hfades⟩

/-- A step that is not for a click. -/
theorem calm_step (h : Pressing s c page u alls affs seats es w) (ht : t ∈ w.tasks)
    (hplain : ∀ e errands, t.work ≠ .errands (e :: errands)) (hact : w.act s (.step t.id) = some w') :
    Pressing s c page u alls affs seats (es ++ [(w, .step t.id)]) w' := by
  have hr := h.shelf.hosted.orderly.sound.roster
  obtain ⟨hshows, hfresh⟩ := shows_of_plain (c := c) hr ht hplain
  refine h.calm (h.shelf.step ht hplain hact) trivial hact (turned_of_plain hr ht hplain) hshows hfresh
    fun hv hwork => ?_
  rcases errands_of_turn hr ht (turn_of_mem hr ht hact) hv hwork with ⟨hv, _⟩ | ⟨e₀, hold⟩
  · exact .inl hv
  · exact absurd hold (hplain _ _)

/-- The step for a click whose wrapper is there shows the next page. -/
theorem turn_step {lo : NodeId} {all : Bool} (h : Pressing s c page u alls [lo] seats es w)
    (ht : t ∈ w.tasks) (hwork : t.work = .errands [.turn lo c (page.last alls).onward all])
    (hact : w.act s (.step t.id) = some w') : ∃ affs new,
    Pressing s c page u (alls ++ [all]) affs (seats ++ new) (es ++ [(w, .step t.id)]) w' := by
  have hs := h.shelf.hosted.orderly.sound
  have hr := hs.roster
  have hl := hs.linked
  have hlo := Tree.live_of_parent h.shelf.parent
  have hleft := h.shelf.left
  have hfades := (frame_of_act hs (a := .step t.id) trivial hact).fades
  obtain ⟨affs, new, hshelf⟩ := h.shelf.turn ht hwork hact
  have hgone : ¬w'.scene.tree.contains lo := by
    have hpruned := Tree.Pruned.remove hl lo
    have hsteady := (hs.takesList_turn ht hwork s).reserves.steady
    rw [(turned_of_act hr ht hwork hact).1]
    intro hlive
    have hlive := hsteady.live (hpruned.next.symm ▸ hl.live_lt hlo) hlive
    exact (hpruned.live.mp hlive).2 .self
  refine ⟨affs, new, ?_⟩
  constructor
  case shelf => exact hshelf
  case turned =>
    rw [turnsOf_snoc, h.turned]
    simp [Act.turned?, hr.task? ht, hwork, Errand.turned?]
  case shown =>
    rw [itemsShown_snoc, h.shown, shows_of_turn hr ht hwork, Page.course_append, List.flatMap_append,
      List.flatMap_singleton]
  case fresh =>
    intro e he
    rcases List.mem_append.mp he with he | he
    · exact h.fresh e he
    · rw [List.mem_singleton.mp he]
      simp [Act.IsStale, hr.task? ht, hwork, hlo]
  case due =>
    intro v e errands hv hvwork
    rcases errands_of_turn hr ht (turn_of_mem hr ht hact) hv hvwork with ⟨hv, _⟩ | ⟨e₀, hold⟩
    · obtain ⟨hnil, hclicked⟩ := h.due hv hvwork
      refine ⟨hnil, ?_⟩
      cases hclicked with
      | there only =>
        obtain rfl := List.singleton_inj.mp only
        exact .gone (Nat.lt_of_lt_of_le (hl.live_lt hlo) hfades.next_le) hgone hleft
          fun hlimit => page.reached_lt alls all hlimit hleft
      | gone known dead left since =>
        refine .gone (Nat.lt_of_lt_of_le known hfades.next_le) (fun hl => dead (hfades.live known hl))
          left fun hlimit => ?_
        exact Nat.lt_trans (since hlimit) (page.reached_lt alls all hlimit hleft)
    · rw [hwork] at hold
      cases hold

omit [LawfulMedium α] in
/-- The step for a click whose wrapper is gone shows an item again. -/
theorem stale_step (h : Pressing s c page u alls affs seats es w) (ht : t ∈ w.tasks) {clicks : List Bool}
    {all : Bool} (hwork : t.work = .errands [.turn n c (page.last clicks).onward all])
    (hdead : ¬w.scene.tree.contains n) (hleft : page.reached clicks < page.items.length)
    (hsince : page.limit ≠ some 0 → page.reached clicks < page.reached alls) :
    Repeated c page (es ++ [(w, .step t.id)]) := by
  have hr := h.shelf.hosted.orderly.sound.roster
  constructor
  case stale =>
    refine ⟨(w, .step t.id), List.mem_append_right _ List.mem_cons_self, ?_⟩
    simp [Act.IsStale, hr.task? ht, hwork, hdead]
  case twice =>
    intro hlimit hnodup
    rw [itemsShown_snoc, h.shown, shows_of_turn hr ht hwork, List.map_append] at hnodup
    exact List.disjoint_of_nodup_append hnodup (page.reached_mem_course clicks (hsince hlimit))
      (page.reached_mem_next clicks all hlimit hleft)

/-- A click on a button is to show what follows the last page. -/
theorem click (h : Pressing s c page u alls affs seats es w)
    (hclicked : (Act.click n : Act F α).clicked? c w ≠ none) (hact : w.act s (.click n) = some w') :
    Pressing s c page u alls affs seats (es ++ [(w, .click n)]) w' := by
  obtain ⟨lo, all, rfl, _, rfl⟩ := h.shelf.clicked hclicked hact
  refine h.calm (h.shelf.still trivial hact rfl rfl rfl) trivial hact rfl rfl id fun hv hwork => ?_
  rcases (mem_openErrands _).mp hv with hv | rfl
  · exact .inl hv
  · cases hwork
    exact .inr ⟨rfl, .there rfl⟩

/-- Whatever happens next, the list is shown page by page, or an item is shown again. -/
theorem act (h : Pressing s c page u alls affs seats es w) (hp : a.Presses c w)
    (hact : w.act s a = some w') :
    (∃ alls affs seats, Pressing s c page u alls affs seats (es ++ [(w, a)]) w') ∨
      Repeated c page (es ++ [(w, a)]) := by
  cases a with
  | step id =>
    obtain ⟨t, ht, rfl, _⟩ := turn_of_step hact
    by_cases hplain : ∀ e errands, t.work ≠ .errands (e :: errands)
    · exact .inl ⟨_, _, _, h.calm_step ht hplain hact⟩
    · simp only [not_forall, Classical.not_not] at hplain
      obtain ⟨e, errands, hwork⟩ := hplain
      obtain ⟨rfl, hclicked⟩ := h.due ht hwork
      cases hclicked with
      | there only =>
        subst only
        obtain ⟨affs, new, hnext⟩ := h.turn_step ht hwork hact
        exact .inl ⟨_, _, _, hnext⟩
      | gone known dead left since => exact .inr (h.stale_step ht hwork dead left since)
  | click n => exact .inl ⟨_, _, _, h.click hp hact⟩
  | note ts =>
    obtain ⟨waiting, heq⟩ := noteWaiting_eq (w := w) ts
    have hw : w' = { w with waiting := waiting } := (Option.some.inj hact).symm.trans heq
    subst hw
    exact .inl ⟨_, _, _, h.calm (h.shelf.still trivial hact rfl rfl rfl) trivial hact rfl rfl id
      fun hv _ => .inl hv⟩
  | release g =>
    cases Option.some.inj hact
    exact .inl ⟨_, _, _, h.calm (h.shelf.still trivial hact rfl rfl rfl) trivial hact rfl rfl id
      fun hv _ => .inl ((mem_release g).mp hv)⟩
  | _ => cases hp

/-- Whenever the buttons of a list are clicked, the list is shown page by page, until a page is shown for a
click whose wrapper is gone. -/
theorem history (hu : Orderly u) (hidle : u.tasks = []) (hc : u.scene.tree.contains c)
    (hm : u.scene.tree.contains (page.more.getD c))
    (hnone : ∀ x k, u.scene.clicks.get? x = some k → k.turned? c = none)
    (h : History s (Act.Presses c) (u.renderList s c page).1 es w) :
    (∃ alls affs seats, Pressing s c page u alls affs seats es w) ∨ Repeated c page es := by
  refine h.invariant_past (I := fun es w =>
    (∃ alls affs seats, Pressing s c page u alls affs seats es w) ∨ Repeated c page es) ?_ ?_
  · obtain ⟨affs, seats, hshelf⟩ := Shelf.start (s := s) hu hidle hc hm hnone
    have hawaits : Awaits (u.renderList s c page).1 none :=
      .called hu.sound.roster hidle
        (moved_of_called hu.sound.roster (sameTasks_takeUpList c page false) [] _)
    refine .inl ⟨[], affs, seats, ?_⟩
    constructor
    case shelf => exact hshelf
    case turned => rfl
    case shown => simp [itemsShown, Page.course]
    case fresh => simp
    case due =>
      intro t e errands ht hwork
      cases (hawaits.plain ht hwork).2
  · rintro es w a w' (⟨alls, affs, seats, hw⟩ | hw) hp hact
    · exact hw.act hp hact
    · exact .inr (hw.snoc w a)

end Pressing

end World

end Montage
