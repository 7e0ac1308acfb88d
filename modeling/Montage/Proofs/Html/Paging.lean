import Mathlib
import Montage.Proofs.Render.Media
import Montage.Proofs.Render.Paging

/-!
Lists in documents. Main statement: however a list is looked through, and in whatever order its items are
done, the document shows the items of all pages that were asked for, one after the other, and then
buttons for what is left, if anything.
-/

namespace Montage.Html

open Json (Value)
open World (Seated clicksOn turnsOf start)

variable {F : Type}

/-- The buttons where `k` items are left, with whether they show all: one for the next page, if that is
not all that is left, and one for all. -/
def labels (limit : Option Nat) (k : Nat) : List (Bool × String) :=
  (match limit with
    | some n => if n < k then [(false, "Show " ++ toString n ++ " more…")] else []
    | none => []) ++
  [(true, "Show all " ++ toString k ++ " remaining…")]

theorem more_eq (settings : Settings) (limit : Option Nat) (k : Nat) : more settings limit k =
    { wrapper := (Item.ofTag "div").addClass (settings.classPrefix ++ "more-buttons")
      label := none
      buttons := (labels limit k).map fun b => ⟨b.1, .ofTag "button", .text b.2⟩ } := by
  cases limit with
  | none => simp [more, labels, nextPage]
  | some n =>
    by_cases hlt : n < k
    · simp [more, labels, nextPage, hlt, Nat.min_eq_left (Nat.le_of_lt hlt)]
    · simp [more, labels, nextPage, hlt]

/-- A wrapper that stands in a document shows the buttons for what follows some pages of a list, and no
other node shows more of the list when it is clicked. -/
structure Wraps (settings : Settings) (c : NodeId) (page : Page F) (alls : List Bool)
    (sc : Scene F Item) (n : NodeId) : Prop where
  parent : sc.tree.parent? n = some (page.more.getD c)
  subtree : sc.tree.subtree? n =
    some (.node ((Item.ofTag "div").addClass (settings.classPrefix ++ "more-buttons"))
      ((labels page.limit (page.items.length - page.reached alls)).map fun b =>
        .node (.ofTag "button") [leaf (.text b.2)]))
  clicks : (sc.tree.children n).map sc.clicks.get? =
    (labels page.limit (page.items.length - page.reached alls)).map fun b =>
      some ⟨[], [.turn n c (page.last alls).onward b.1]⟩
  only : ∀ {x k}, sc.clicks.get? x = some k → k.turned? c ≠ none → x ∈ sc.tree.children n

section

variable {s : Setup F Item} {c n : NodeId} {page : Page F} {u w : World F Item} {alls : List Bool}
  {turn : Option (Errand F)} {affs : List NodeId} {seats : List (List (Seat F))}
  {es : List (World F Item × Act F Item)}

/-- What offers the rest of a list is a wrapper with buttons. -/
theorem wraps_of_offers {sc : Scene F Item} (hl : sc.tree.Linked)
    (hleft : (page.last alls).stop < page.items.length)
    (h : sc.Offers s.settings c (page.last alls).onward n) : Wraps s.settings c page alls sc n := by
  obtain ⟨_, hitems, _, hmore⟩ := page.last_frame alls
  have hlimit : (page.last alls).limit = page.limit := page.limit_last alls hleft
  have haffordance : Medium.more (α := Item) s.settings (page.last alls).onward.limit
      ((page.last alls).onward.items.length - (page.last alls).onward.offset) =
      more s.settings page.limit (page.items.length - page.reached alls) := by
    rw [← Page.stop_last, ← hlimit, ← hitems]
    rfl
  obtain ⟨hparent, hshows, ⟨top, ids, hkids, htop, hclicks⟩, honly⟩ := h
  rw [haffordance, more_eq] at hshows htop hclicks
  have hchildren : sc.tree.children n = ids := by
    rw [hkids, List.eq_nil_of_length_eq_zero htop, List.nil_append]
  constructor
  case parent => exact hmore ▸ hparent
  case subtree =>
    have hsubtree := Option.toList_eq_singleton_iff.mp (Tree.subtree?_of_shows hshows hl)
    simpa [Affordance.rose, leaf, Function.comp_def] using hsubtree
  case clicks => simpa [hchildren, Function.comp_def] using hclicks
  case only => exact fun hk ht => hl.listed (honly _ _ hk ht).1

/-- Every config of every item on the pages has a place of its own, and the container holds what stands
there, in order, after what it held before. What is left is offered after that, or in the node for it, and
nowhere else. -/
def Displayed (s : Setup F Item) (c : NodeId) (page : Page F) (u : World F Item) (alls : List Bool)
    (es : List (World F Item × Act F Item)) (w : World F Item) : Prop :=
  ∃ (seats : List (List (Seat F))) (seg : Seat F → List NodeId) (rest : List NodeId),
    seats.map (·.map Seat.brief) = ((page.course alls).flatMap Page.shown).map (fun i =>
      (page.item.normalize s.engine).map
        (Brief.ofConfig Item u.registry ⟨i.1, i.2.context page.context, some i.2⟩)) ∧
    (seats.flatten.map Seat.place).Nodup ∧
    (∀ b ∈ seats.flatten, Seated es w b (seg b)) ∧
    w.scene.tree.children c = u.scene.tree.children c ++ (seats.flatten.flatMap seg ++
      if page.more.getD c = c then rest else []) ∧
    (page.more.getD c ≠ c → w.scene.tree.children (page.more.getD c) =
      u.scene.tree.children (page.more.getD c) ++ rest) ∧
    if page.reached alls < page.items.length then
      ∃ n, rest = [n] ∧ Wraps s.settings c page alls w.scene n
    else rest = [] ∧ ∀ x k, w.scene.clicks.get? x = some k → k.turned? c = none

theorem displayed_of_shelf (h : World.Shelf s c page u alls affs seats es w) :
    Displayed s c page u alls es w := by
  obtain ⟨_, hitems, _⟩ := page.last_frame alls
  have hstop := page.stop_last alls
  obtain ⟨seg, hkids, hseg⟩ := h.seating.segments
  refine ⟨seats, seg, affs, h.briefs, h.nodup, hseg, hkids, h.other, ?_⟩
  cases h.tail with
  | none all only =>
    rw [hstop, hitems] at all
    rw [if_neg (by omega)]
    exact ⟨rfl, only⟩
  | @some n left offers =>
    rw [hitems] at left
    rw [if_pos (hstop ▸ left)]
    exact ⟨n, rfl, wraps_of_offers h.hosted.orderly.sound.linked left offers⟩

end

/-- Settings without page size and class prefix. -/
def plainSettings : Settings := ⟨none, "", none⟩

end Montage.Html
