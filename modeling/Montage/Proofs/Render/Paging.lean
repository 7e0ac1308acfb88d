import Montage.Proofs.Render.Browsing
import Montage.Proofs.Render.Pages
import Montage.Proofs.Render.Seats

/-!
Lists that are rendered page by page. Main statements: while a list is looked through, its container holds
the items of all pages that were shown, in order, and then buttons for the rest; and every click shows
one more page.
-/

namespace Montage

open Json (Value)

variable {F α : Type} [Medium α]

namespace Tree

/-- A node that was the last child leaves the others. -/
theorem Pruned.children_last {β : Type} {t t' : Tree β} {n p x : NodeId} {ids : List NodeId}
    (h : Pruned n t t') (hx : t'.contains x) (hp : t.parent? n = some p)
    (hids : t.children x = ids ++ (if p = x then [n] else [])) : t'.children x = ids := by
  rw [h.children hx, hp]
  by_cases he : p = x
  · rw [if_pos he] at hids
    have honce := h.before.once (x := x) (live_of_parent hp)
    rw [hids, List.count_append, List.count_singleton_self] at honce
    have hnot : n ∉ ids := fun hm => by
      have := List.one_le_count_iff.mpr hm
      omega
    rw [if_pos (congrArg some he), hids]
    simp only [List.filter_append, List.filter_singleton, bne_self_eq_false, Bool.cond_false,
      List.append_nil]
    exact List.filter_eq_self.mpr fun y hy => bne_iff_ne.mpr fun hyn => hnot (hyn ▸ hy)
  · rw [if_neg fun hq => he (Option.some.inj hq), hids, if_neg he, List.append_nil]

end Tree

namespace Scene

variable {sc sc' : Scene F α} {settings : Settings} {c lo : NodeId} {rest : Page F}
  {out : NodeId → Prop}

/-- A wrapper still offers the rest if it and all below it is left alone. -/
theorem Offers.kept (h : sc.Offers settings c rest lo) (hl : sc.tree.Linked)
    (hfades : Tree.Fades sc.tree sc'.tree)
    (hintact : ∀ x, sc.tree.contains x → sc.tree.Under lo x → sc.Intact sc' x)
    (hbinds : Binds c out sc sc') (hout : ∀ x, sc.tree.Under lo x → ¬out x) :
    sc'.Offers settings c rest lo := by
  have hlo := Tree.live_of_parent h.parent
  have hself := hintact lo hlo .self
  have hchild : ∀ {x}, sc.tree.parent? x = some lo → sc.Intact sc' x := fun hp =>
    hintact _ (Tree.live_of_parent hp) (.of_parent hp)
  obtain ⟨top, ids, hkids, htop, hbound⟩ := h.buttons
  constructor
  case parent => exact hself.parent.trans h.parent
  case shows =>
    -- A node that is gone is listed still, and stays gone.
    have hdead : ∀ {x}, x < sc.tree.next → ¬sc.tree.contains x → ¬sc'.tree.contains x :=
      fun hx hd hl => hd (hfades.live hx hl)
    refine h.shows.congr (P := fun x => x < sc.tree.next ∧ (sc.tree.contains x → sc.tree.Under lo x))
      (fun x hx => ?_) (fun x hx _ y hy => ?_) (fun x hx _ => ?_) (fun x hx _ => ?_) fun _ _ => rfl
    · rw [List.mem_singleton.mp hx]
      exact ⟨hl.live_lt hlo, fun _ => .self⟩
    · have hxl := Tree.live_of_listed hy
      exact ⟨hl.listed_lt hy, fun hyl => (hx.2 hxl).step (hl.link hy hyl)⟩
    · by_cases hxl : sc.tree.contains x
      · exact (hintact x hxl (hx.2 hxl)).item
      · have hgone := hdead hx.1 hxl
        rw [Tree.contains_iff_get?, Classical.not_not] at hxl hgone
        rw [hxl, hgone]
    · by_cases hxl : sc.tree.contains x
      · exact (hintact x hxl (hx.2 hxl)).children
      · rw [Tree.children_of_dead hxl, Tree.children_of_dead (hdead hx.1 hxl)]
  case buttons =>
    refine ⟨top, ids, hself.children.trans hkids, htop, ?_⟩
    rw [← hbound]
    refine List.map_congr_left fun x hx => ?_
    have hm : sc.clicks.get? x ∈ ids.map sc.clicks.get? := List.mem_map_of_mem hx
    rw [hbound] at hm
    obtain ⟨b, _, hb⟩ := List.mem_map.mp hm
    obtain ⟨hp, _⟩ := h.only x _ hb.symm (by simp [Click.turned?, Errand.turned?])
    exact hbinds.kept (hl.live_lt (Tree.live_of_parent hp)) (hchild hp).live
      (hout x (.of_parent hp))
  case only =>
    intro x k hk ht
    obtain ⟨hp, hall⟩ := h.only x k (hbinds.turns hk ht) ht
    exact ⟨(hchild hp).parent.trans hp, hall⟩

end Scene

namespace World

variable {s : Setup F α} {es : List (World F α × Act F α)} {u w w' : World F α} {a : Act F α}
  {t : Task F α} {base c k m n x : NodeId} {page : Page F}

/-! What is older than all that is held, and what stands below it but is not held. -/

namespace Hosted

/-- Nothing that is held stands above a node below one that is not held. -/
theorem apart (h : Hosted c base w) (hc : c < base) (hn : base ≤ n)
    (hfree : ∀ t ∈ w.tasks, n ∉ t.work.holds) (hp : w.scene.tree.parent? n = some m) (hm : m < base)
    (ht : t ∈ w.tasks) (hk : k ∈ t.work.holds) (hx : w.scene.tree.Under n x) :
    ¬w.scene.tree.Under k x := by
  intro hu
  rcases hu.comparable hx with hkn | hnk
  · refine h.not_above ht hk hm (hkn.parent ?_ hp)
    rintro rfl
    exact hfree t ht hk
  · exact h.not_below hc hn hfree ht hk hnk

variable [LawfulMedium α]

/-- Whatever works on no nodes leaves old nodes alone, but for the container. -/
theorem intact (h : Hosted c base w) (ha : a.Known w.scene.tree.next) (hact : w.act s a = some w')
    (htargets : a.targets w = []) (hx : x < base) (hne : x ≠ c) (hl : w.scene.tree.contains x) :
    w.scene.Intact w'.scene x := by
  refine intact_of_act h.orderly.sound ha hact htargets hl ?_ fun t r o hend => ?_
  · exact fun t r n hstep hn => h.not_above hstep.1 (mem_holds_of_output (hstep.2.1 ▸ hn)) hx
  · have hplace : r.place ∈ t.work.places := hend.1.2.1 ▸ List.mem_cons_self
    refine ⟨h.not_above hend.1.1 (mem_holds_of_place hplace) hx, fun hp => ?_⟩
    rcases h.home hend.1.1 hplace hp with he | ⟨v, hv, ho⟩
    · exact hne he
    · exact h.not_output hx hv ho

/-- And so it does with what stands below a node that is not held. -/
theorem intact_below (h : Hosted c base w) (hc : c < base) (hn : base ≤ n)
    (hfree : ∀ t ∈ w.tasks, n ∉ t.work.holds) (hp : w.scene.tree.parent? n = some m) (hm : m < base)
    (ha : a.Known w.scene.tree.next) (hact : w.act s a = some w') (htargets : a.targets w = [])
    (hl : w.scene.tree.contains x) (hx : w.scene.tree.Under n x) : w.scene.Intact w'.scene x := by
  refine intact_of_act h.orderly.sound ha hact htargets hl ?_ fun t r o hend => ?_
  · exact fun t r k hstep hk =>
      h.apart hc hn hfree hp hm hstep.1 (mem_holds_of_output (hstep.2.1 ▸ hk)) hx
  · have hplace := mem_holds_of_place (hend.1.2.1 ▸ List.mem_cons_self : r.place ∈ t.work.places)
    exact ⟨h.apart hc hn hfree hp hm hend.1.1 hplace hx, fun hq =>
      h.not_below hc hn hfree hend.1.1 hplace (hx.step hq)⟩

end Hosted

/-! Places that are taken up by errands. -/

section Launched

variable {bs : List (List (Run F α))} {errands : List (Errand F)}

/-- All that is held from now on is the places of the batches, and what tasks held that are left. -/
theorem mem_launched (h : Roster w) (ht : t ∈ w.tasks)
    (hm : Moved w t (.errands errands) (bs.map .batch) w') {v : Task F α} (hv : v ∈ w'.tasks)
    (hx : x ∈ v.work.holds) : v ∈ w.tasks ∨ x ∈ bs.flatten.map Run.place := by
  rcases (hm.mem h ht).mp hv with ⟨hv, _⟩ | rfl | hv
  · exact .inl hv
  · cases hx
  · obtain ⟨i, hi, _⟩ := mem_number.mp hv
    obtain ⟨rs, hrs, hwork⟩ := List.mem_map.mp (List.mem_of_getElem? hi)
    rw [← hwork] at hx
    have hx : x ∈ rs.map Run.place ++ [] := hx
    rw [List.append_nil] at hx
    obtain ⟨r, hr, rfl⟩ := List.mem_map.mp hx
    exact .inr (List.mem_map_of_mem (List.mem_flatten.mpr ⟨rs, hrs, hr⟩))

/-- A place that was taken up is held for its run. -/
theorem Laid.seated {registry : Registry F} {sc : Scene F α} {affs : List NodeId}
    (hlaid : Laid s registry c page sc w'.scene bs affs) (h : Roster w) (ht : t ∈ w.tasks)
    (hm : Moved w t (.errands errands) (bs.map .batch) w') {b : Seat F}
    (hb : b ∈ bs.flatten.map Run.seat) : Seated es w' b [b.place] := by
  obtain ⟨r, hr, rfl⟩ := List.mem_map.mp hb
  obtain ⟨rs, hrs, hin⟩ := List.mem_flatten.mp hr
  obtain ⟨i, hi⟩ := List.mem_iff_getElem?.mp hrs
  obtain ⟨v, hv, _, _, hwork⟩ := hm.exists_new h ht (i := i) (k := .batch rs) (by simp [hi])
  have hruns : r ∈ v.work.runs := by
    rw [hwork]
    exact hin
  exact .held hv hruns rfl (hlaid.item r hr) (hlaid.held r hr)

end Launched

/-- A task that shows a page discards the wrapper of the buttons first. -/
theorem turned_of_act {d : NodeId} {all : Bool} {errands : List (Errand F)} (h : Roster w)
    (ht : t ∈ w.tasks) (hwork : t.work = .errands (.turn n d page all :: errands))
    (hact : w.act s (.step t.id) = some w') :
    w'.scene = ((w.discard n).takeUpList s d page all).1.scene ∧
      w'.registry = ((w.discard n).takeUpList s d page all).1.registry ∧
      Moved w t (.errands errands) (((w.discard n).takeUpList s d page all).2.map .batch) w' := by
  obtain ⟨_, _, _, hc, _⟩ := turn_of_step hact
  simp only [World.act, step, h.task? ht, hc, hwork, stepErrands] at hact
  cases hact
  have hd : SameTasks w (w.discard n) := ⟨rfl, rfl, rfl, rfl⟩
  exact ⟨rfl, rfl, (hd.trans (sameTasks_takeUpList d page all)).launch _ _⟩

/-- What a list in a container has come to, by the clicks whose pages were shown: its items stand at the
end of the container as it was before, and what follows the last page comes after them. -/
structure Shelf (s : Setup F α) (c : NodeId) (page : Page F) (u : World F α) (alls : List Bool)
    (affs : List NodeId) (seats : List (List (Seat F))) (es : List (World F α × Act F α))
    (w : World F α) : Prop where
  container : c < u.scene.tree.next
  foot : page.more.getD c < u.scene.tree.next
  hosted : Hosted c u.scene.tree.next w
  registry : w.registry = u.registry
  seating : Seating c (u.scene.tree.children c) (if page.more.getD c = c then affs else [])
    seats.flatten es w
  live : w.scene.tree.contains (page.more.getD c)
  other : page.more.getD c ≠ c → w.scene.tree.children (page.more.getD c) =
    u.scene.tree.children (page.more.getD c) ++ affs
  briefs : seats.map (·.map Seat.brief) = ((page.course alls).flatMap Page.shown).map fun i =>
    (page.item.normalize s.engine).map
      (Brief.ofConfig α u.registry ⟨i.1, i.2.context page.context, some i.2⟩)
  nodup : (seats.flatten.map Seat.place).Nodup
  tail : w.scene.Tail s.settings c (page.last alls) affs
  free : ∀ n ∈ affs, u.scene.tree.next ≤ n ∧ ∀ t ∈ w.tasks, n ∉ t.work.holds

namespace Shelf

variable {alls : List Bool} {affs : List NodeId} {seats : List (List (Seat F))} {lo : NodeId}

/-- What follows the last page stands at the end of its node. -/
theorem parent (h : Shelf s c page u alls [lo] seats es w) :
    w.scene.tree.parent? lo = some (page.more.getD c) := by
  obtain ⟨_, _, _, hmore⟩ := page.last_frame alls
  cases h.tail with
  | some left offers => exact hmore ▸ offers.parent

theorem left (h : Shelf s c page u alls [lo] seats es w) : page.reached alls < page.items.length := by
  obtain ⟨_, hitems, _⟩ := page.last_frame alls
  cases h.tail with
  | some left offers => rwa [Page.stop_last, hitems] at left

/-- Clicks on the list are on the buttons after the last page, and wait to show what follows it. -/
theorem clicked (h : Shelf s c page u alls affs seats es w)
    (hclicked : (Act.click n : Act F α).clicked? c w ≠ none) (hact : w.act s (.click n) = some w') :
    ∃ lo all, affs = [lo] ∧ (Act.click n : Act F α).clicked? c w = some all ∧
      w' = (w.openErrands [] [.turn lo c (page.last alls).onward all]).1 := by
  obtain ⟨k, hk, hkt⟩ : ∃ k, w.scene.clicks.get? n = some k ∧ k.turned? c ≠ none := by
    cases hk : w.scene.clicks.get? n with
    | none => simp [Act.clicked?, hk] at hclicked
    | some k => exact ⟨k, rfl, by simpa [Act.clicked?, hk] using hclicked⟩
  cases h.tail with
  | none all only => exact absurd (only n k hk) hkt
  | @some lo left offers =>
    obtain ⟨_, all, rfl⟩ := offers.only n k hk hkt
    refine ⟨lo, all, rfl, by simp [Act.clicked?, hk, Click.turned?, Errand.turned?], ?_⟩
    simp only [World.act, World.click, hk] at hact
    exact (Option.some.inj hact).symm

variable [LawfulMedium α]

/-- Whatever works on no nodes and shows no page keeps what the list has come to. -/
theorem calm {out : NodeId → Prop} (h : Shelf s c page u alls affs seats es w) (hp : a.IsProper w)
    (hact : w.act s a = some w') (htargets : a.targets w = []) (hregistry : w'.registry = w.registry)
    (hbinds : w.scene.Binds c out w'.scene)
    (hout : ∀ x, out x → ∃ t ∈ w.tasks, t.work.output? = some x) :
    Shelf s c page u alls affs seats (es ++ [(w, a)]) w' := by
  have hs := h.hosted.orderly.sound
  have hfades := (frame_of_act hs hp.1 hact).fades
  have hempty := htargets
  simp only [Act.targets, List.append_eq_nil_iff] at hempty
  have hlive : ∀ {x}, x < u.scene.tree.next → w.scene.tree.contains x → w'.scene.tree.contains x :=
    h.hosted.live hp.1 hact (by simp [hempty.1.2])
  constructor
  case container => exact h.container
  case foot => exact h.foot
  case hosted =>
    exact h.hosted.act hp hact fun _ _ _ _ _ _ hm => by simp [hempty.1.1] at hm
  case registry => exact hregistry.trans h.registry
  case seating =>
    exact h.seating.act h.hosted.orderly hp.1 hact htargets
      (fun t ht => h.hosted.not_output h.container ht) (hlive h.container h.seating.live)
  case live => exact hlive h.foot h.live
  case other =>
    exact fun hne => (h.hosted.intact hp.1 hact htargets h.foot hne h.live).children.trans (h.other hne)
  case briefs => exact h.briefs
  case nodup => exact h.nodup
  case tail =>
    cases h.tail with
    | none all only =>
      exact .none all fun x k hk => Classical.byContradiction fun ht =>
        ht (only x k (hbinds.turns hk ht))
    | some left offers =>
      obtain ⟨hge, hfree⟩ := h.free _ List.mem_cons_self
      refine .some left (offers.kept hs.linked hfades (fun x hx hu => ?_) hbinds fun x hu ho => ?_)
      · exact h.hosted.intact_below h.container hge hfree h.parent h.foot hp.1 hact htargets hx hu
      · obtain ⟨t, ht, hto⟩ := hout x ho
        exact h.hosted.not_below h.container hge hfree ht (mem_holds_of_output hto) hu
  case free =>
    intro n hn
    obtain ⟨hge, hfree⟩ := h.free n hn
    refine ⟨hge, unheld_kept hs hp.1 hact ?_ hfree⟩
    cases h.tail with
    | none => cases hn
    | some left offers =>
      rw [List.mem_singleton.mp hn]
      exact hs.linked.live_lt (Tree.live_of_parent h.parent)

/-- So does a step that is not for a click. -/
theorem step (h : Shelf s c page u alls affs seats es w) (ht : t ∈ w.tasks)
    (hplain : ∀ e errands, t.work ≠ .errands (e :: errands)) (hact : w.act s (.step t.id) = some w') :
    Shelf s c page u alls affs seats (es ++ [(w, .step t.id)]) w' := by
  have hs := h.hosted.orderly.sound
  have htask := hs.roster.task? ht
  have hnone : (Act.step t.id).containers w = [] ∧ (Act.step t.id).discarded w = [] := by
    simp only [Act.containers, Act.discarded, htask, Option.map_some]
    cases hwork : t.work with
    | run r => exact ⟨rfl, rfl⟩
    | batch rs => exact ⟨rfl, rfl⟩
    | errands errands =>
      cases errands with
      | nil => exact ⟨rfl, rfl⟩
      | cons e errands => exact absurd hwork (hplain e errands)
  have htargets : (Act.step t.id).targets w = [] := by
    simp [Act.targets, hnone.1, hnone.2, Act.marked]
  have hregistry : w'.registry = w.registry := by
    cases works_of_step hs ht hplain hact with
    | goes work works draw turn moved draws carries house => exact house.registry
    | ends outcome left turn tasks next outcomes finished leaves house => exact house.registry
  have hbinds := binds_of_turn hs ht (h.hosted.not_output h.container ht)
    (fun _ _ _ _ _ hwork => hplain _ _ hwork) (turn_of_mem hs.roster ht hact)
  refine h.calm ⟨trivial, fun n hn => ?_⟩ hact htargets hregistry hbinds fun x hx => ⟨t, ht, hx⟩
  rw [htargets] at hn
  cases hn

/-- A list that was just rendered has come to its first page. -/
theorem start (hu : Orderly u) (hidle : u.tasks = []) (hc : u.scene.tree.contains c)
    (hm : u.scene.tree.contains (page.more.getD c))
    (hnone : ∀ x k, u.scene.clicks.get? x = some k → k.turned? c = none) :
    ∃ affs seats, Shelf s c page u [] affs seats [] (u.renderList s c page).1 := by
  have hs := hu.sound
  have hl := hs.linked
  have hproper : (Act.renderList c page : Act F α).IsProper u := by
    refine ⟨⟨hl.live_lt hc, hl.live_lt hm⟩, fun n _ t ht => ?_⟩
    rw [hidle] at ht
    cases ht
  have hact : u.act s (.renderList c page) = some (u.renderList s c page).1 := rfl
  have hle := (frame_of_act hs hproper.1 hact).fades.next_le
  have horderly := hu.act hproper hact
  have hregistry : (u.renderList s c page).1.registry = u.registry := by
    obtain ⟨⟨scene, hscene⟩, _⟩ := takeUpList_frame (w := u) (s := s) (d := c) page
    change (u.takeUpList s c page false).1.registry = _
    rw [hscene]
  have moved : Moved (u.enter []) ⟨u.nextTask, [], false, .errands []⟩ (.errands [])
      ((u.takeUpList s c page false).2.map .batch) (u.renderList s c page).1 :=
    moved_of_called hs.roster (sameTasks_takeUpList c page false) [] _
  obtain ⟨affs, laid⟩ := laid_takeUpList (s := s) page hl hc hm hnone
  change Laid s u.registry c page u.scene (u.renderList s c page).1.scene _ affs at laid
  generalize (u.renderList s c page).1 = w at laid moved hregistry horderly hle
  generalize (u.takeUpList s c page false).2 = bs at laid moved
  have hroster := hs.roster.entered []
  have hcall := mem_enter (w := u) []
  have hheld : ∀ {t x}, t ∈ w.tasks → x ∈ t.work.holds → ∃ r ∈ bs.flatten, r.place = x := by
    intro t x ht hx
    rcases mem_launched hroster hcall moved ht hx with ht | hx
    · simp only [enter, hidle, List.nil_append, List.mem_singleton] at ht
      rw [ht] at hx
      cases hx
    · exact List.mem_map.mp hx
  have hflat : (bs.map (·.map Run.seat)).flatten = bs.flatten.map Run.seat := List.map_flatten.symm
  refine ⟨affs, bs.map (·.map Run.seat), ?_⟩
  constructor
  case container => exact hl.live_lt hc
  case foot => exact hl.live_lt hm
  case hosted =>
    refine ⟨horderly, hle, fun ht hx => ?_, fun ht hp hq => ?_⟩
    · obtain ⟨r, hr, rfl⟩ := hheld ht hx
      exact laid.fresh r hr
    · obtain ⟨r, hr, rfl⟩ := hheld ht (mem_holds_of_place hp)
      exact .inl (laid.parent r hr _ hq)
  case registry => exact hregistry
  case seating =>
    rw [hflat]
    refine ⟨laid.live c hc, ⟨fun b => [b.place], ?_, fun b hb => ?_⟩, fun t ht p hp _ => ?_⟩
    · rw [laid.kids, ← List.map_eq_flatMap, List.map_map]
      rfl
    · exact laid.seated hroster hcall moved hb
    · obtain ⟨r, hr, rfl⟩ := hheld ht (mem_holds_of_place hp)
      exact ⟨_, List.mem_map_of_mem hr, rfl⟩
  case live => exact laid.live _ hm
  case other => exact laid.other
  case briefs =>
    rw [List.map_map, Page.course, List.flatMap_singleton, ← laid.briefs]
    exact List.map_congr_left fun rs _ => List.map_map
  case nodup =>
    rw [hflat, List.map_map]
    exact laid.nodup
  case tail => exact laid.tail
  case free =>
    intro n hn
    obtain ⟨hge, hnot⟩ := laid.after n hn
    refine ⟨hge, fun t ht hx => hnot ?_⟩
    obtain ⟨r, hr, he⟩ := hheld ht hx
    exact he ▸ List.mem_map_of_mem hr

/-- And so does whatever changes no node. -/
theorem still (h : Shelf s c page u alls affs seats es w) (hknown : a.Known w.scene.tree.next)
    (hact : w.act s a = some w') (htargets : a.targets w = []) (hscene : w'.scene = w.scene)
    (hregistry : w'.registry = w.registry) :
    Shelf s c page u alls affs seats (es ++ [(w, a)]) w' := by
  refine h.calm ⟨hknown, fun n hn => ?_⟩ hact htargets hregistry
    (.of_same (congrArg Scene.clicks hscene)) fun _ (hx : False) => hx.elim
  rw [htargets] at hn
  cases hn

variable {all : Bool} (h : Shelf s c page u alls [lo] seats es w) (ht : t ∈ w.tasks)
  (hwork : t.work = .errands [.turn lo c (page.last alls).onward all])

include h ht hwork in
omit [LawfulMedium α] in
/-- The step that shows the next page works on the container, on the node of the wrapper, and on the
wrapper. -/
theorem targets_turn : (Act.step t.id).containers w = [c, page.more.getD c] ∧
    (Act.step t.id).discarded w = [lo] := by
  obtain ⟨hcontainers, hdiscarded⟩ := World.targets_turn h.hosted.orderly.sound.roster ht hwork
  rw [show (page.last alls).onward.more = page.more from (page.last_frame alls).2.2.2] at hcontainers
  exact ⟨hcontainers, hdiscarded⟩

omit [LawfulMedium α] in
include h in
/-- Neither the container nor the node of the wrapper is an output. -/
theorem not_output {v : Task F α} (hv : v ∈ w.tasks) (hn : n ∈ [c, page.more.getD c]) :
    v.work.output? ≠ some n := by
  rcases List.mem_cons.mp hn with rfl | hn
  · exact h.hosted.not_output h.container hv
  · rw [List.mem_singleton.mp hn]
    exact h.hosted.not_output h.foot hv

omit [LawfulMedium α] in
include h ht hwork in
theorem proper_turn : (Act.step t.id : Act F α).IsProper w := by
  obtain ⟨hcontainers, hdiscarded⟩ := h.targets_turn ht hwork
  refine ⟨trivial, fun n hn v hv ho => ?_⟩
  simp only [Act.targets, hcontainers, hdiscarded, Act.marked, List.append_nil] at hn
  rcases List.mem_append.mp hn with hn | hn
  · exact h.not_output hv hn ho
  · exact (h.free lo List.mem_cons_self).2 v hv
      (List.mem_singleton.mp hn ▸ mem_holds_of_output ho)

omit [LawfulMedium α] in
include h in
/-- Discarding the wrapper leaves old nodes as they were. -/
theorem live_discard (hx : x < u.scene.tree.next) (hl : w.scene.tree.contains x) :
    (w.discard lo).scene.tree.contains x := by
  have hlinked := h.hosted.orderly.sound.linked
  refine (Tree.Pruned.remove hlinked lo).live.mpr ⟨hl, fun hu => ?_⟩
  have hge := (h.free lo List.mem_cons_self).1
  exact Nat.not_lt.mpr (Nat.le_trans hge (hlinked.le_of_under hu)) hx

include h ht hwork in
omit [LawfulMedium α] in
/-- The next page, or all that is left, is taken up once the wrapper is gone. -/
theorem laid_turn (hact : w.act s (.step t.id) = some w') : ∃ bs affs,
    Laid s u.registry c (page.last (alls ++ [all])) (w.discard lo).scene w'.scene bs affs ∧
      w'.registry = u.registry ∧ Moved w t (.errands []) (bs.map .batch) w' := by
  have hl := h.hosted.orderly.sound.linked
  obtain ⟨_, _, _, hmore⟩ := page.last_frame (alls ++ [all])
  have hnone : ∀ x k, (w.discard lo).scene.clicks.get? x = some k → k.turned? c = none := by
    intro x k hk
    refine Classical.byContradiction fun hkt => ?_
    have hx : w.scene.tree.parent? x = some lo := by
      cases h.tail with
      | some left offers => exact (offers.only x k (Scene.clicks_of_discard hk) hkt).1
    have hgone := (Scene.forgotten_discard hl (Tree.live_of_parent hx) (.of_parent hx)).click
    exact Option.some_ne_none k (hk.symm.trans hgone)
  obtain ⟨hscene, hregistry, moved⟩ := turned_of_act h.hosted.orderly.sound.roster ht hwork hact
  rw [takeUpList_onward, ← Page.last_append] at hscene hregistry moved
  generalize page.last (alls ++ [all]) = next at hmore hscene hregistry moved
  obtain ⟨affs, laid⟩ := laid_takeUpList (w := w.discard lo) (s := s) next
    (Tree.Pruned.remove hl lo).after (h.live_discard h.container h.seating.live)
    (hmore ▸ h.live_discard h.foot h.live) hnone
  rw [← hscene] at laid
  refine ⟨_, affs, h.registry ▸ laid, ?_, moved⟩
  obtain ⟨⟨scene, hframe⟩, _⟩ := takeUpList_frame (w := w.discard lo) (s := s) (d := c) next
  rw [hregistry, hframe]
  exact h.registry

include h ht hwork in
/-- The task of a click shows the next page, or all that is left. -/
theorem turn (hact : w.act s (.step t.id) = some w') : ∃ affs new,
    Shelf s c page u (alls ++ [all]) affs (seats ++ new) (es ++ [(w, .step t.id)]) w' := by
  have hs := h.hosted.orderly.sound
  have hr := hs.roster
  have hl := hs.linked
  have pruned := Tree.Pruned.remove hl lo
  have hnext : (w.discard lo).scene.tree.next = w.scene.tree.next := pruned.next
  have hproper := h.proper_turn ht hwork
  obtain ⟨hcontainers, hdiscarded⟩ := h.targets_turn ht hwork
  obtain ⟨hitem, _, hcontext, hmore⟩ := page.last_frame (alls ++ [all])
  obtain ⟨bs, affs, laid, hregistry, moved⟩ := h.laid_turn ht hwork hact
  have hheld : ∀ {v x}, v ∈ w'.tasks → x ∈ v.work.holds →
      x < w.scene.tree.next ∨ ∃ r ∈ bs.flatten, r.place = x := by
    intro v x hv hx
    rcases mem_launched hr ht moved hv hx with hv | hx
    · exact .inl (hs.held_lt hv hx)
    · exact .inr (List.mem_map.mp hx)
  have hleft : ∀ {x ids}, x < u.scene.tree.next → w.scene.tree.contains x →
      w.scene.tree.children x = ids ++ (if page.more.getD c = x then [lo] else []) →
      (w.discard lo).scene.tree.children x = ids := fun hx hxl hkids =>
    pruned.children_last (h.live_discard hx hxl) h.parent hkids
  have hflat : (bs.map (·.map Run.seat)).flatten = bs.flatten.map Run.seat := List.map_flatten.symm
  refine ⟨affs, bs.map (·.map Run.seat), ?_⟩
  constructor
  case container => exact h.container
  case foot => exact h.foot
  case hosted =>
    refine h.hosted.act hproper hact fun v hv p hp q hq hm => ?_
    rcases mem_launched hr ht moved hv (mem_holds_of_place hp) with hv | hx
    · rcases h.hosted.home hv hp (h.hosted.orderly.parent_back hproper.1 hact hv hp hq) with
        hqc | ⟨v', hv', ho⟩
      · exact hqc
      · exact absurd ho (h.not_output hv' (hcontainers ▸ hm))
    · obtain ⟨r, hr, rfl⟩ := List.mem_map.mp hx
      exact laid.parent r hr q hq
  case registry => exact hregistry
  case seating =>
    rw [List.flatten_append, hflat]
    refine h.seating.extend h.hosted.orderly hproper.1 hact
      (laid.live c (h.live_discard h.container h.seating.live)) ?_ (fun x hx hm => ?_)
      (fun b hb => ?_) (fun b hb => laid.seated hr ht moved hb) (fun ids hids => ?_)
      fun v hv p hp hge => ?_
    · rintro t' r o ⟨⟨ht', hrun, hid⟩, _⟩
      rw [hr.id_inj ht' ht (Act.step.inj hid).symm, hwork] at hrun
      cases hrun
    · simp only [hdiscarded, Act.marked, List.append_nil, List.mem_singleton] at hm
      subst hm
      rw [h.parent] at hx
      rw [if_pos (Option.some.inj hx)]
      exact List.mem_cons_self
    · obtain ⟨r, hr, rfl⟩ := List.mem_map.mp hb
      exact hnext ▸ laid.fresh r hr
    · rw [laid.kids, hleft h.container h.seating.live hids, hmore, List.map_map]
      rfl
    · rcases hheld hv (mem_holds_of_place hp) with hlt | ⟨r, hr, rfl⟩
      · exact absurd hlt (Nat.not_lt.mpr hge)
      · exact ⟨_, List.mem_map_of_mem hr, rfl⟩
  case live => exact laid.live _ (h.live_discard h.foot h.live)
  case other =>
    intro hne
    have hkids := h.other hne
    rw [← hmore] at hne
    rw [← hmore, laid.other hne, hmore, hleft h.foot h.live (by rw [if_pos rfl]; exact hkids)]
  case briefs =>
    have hnew := laid.briefs
    rw [hitem, hcontext, Page.last_append] at hnew
    rw [List.map_append, h.briefs, Page.course_append, List.flatMap_append, List.map_append,
      List.flatMap_singleton, ← hnew, List.map_map]
    exact congrArg _ (List.map_congr_left fun rs _ => List.map_map)
  case nodup =>
    rw [List.flatten_append, hflat, List.map_append, List.map_map, List.nodup_append']
    refine ⟨h.nodup, laid.nodup, fun p hp hnew => ?_⟩
    obtain ⟨b, hb, rfl⟩ := List.mem_map.mp hp
    obtain ⟨r, hr, he⟩ := List.mem_map.mp hnew
    obtain ⟨seg, _, hseg⟩ := h.seating.segments
    exact Nat.ne_of_gt (Nat.lt_of_lt_of_le ((hseg b hb).lt hs) (hnext ▸ laid.fresh r hr)) he
  case tail => exact laid.tail
  case free =>
    intro n hn
    obtain ⟨hafter, hnot⟩ := laid.after n hn
    rw [hnext] at hafter
    refine ⟨Nat.le_trans h.hosted.given hafter, fun v hv hx => ?_⟩
    rcases hheld hv hx with hlt | ⟨r, hr, rfl⟩
    · exact Nat.not_lt.mpr hafter hlt
    · exact hnot (List.mem_map_of_mem hr)

end Shelf

/-! What was clicked and what was shown. -/

theorem clicksOn_snoc : clicksOn c (es ++ [(w, a)]) = clicksOn c es ++ (a.clicked? c w).toList := by
  cases h : a.clicked? c w <;> simp [clicksOn, List.filterMap_append, h]

/-- A task without an errand shows no page. -/
theorem turned_of_plain (h : Roster w) (ht : t ∈ w.tasks)
    (hplain : ∀ e errands, t.work ≠ .errands (e :: errands)) : (Act.step t.id).turned? c w = none := by
  simp only [Act.turned?, h.task? ht, Option.map_some]
  cases hwork : t.work with
  | run r => rfl
  | batch rs => rfl
  | errands errands =>
    cases errands with
    | nil => rfl
    | cons e errands => exact absurd hwork (hplain e errands)

theorem turnsOf_snoc : turnsOf c (es ++ [(w, a)]) = turnsOf c es ++ (a.turned? c w).toList := by
  cases h : a.turned? c w <;> simp [turnsOf, List.filterMap_append, h]

/-- A list is looked through: what was clicked is shown, but for a click that still waits. -/
structure Browsing (s : Setup F α) (c : NodeId) (page : Page F) (u : World F α) (alls : List Bool)
    (turn : Option (Errand F)) (affs : List NodeId) (seats : List (List (Seat F)))
    (es : List (World F α × Act F α)) (w : World F α) : Prop where
  shelf : Shelf s c page u alls affs seats es w
  awaits : Awaits w turn
  turned : turnsOf c es = alls
  clicked : clicksOn c es = alls ++ (turn.bind (·.turned? c)).toList
  pending : ∀ {e}, turn = some e →
    ∃ lo all, affs = [lo] ∧ e = .turn lo c (page.last alls).onward all
  few : alls.length + page.stop ≤ page.reached alls

namespace Browsing

variable {alls : List Bool} {turn : Option (Errand F)} {affs : List NodeId}
  {seats : List (List (Seat F))}

variable [LawfulMedium α]

/-- A step that is not for a click. -/
theorem calm_step (h : Browsing s c page u alls turn affs seats es w) (ht : t ∈ w.tasks)
    (hplain : ∀ e errands, t.work ≠ .errands (e :: errands))
    (hact : w.act s (.step t.id) = some w') :
    Browsing s c page u alls turn affs seats (es ++ [(w, .step t.id)]) w' := by
  have hr := h.shelf.hosted.orderly.sound.roster
  constructor
  case shelf => exact h.shelf.step ht hplain hact
  case awaits => exact h.awaits.step hr ht hplain (turn_of_mem hr ht hact)
  case turned =>
    rw [turnsOf_snoc, turned_of_plain hr ht hplain, h.turned, Option.toList_none, List.append_nil]
  case clicked =>
    rw [clicksOn_snoc, h.clicked]
    exact List.append_nil _
  case pending => exact h.pending
  case few => exact h.few

/-- The step of a click shows a page. -/
theorem turn_step (h : Browsing s c page u alls turn affs seats es w) (hlimit : page.limit ≠ some 0)
    (ht : t ∈ w.tasks) {e : Errand F} {errands : List (Errand F)}
    (hwork : t.work = .errands (e :: errands)) (hact : w.act s (.step t.id) = some w') :
    ∃ all affs new, Browsing s c page u (alls ++ [all]) none affs (seats ++ new)
      (es ++ [(w, .step t.id)]) w' := by
  have hr := h.shelf.hosted.orderly.sound.roster
  obtain ⟨rfl, rfl⟩ := h.awaits.plain ht hwork
  obtain ⟨lo, all, rfl, rfl⟩ := h.pending rfl
  obtain ⟨affs, new, hshelf⟩ := h.shelf.turn ht hwork hact
  have hleft := h.shelf.left
  refine ⟨all, affs, new, ?_⟩
  constructor
  case shelf => exact hshelf
  case awaits => exact h.awaits.done hr ht hwork (turn_of_mem hr ht hact)
  case turned =>
    rw [turnsOf_snoc, h.turned]
    simp [Act.turned?, hr.task? ht, hwork, Errand.turned?]
  case clicked =>
    rw [clicksOn_snoc, h.clicked]
    simp [Act.clicked?, Errand.turned?]
  case pending => exact fun he => by cases he
  case few =>
    have hlt := page.reached_lt alls all hlimit hleft
    have hfew := h.few
    rw [List.length_append, List.length_singleton]
    omega

/-- A click waits for its page to be shown. -/
theorem click (h : Browsing s c page u alls turn affs seats es w)
    (hb : (Act.click n : Act F α).Browses c w) (hact : w.act s (.click n) = some w') :
    ∃ turn, Browsing s c page u alls turn affs seats (es ++ [(w, .click n)]) w' := by
  have hr := h.shelf.hosted.orderly.sound.roster
  obtain ⟨hclicked, hidle⟩ := hb
  have hturn : turn = none := by
    cases turn with
    | none => rfl
    | some e =>
      obtain ⟨lo, all, _, rfl⟩ := h.pending rfl
      obtain ⟨t, ht, hwork, _⟩ := h.awaits.waiting rfl
      have hnone := hidle t ht
      simp [hwork, Work.turned?, Errand.turned?] at hnone
  subst hturn
  obtain ⟨lo, all, haffs, hall, rfl⟩ := h.shelf.clicked hclicked hact
  refine ⟨some (.turn lo c (page.last alls).onward all), ?_⟩
  constructor
  case shelf => exact h.shelf.still trivial hact rfl rfl rfl
  case awaits => exact h.awaits.click hr _
  case turned =>
    rw [turnsOf_snoc, h.turned]
    exact List.append_nil _
  case clicked =>
    rw [clicksOn_snoc, h.clicked, hall]
    simp [Errand.turned?]
  case pending =>
    rintro _ ⟨⟩
    exact ⟨lo, all, haffs, rfl⟩
  case few => exact h.few

/-- Waiting is noted, and gates open, with nothing shown. -/
theorem still (h : Browsing s c page u alls turn affs seats es w) (hknown : a.Known w.scene.tree.next)
    (hact : w.act s a = some w') (htargets : a.targets w = []) (hscene : w'.scene = w.scene)
    (hregistry : w'.registry = w.registry) (htasks : ∀ v, v ∈ w'.tasks ↔ v ∈ w.tasks)
    (hturned : a.turned? c w = none) (hclicked : a.clicked? c w = none) :
    Browsing s c page u alls turn affs seats (es ++ [(w, a)]) w' where
  shelf := h.shelf.still hknown hact htargets hscene hregistry
  awaits := h.awaits.congr htasks
  turned := by rw [turnsOf_snoc, hturned, h.turned, Option.toList_none, List.append_nil]
  clicked := by rw [clicksOn_snoc, hclicked, h.clicked, Option.toList_none, List.append_nil]
  pending := h.pending
  few := h.few

/-- Looking through a list goes on. -/
theorem act (h : Browsing s c page u alls turn affs seats es w) (hlimit : page.limit ≠ some 0)
    (hb : a.Browses c w) (hact : w.act s a = some w') : ∃ alls turn affs seats,
      Browsing s c page u alls turn affs seats (es ++ [(w, a)]) w' := by
  cases a with
  | step id =>
    obtain ⟨t, ht, rfl, _⟩ := turn_of_step hact
    by_cases hplain : ∀ e errands, t.work ≠ .errands (e :: errands)
    · exact ⟨_, _, _, _, h.calm_step ht hplain hact⟩
    · simp only [not_forall, Classical.not_not] at hplain
      obtain ⟨e, errands, hwork⟩ := hplain
      obtain ⟨all, affs, new, hnext⟩ := h.turn_step hlimit ht hwork hact
      exact ⟨_, _, _, _, hnext⟩
  | click n =>
    obtain ⟨turn, hnext⟩ := h.click hb hact
    exact ⟨_, _, _, _, hnext⟩
  | note ts =>
    obtain ⟨waiting, heq⟩ := noteWaiting_eq (w := w) ts
    have hw : w' = { w with waiting := waiting } := (Option.some.inj hact).symm.trans heq
    subst hw
    exact ⟨_, _, _, _, h.still trivial hact rfl rfl rfl (fun _ => .rfl) rfl rfl⟩
  | release g =>
    cases Option.some.inj hact
    exact ⟨_, _, _, _, h.still trivial hact rfl rfl rfl (fun _ => mem_release g) rfl rfl⟩
  | _ => cases hb

/-- Whatever happens while a list is looked through. -/
theorem history (hu : Orderly u) (hidle : u.tasks = []) (hc : u.scene.tree.contains c)
    (hm : u.scene.tree.contains (page.more.getD c)) (hlimit : page.limit ≠ some 0)
    (hnone : ∀ x k, u.scene.clicks.get? x = some k → k.turned? c = none)
    (h : History s (Act.Browses c) (u.renderList s c page).1 es w) :
    ∃ alls turn affs seats, Browsing s c page u alls turn affs seats es w := by
  refine h.invariant_past
    (I := fun es w => ∃ alls turn affs seats, Browsing s c page u alls turn affs seats es w) ?_ ?_
  · obtain ⟨affs, seats, hshelf⟩ := Shelf.start (s := s) hu hidle hc hm hnone
    have hawaits : Awaits (u.renderList s c page).1 none :=
      .called hu.sound.roster hidle
        (moved_of_called hu.sound.roster (sameTasks_takeUpList c page false) [] _)
    exact ⟨[], none, affs, seats, hshelf, hawaits, rfl, rfl,
      (fun he => by cases he), Nat.le_of_eq (Nat.zero_add _)⟩
  · rintro es w a w' ⟨alls, turn, affs, seats, hw⟩ hb hact
    exact hw.act hlimit hb hact

end Browsing

end World

end Montage
