import Montage.Proofs.Render.Frames
import Montage.Proofs.Render.Tasks

/-!
What clicks do. Main statements: a step keeps the clicks of the nodes that stay, those of the own output
apart, and no step but that of a turned page binds a click that turns pages of a container; showing that
a list goes on binds one such click for each button.
-/

namespace Montage

open Json (Value)

variable {F α : Type}

/-- Whether an errand renders a page into a container and, if so, whether that is all that is left. -/
def Errand.turned? (c : NodeId) : Errand F → Option Bool
  | .turn _ d _ all => if d = c then some all else none
  | _ => none

/-- What a click shows of a list in a container, if anything. -/
def Click.turned? (c : NodeId) (k : Click F) : Option Bool :=
  k.errands.findSome? (·.turned? c)

namespace Scene

variable {s s' s'' : Scene F α} {c d n o p x : NodeId} {out : NodeId → Prop}

/-! Nodes that stay keep their clicks. -/

theorem contains_of_remove (h : (s.remove n).1.tree.contains x) : s.tree.contains x := by
  rw [Tree.contains_iff_slot] at h
  rw [← Tree.contains_detach (n := n), Tree.contains_iff_slot]
  exact fun hx => h (Tree.slot_removeAll_none hx)

theorem clicks_of_stays (h : (s.remove n).1.tree.contains x) :
    (s.remove n).1.clicks.get? x = s.clicks.get? x := by
  rw [get?_clicks_remove, if_neg]
  exact fun hm => Tree.contains_iff_slot.mp h (Tree.mem_removeAll.mp hm).2

theorem clicks_splice_of_stays [Medium α] (h : (s.splice p o).1.tree.contains x) :
    (s.splice p o).1.clicks.get? x = s.clicks.get? x := by
  simp only [splice] at h ⊢
  split at h
  · split at h
    · rename_i hfound hfragment
      rw [if_pos hfound, if_pos hfragment, clicks_of_stays h, clicks_of_stays (contains_of_remove h)]
    · rename_i hfound hfragment
      rw [if_pos hfound, if_neg hfragment, clicks_of_stays h]
  · rename_i hfound
    rw [if_neg hfound, clicks_of_stays h]

/-- Clicks stay with the nodes that stay, some apart, and no new one turns pages of `c`. -/
structure Binds (c : NodeId) (out : NodeId → Prop) (s s' : Scene F α) : Prop where
  kept : ∀ {x}, x < s.tree.next → s'.tree.contains x → ¬out x →
    s'.clicks.get? x = s.clicks.get? x
  turns : ∀ {x k}, s'.clicks.get? x = some k → k.turned? c ≠ none → s.clicks.get? x = some k

namespace Binds

theorem of_same (h : s'.clicks = s.clicks) : Binds c out s s' where
  kept _ _ _ := by rw [h]
  turns hk _ := h ▸ hk

/-- Clicks are only forgotten. -/
theorem of_forgets (hlive : ∀ {x}, s'.tree.contains x → s'.clicks.get? x = s.clicks.get? x)
    (hold : ∀ {x k}, s'.clicks.get? x = some k → s.clicks.get? x = some k) : Binds c out s s' where
  kept _ hl _ := hlive hl
  turns hk _ := hold hk

theorem trans (h : Binds c out s s') (h' : Binds c out s' s'') (hle : s.tree.next ≤ s'.tree.next)
    (hback : ∀ {x}, x < s.tree.next → s''.tree.contains x → s'.tree.contains x) :
    Binds c out s s'' where
  kept hx hl hn := (h'.kept (Nat.lt_of_lt_of_le hx hle) hl hn).trans (h.kept hx (hback hx hl) hn)
  turns hk ht := h.turns (h'.turns hk ht) ht

end Binds

/-! Showing that a list goes on. -/

section More

variable {wrapper container : NodeId} {page : Page F}

/-- Each button is a new node with a click of its own. -/
theorem clicks_addButtons (container : NodeId) (page : Page F) (bs : List (Button α))
    (h : s.tree.Linked) (hw : s.tree.contains wrapper) :
    let s' := bs.foldl (fun s b => s.addButton wrapper container page b) s
    ∃ ids, s'.tree.children wrapper = s.tree.children wrapper ++ ids ∧
      (∀ x ∈ ids, s.tree.next ≤ x ∧ s'.tree.contains x) ∧
      ids.map s'.clicks.get? =
        bs.map (fun b => some ⟨[], [.turn wrapper container page b.all]⟩) ∧
      ∀ x, x ∉ ids → s'.clicks.get? x = s.clicks.get? x := by
  induction bs generalizing s with
  | nil => exact ⟨[], by simp⟩
  | cons b bs ih =>
    have hwlt := h.live_lt hw
    have hg := Tree.Grown.attach h hwlt b.node
    have hn : s.tree.next < (s.tree.attach wrapper b.node).1.next := by simp
    have hg' := hg.trans (.attach hg.after hn b.label)
      (.inr ⟨_, rfl, Nat.le_refl _, Tree.contains_attach.mpr (.inr rfl)⟩)
    obtain ⟨ids, hkids, hnew, hbound, hold⟩ :=
      ih (s := s.addButton wrapper container page b) hg'.after (hg'.lives hw)
    have hge : ∀ x ∈ ids, s.tree.next < x := fun x hx =>
      Nat.lt_of_lt_of_le (Nat.lt_of_lt_of_le hn (Tree.Grown.attach hg.after hn b.label).next_le)
        (hnew x hx).1
    have hfirst : s.tree.next ∉ ids := fun hm => Nat.lt_irrefl _ (hge _ hm)
    have hone : (s.addButton wrapper container page b).tree.children wrapper =
        s.tree.children wrapper ++ [s.tree.next] := by
      change ((s.tree.attach wrapper b.node).1.attach s.tree.next b.label).1.children wrapper = _
      rw [Tree.children_attach hg.after hn, if_neg fun he => Nat.ne_of_lt hwlt he.1,
        Tree.children_attach h hwlt, if_pos ⟨rfl, hw⟩]
    refine ⟨s.tree.next :: ids, ?_, ?_, ?_, fun x hx => ?_⟩
    · simp only [List.foldl_cons]
      rw [hkids, hone, List.append_assoc]
      rfl
    · intro x hx
      rcases List.mem_cons.mp hx with rfl | hx
      · refine ⟨Nat.le_refl _, ?_⟩
        rw [List.foldl_cons, tree_addButtons]
        refine (Tree.Grown.plantAll _ hg'.after (Nat.lt_of_lt_of_le hwlt hg'.next_le)).lives ?_
        exact (Tree.Grown.attach hg.after hn b.label).lives (Tree.contains_attach.mpr (.inr rfl))
      · exact ⟨Nat.le_of_lt (hge x hx), (hnew x hx).2⟩
    · simp only [List.foldl_cons, List.map_cons, hbound]
      rw [hold _ hfirst]
      exact congrArg (· :: _) ((Table.get?_insert ..).trans (if_pos rfl))
    · simp only [List.mem_cons, not_or] at hx
      simp only [List.foldl_cons]
      rw [hold x hx.2]
      exact (Table.get?_insert ..).trans (if_neg hx.1)

/-- Showing that a list goes on makes a wrapper whose last children turn pages, and binds no other
click. -/
theorem clicks_showMore [Medium α] (s : Scene F α) (settings : Settings) (container : NodeId)
    (page : Page F) (h : s.tree.Linked) (hm : page.more.getD container < s.tree.next) :
    let s' := s.showMore settings container page
    let more := Medium.more (α := α) settings page.limit (page.items.length - page.offset)
    ∃ top ids, s'.tree.children s.tree.next = top ++ ids ∧
      top.length = more.label.toList.length ∧ (∀ x ∈ ids, s.tree.next < x ∧ s'.tree.contains x) ∧
      ids.map s'.clicks.get? =
        more.buttons.map (fun b => some ⟨[], [.turn s.tree.next container page b.all]⟩) ∧
      ∀ x, x ∉ ids → s'.clicks.get? x = s.clicks.get? x := by
  unfold showMore
  obtain ⟨item, label, buttons⟩ :=
    Medium.more (α := α) settings page.limit (page.items.length - page.offset)
  have hg := Tree.Grown.attach h hm item
  have hn : s.tree.next < (s.tree.attach (page.more.getD container) item).1.next := by simp
  have hl : (s.tree.attach (page.more.getD container) item).1.contains s.tree.next :=
    Tree.contains_attach.mpr (.inr rfl)
  have hbare : (s.tree.attach (page.more.getD container) item).1.children s.tree.next = [] := by
    rw [Tree.children_attach h hm, if_neg fun he => Nat.ne_of_gt hm he.1,
      Tree.children_of_dead h.not_live_next]
  have hbuttons : ∀ (tree : Tree α) (top : List NodeId), tree.Linked → tree.contains s.tree.next →
      s.tree.next < tree.next → tree.children s.tree.next = top →
      let s' := buttons.foldl (fun s' b => s'.addButton s.tree.next container page b)
        { s with tree := tree }
      ∃ ids, s'.tree.children s.tree.next = top ++ ids ∧
        (∀ x ∈ ids, s.tree.next < x ∧ s'.tree.contains x) ∧
        ids.map s'.clicks.get? =
          buttons.map (fun b => some ⟨[], [.turn s.tree.next container page b.all]⟩) ∧
        ∀ x, x ∉ ids → s'.clicks.get? x = s.clicks.get? x := by
    rintro tree top htree hlive hnext rfl
    obtain ⟨ids, hkids, hnew, hrest⟩ :=
      clicks_addButtons (s := { s with tree := tree }) container page buttons htree hlive
    exact ⟨ids, hkids, fun x hx => ⟨Nat.lt_of_lt_of_le hnext (hnew x hx).1, (hnew x hx).2⟩, hrest⟩
  cases label with
  | none =>
    obtain ⟨ids, hkids, hrest⟩ := hbuttons _ [] hg.after hl hn hbare
    exact ⟨[], ids, hkids, rfl, hrest⟩
  | some label =>
    have hg' := Tree.Grown.attach hg.after hn label
    have htop : ((s.tree.attach (page.more.getD container) item).1.attach s.tree.next
        label).1.children s.tree.next =
        [(s.tree.attach (page.more.getD container) item).1.next] := by
      rw [Tree.children_attach hg.after hn, if_pos ⟨rfl, hl⟩, hbare]
      rfl
    obtain ⟨ids, hkids, hrest⟩ := hbuttons _ _ hg'.after (hg'.lives hl)
      (Nat.lt_of_lt_of_le hn hg'.next_le) htop
    exact ⟨_, ids, hkids, rfl, hrest⟩

/-- What is bound when a list in another container goes on turns no pages of this one. -/
theorem binds_showMore [Medium α] (settings : Settings) (h : s.tree.Linked)
    (hm : page.more.getD d < s.tree.next) (hd : d ≠ c) : Binds c out s (s.showMore settings d page) := by
  obtain ⟨top, ids, _, _, hnew, hbound, hold⟩ := clicks_showMore s settings d page h hm
  constructor
  case kept =>
    exact fun {x} hx _ _ => hold x fun hm => Nat.lt_irrefl _ (Nat.lt_trans hx (hnew x hm).1)
  case turns =>
    intro x k hk ht
    by_cases hx : x ∈ ids
    · have hk' : some k ∈ ids.map (s.showMore settings d page).clicks.get? :=
        hk ▸ List.mem_map_of_mem hx
      rw [hbound] at hk'
      obtain ⟨b, _, hb⟩ := List.mem_map.mp hk'
      cases Option.some.inj hb
      simp [Click.turned?, Errand.turned?, hd] at ht
    · exact (hold x hx).symm.trans hk

end More

end Scene

variable [Medium α]

namespace World

open Scene (Binds)

variable {s : Setup F α} {w w' : World F α} {a : Act F α} {t : Task F α} {c d x : NodeId}

theorem clicks_takeUpAll (around : Surroundings) (cs : List (Config F)) :
    (w.takeUpAll d around cs).1.scene.clicks = w.scene.clicks := by
  induction cs generalizing w with
  | nil => rfl
  | cons c cs ih => exact ih (w := (w.takeUp d around c).1)

theorem clicks_takeUpItems (raw : RawConfig F) (context : Value) (items : List (Value × ListItem)) :
    (w.takeUpItems s d raw context items).1.scene.clicks = w.scene.clicks := by
  induction items generalizing w with
  | nil => rfl
  | cons i items ih =>
    obtain ⟨v, item⟩ := i
    exact ih.trans (clicks_takeUpAll _ _)

theorem clicks_decorate (sc : Scene F α) (settings : Settings) (view : Option String) (o : NodeId)
    (p : Prepared F) (context : Value) : (sc.decorate settings view o p context).clicks = sc.clicks := by
  have hclasses : ∀ classes, (sc.addClasses o classes).clicks = sc.clicks := by
    intro classes
    unfold Scene.addClasses
    split <;> rfl
  unfold Scene.decorate
  cases (Fields.get? p.props "tooltip").bind (Tooltip.ofProp · p.data context) with
  | none => exact hclasses _
  | some tip => exact hclasses _

/-- Puts an error in a place and binds nothing. -/
theorem binds_fillWithError {out : NodeId → Prop} (sc : Scene F α) (p : NodeId) (e : Error)
    (offending : Option Value) : Binds c out sc (sc.fillWithError p e offending) :=
  .of_forgets
    (fun hl => Scene.clicks_splice_of_stays
      (s := { sc with tree := (sc.tree.grow (Medium.failure e offending)).1 }) hl)
    fun hk => Scene.clicks_splice
      (s := { sc with tree := (sc.tree.grow (Medium.failure e offending)).1 }) hk

variable [LawfulMedium α]

/-- A turn that shows no page of a list binds nothing but the clicks of the own output. -/
theorem binds_of_turn (h : Sound w) (ht : t ∈ w.tasks) (hout : t.work.output? ≠ some c)
    (hplain : ∀ wrapper d page all es, t.work ≠ .errands (.turn wrapper d page all :: es))
    (hturn : Turn s w t w') : Binds c (fun x => t.work.output? = some x) w.scene w'.scene := by
  have hsame : w'.scene = w.scene → Binds c (fun x => t.work.output? = some x) w.scene w'.scene :=
    fun hs => .of_same (congrArg Scene.clicks hs)
  cases hturn with
  | waits r phase work output scene moved => exact hsame scene
  | begins r phase shape work fresh output scene moved => exact .of_same (by rw [scene])
  | draws r o phase work painting output step script drawn moved =>
    generalize w'.scene = sc at drawn
    cases drawn with
    | plant rose => exact .of_same rfl
    | mark m => exact .of_same rfl
    | onClick events =>
      constructor
      case kept =>
        intro x _ _ hx
        refine (Table.get?_insert ..).trans (if_neg ?_)
        rintro rfl
        exact hx (work ▸ painting)
      case turns =>
        intro x k hk hkt
        rw [Table.get?_insert] at hk
        split at hk
        · cases hk
          exact absurd rfl hkt
        · exact hk
  | nests r o phase raw around work painting output script scene moved =>
    exact .of_same ((congrArg Scene.clicks scene).trans (clicks_takeUpAll _ _))
  | starts r o phase raw around work painting output script scene moved =>
    exact .of_same ((congrArg Scene.clicks scene).trans (clicks_takeUpAll _ _))
  | lists r o phase page work painting output script own scene moved =>
    have ho : o < w.scene.tree.next := h.output_lt ht (work ▸ painting)
    have hne : o ≠ c := fun he => hout (work ▸ he ▸ painting)
    have htakes := takes_takeUpItems s page.item page.context
      (listItems page.items page.start page.stop) h.linked ho
    have hclicks := clicks_takeUpItems (w := w) (s := s) (d := o) page.item page.context
      (listItems page.items page.start page.stop)
    rw [takeUpList_eq] at scene
    rw [scene]
    split
    · have hlinked := htakes.grown.tree.after
      have hle := htakes.grown.tree.next_le
      have ho' := Nat.lt_of_lt_of_le ho hle
      have hm : Option.getD page.more o < (w.takeUpItems s o page.item page.context
          (listItems page.items page.start page.stop)).1.scene.tree.next := by
        simpa [own] using ho'
      refine .trans (.of_same hclicks) (Scene.binds_showMore s.settings hlinked hm hne) hle ?_
      intro x hx hl
      have hg :=
        Scene.Grown.showMore s.settings o { page with offset := page.stop } hlinked ho' hm
      exact hg.tree.live (Nat.lt_of_lt_of_le hx hle) ▸ hl
    · exact .of_same hclicks
  | skips r work fresh scene settled =>
    rw [scene]
    exact .of_same rfl
  | fails r e offending o work fresh wrong scene settled =>
    rw [scene]
    exact binds_fillWithError _ _ _ _
  | abandons r o e work painting scene settled =>
    obtain ⟨hmild, _, hf⟩ := filled_of_fails h ht work (.inr ⟨o, painting, rfl⟩) e none
    have hdiscard : Binds c (fun x => t.work.output? = some x) w.scene (w.scene.discard o) :=
      .of_forgets Scene.clicks_of_stays Scene.clicks_of_discard
    rw [scene]
    refine hdiscard.trans (binds_fillWithError _ _ _ _) hmild.steady.next_le fun hx hl => ?_
    exact hf.fades.live (Nat.lt_of_lt_of_le hx hmild.steady.next_le) hl
  | completes r o p work painting scene settled =>
    rw [scene]
    have hclicks := clicks_decorate w.scene s.settings r.resolved.name? o p r.context
    exact .of_forgets (fun hl => (Scene.clicks_splice_of_stays hl).trans (by rw [hclicks]))
      fun hk => hclicks ▸ Scene.clicks_splice hk
  | expands rs work scene moved => exact hsame scene
  | passes e es work scene moved => exact hsame scene
  | turns wrapper container page all es work scene moved =>
    exact absurd work (hplain wrapper container page all es)
  | ends work scene ended => exact hsame scene

end World

end Montage
