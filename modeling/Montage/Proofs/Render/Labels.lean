import Montage.Proofs.Render.Clicks

/-!
What is said of nodes and is lost with them: which one is the popup, and which tooltips they have. Main
statement: an act keeps what is said of the nodes that stay and says nothing else, unless it sets the popup,
or is the step in which a run completes; that step keeps what is said once the output is decorated.
-/

namespace Montage

open Json (Value)

variable {F α : Type}

/-- Something that can be said of a node: that it is the popup, or that it has a tooltip. -/
inductive Label (F : Type) where
  | popup
  | tooltip (tip : Tooltip F)

namespace Scene

variable {s s' s'' : Scene F α} {l : Label F} {d n o p x : NodeId}

def Bears (s : Scene F α) : Label F → NodeId → Prop
  | .popup, x => s.popup = some x
  | .tooltip tip, x => s.tooltips.get? x = some tip

/-- Something is said of nodes that are there. -/
def BearsLive (s : Scene F α) (l : Label F) : Prop :=
  ∀ x, s.Bears l x → s.tree.contains x

/-- It stays true of a node as long as the node is there, and becomes true of no other. -/
structure Keeps (l : Label F) (s s' : Scene F α) : Prop where
  borne : ∀ {x}, s'.Bears l x ↔ s.Bears l x ∧ s'.tree.contains x

/-- The popup and the tooltips are the same. -/
structure SameLabels (s s' : Scene F α) : Prop where
  popup : s'.popup = s.popup
  tooltips : s'.tooltips = s.tooltips

namespace SameLabels

theorem refl (s : Scene F α) : SameLabels s s := ⟨rfl, rfl⟩

theorem trans (h : SameLabels s s') (h' : SameLabels s' s'') : SameLabels s s'' :=
  ⟨h'.popup.trans h.popup, h'.tooltips.trans h.tooltips⟩

theorem bears (h : SameLabels s s') : s'.Bears l x ↔ s.Bears l x := by
  cases l with
  | popup => simp [Bears, h.popup]
  | tooltip tip => simp [Bears, h.tooltips]

end SameLabels

namespace Keeps

theorem live (h : Keeps l s s') : s'.BearsLive l :=
  fun _ hx => (h.borne.mp hx).2

/-- Nothing is taken away. -/
theorem of_same (h : s.BearsLive l) (hs : SameLabels s s')
    (hl : ∀ x, s.tree.contains x → s'.tree.contains x) : Keeps l s s' where
  borne {x} := by
    rw [hs.bears]
    exact ⟨fun hx => ⟨hx, hl x (h x hx)⟩, And.left⟩

/-- What else is known about the nodes does not matter. -/
theorem congr (h : Keeps l s s') (hs : SameLabels s' s'') (ht : s''.tree = s'.tree) : Keeps l s s'' where
  borne {x} := by
    rw [hs.bears, ht]
    exact h.borne

theorem trans (h : Keeps l s s') (h' : Keeps l s' s'')
    (hback : ∀ x, s.tree.contains x → s''.tree.contains x → s'.tree.contains x)
    (hl : s.BearsLive l) : Keeps l s s'' where
  borne {x} := by
    rw [h'.borne, h.borne, and_assoc]
    exact and_congr_right fun hx => ⟨And.right, fun h'' => ⟨hback x (hl x hx) h'', h''⟩⟩

end Keeps

theorem bears_remove : (s.remove n).1.Bears l x ↔ s.Bears l x ∧ x ∉ (s.tree.remove n).2 := by
  cases l with
  | popup =>
    have hpopup : (s.remove n).1.popup = s.popup.filter fun p => !(s.tree.remove n).2.contains p := rfl
    rw [Bears, hpopup, Option.filter_eq_some_iff, Bool.not_eq_true', ← Bool.not_eq_true,
      List.contains_iff_mem]
    rfl
  | tooltip tip =>
    have htips : (s.remove n).1.tooltips.get? x =
        if x ∈ (s.tree.remove n).2 then none else s.tooltips.get? x := Table.get?_forget ..
    rw [Bears, htips]
    by_cases hx : x ∈ (s.tree.remove n).2 <;> simp [Bears, hx]

theorem keeps_remove (h : s.BearsLive l) (n : NodeId) : Keeps l s (s.remove n).1 := by
  refine ⟨fun {x} => ?_⟩
  rw [bears_remove]
  refine and_congr_right fun hx => ?_
  have hslot : (s.tree.detach n).slots.get? x ≠ none := by
    rw [← Tree.contains_iff_slot, Tree.contains_detach]
    exact h x hx
  rw [tree_remove, Tree.contains_iff_slot]
  exact not_congr (Tree.mem_removeAll.trans (and_iff_right hslot))

theorem keeps_discard (h : s.BearsLive l) (n : NodeId) : Keeps l s (s.discard n) :=
  (keeps_remove h n).congr ⟨rfl, rfl⟩ rfl

theorem contains_of_discards {ids : List NodeId} (h : (ids.foldl discard s).tree.contains x) :
    s.tree.contains x := by
  induction ids generalizing s with
  | nil => exact h
  | cons n ids ih => exact contains_of_remove (n := n) (ih (s := s.discard n) h)

theorem keeps_discards (h : s.BearsLive l) (ids : List NodeId) : Keeps l s (ids.foldl discard s) := by
  induction ids generalizing s with
  | nil => exact .of_same h (.refl s) fun _ => id
  | cons n ids ih =>
    have hone := keeps_discard h n
    exact hone.trans (ih hone.live) (fun _ _ => contains_of_discards (s := s.discard n)) h

theorem sameLabels_addButtons (bs : List (Button α)) (s : Scene F α) (wrapper container : NodeId)
    (page : Page F) :
    SameLabels s (bs.foldl (fun s b => s.addButton wrapper container page b) s) := by
  induction bs generalizing s with
  | nil => exact .refl s
  | cons b bs ih =>
    have hone : SameLabels s (s.addButton wrapper container page b) := ⟨rfl, rfl⟩
    exact hone.trans (ih _)

variable [Medium α]

theorem sameLabels_showMore (s : Scene F α) (settings : Settings) (container : NodeId)
    (page : Page F) : SameLabels s (s.showMore settings container page) := by
  have hbuttons := fun (bs : List (Button α)) wrapper (tree : Tree α) =>
    sameLabels_addButtons bs { s with tree := tree } wrapper container page
  exact ⟨(hbuttons _ _ _).popup, (hbuttons _ _ _).tooltips⟩

/-- Splicing only takes away. -/
theorem contains_of_splice (h : (s.splice p o).1.tree.contains x) : s.tree.contains x := by
  have hreplaced : (s.tree.replace p (s.placed o)).1.contains x → s.tree.contains x := fun hx =>
    Tree.contains_replace ▸ hx
  simp only [splice] at h
  split at h
  · split at h
    · exact hreplaced (contains_of_remove (contains_of_remove h))
    · exact hreplaced (contains_of_remove h)
  · exact hreplaced (contains_of_remove h)

theorem keeps_splice (h : s.BearsLive l) (p o : NodeId) : Keeps l s (s.splice p o).1 := by
  have hreplaced : Keeps l s { s with tree := (s.tree.replace p (s.placed o)).1 } :=
    .of_same h ⟨rfl, rfl⟩ fun x hx => Tree.contains_replace.trans hx
  have hremoved := fun n => hreplaced.trans (keeps_remove hreplaced.live n)
    (fun _ _ => contains_of_remove) h
  simp only [splice]
  split
  · split
    · exact (hremoved p).trans (keeps_remove (hremoved p).live o) (fun _ _ => contains_of_remove) h
    · exact hremoved p
  · exact hremoved o

/-- The tree that shows an error takes nothing away, and what follows is a splice. -/
theorem keeps_fillWithError (hl : s.tree.Linked) (h : s.BearsLive l) (p : NodeId) (e : Error)
    (offending : Option Value) : Keeps l s (s.fillWithError p e offending) := by
  have hgrown : Keeps l s { s with tree := (s.tree.grow (Medium.failure e offending)).1 } :=
    .of_same h ⟨rfl, rfl⟩ fun x => (Tree.Grown.grow _ hl).lives
  have hspliced := keeps_splice hgrown.live p (s.tree.grow (Medium.failure e offending)).2
  exact hgrown.trans (hspliced.congr ⟨rfl, rfl⟩ rfl) (fun _ _ => contains_of_splice) h

/-! Decorating. -/

/-- The nodes that a tooltip of an output is bound to. -/
def takers (s : Scene F α) (o : NodeId) : List NodeId :=
  (s.placed o).filter fun id => ((s.tree.get? id).map Medium.takesTooltip).getD false

theorem live_of_takers (h : x ∈ s.takers o) : s.tree.contains x := by
  have htakes := (List.mem_filter.mp h).2
  cases hx : s.tree.get? x with
  | none => simp [hx] at htakes
  | some item => exact Tree.get?_eq_some_live hx

theorem get?_tooltips_bindTooltip (tip : Tooltip F) : (s.bindTooltip o tip).tooltips.get? x =
    if x ∈ s.takers o then some tip else s.tooltips.get? x :=
  get?_foldl_insert ..

end Scene

/-- The tooltip that a view declares for its output. -/
def Prepared.tooltip? (p : Prepared F) (context : Value) : Option (Tooltip F) :=
  (Fields.get? p.props "tooltip").bind (Tooltip.ofProp · p.data context)

namespace Scene

variable {s : Scene F α} {l : Label F} {o x : NodeId} [Medium α] (settings : Settings)
  (view : Option String) (p : Prepared F) (context : Value)

theorem sameLabels_addClasses (classes : List String) : SameLabels s (s.addClasses o classes) := by
  unfold addClasses
  split
  · exact .refl s
  · exact ⟨rfl, rfl⟩

/-- An output is given classes, and then the tooltip that its view declares. -/
theorem decorate_eq : s.decorate settings view o p context =
    match p.tooltip? context with
    | none => s.addClasses o (classesOf settings view p.classes)
    | some tip => (s.addClasses o (classesOf settings view p.classes)).bindTooltip o tip := rfl

theorem popup_decorate : (s.decorate settings view o p context).popup = s.popup := by
  have hclasses := (sameLabels_addClasses (s := s) (o := o) (classesOf settings view p.classes)).popup
  rw [decorate_eq]
  cases p.tooltip? context <;> exact hclasses

theorem get?_tooltips_decorate : (s.decorate settings view o p context).tooltips.get? x =
    if x ∈ (s.decorate settings view o p context).takers o then
      (p.tooltip? context).or (s.tooltips.get? x)
    else s.tooltips.get? x := by
  have hclasses := (sameLabels_addClasses (s := s) (o := o) (classesOf settings view p.classes)).tooltips
  rw [decorate_eq]
  cases p.tooltip? context with
  | none => simp [hclasses]
  | some tip =>
    rw [get?_tooltips_bindTooltip, hclasses]
    rfl

theorem bearsLive_decorate (hl : s.tree.Linked) (h : s.BearsLive l) :
    (s.decorate settings view o p context).BearsLive l := by
  have hgrown := (Grown.decorate (o := o) hl settings view p context).tree
  intro x hx
  cases l with
  | popup =>
    rw [Bears, popup_decorate] at hx
    exact hgrown.lives (h x hx)
  | tooltip tip =>
    rw [Bears, get?_tooltips_decorate] at hx
    split at hx
    · exact live_of_takers ‹_›
    · exact hgrown.lives (h x hx)

end Scene

variable [Medium α]

def Act.setsPopup : Act F α → Bool
  | .popup _ => true
  | _ => false

/-- Taking up a list takes nothing away. -/
theorem TakesList.lives {d : NodeId} {more : Option NodeId} {s s' : Scene F α}
    {batches : List (List (Run F α))} (h : TakesList d more s s' batches) :
    ∀ x, s.tree.contains x → s'.tree.contains x := by
  cases h with
  | all takes => exact fun x hx => takes.grown.tree.lives hx
  | part s₁ takes grown items => exact fun x hx => grown.tree.lives (takes.grown.tree.lives hx)

namespace World

open Scene (Keeps SameLabels)

variable {s : Setup F α} {w w' : World F α} {a : Act F α} {t : Task F α} {l : Label F} {d : NodeId}

theorem sameLabels_takeUpAll (w : World F α) (d : NodeId) (around : Surroundings)
    (cs : List (Config F)) : SameLabels w.scene (w.takeUpAll d around cs).1.scene := by
  induction cs generalizing w with
  | nil => exact .refl _
  | cons c cs ih =>
    have hone : SameLabels w.scene (w.takeUp d around c).1.scene := ⟨rfl, rfl⟩
    exact hone.trans (ih _)

theorem sameLabels_takeUpItems (w : World F α) (s : Setup F α) (d : NodeId) (raw : RawConfig F)
    (context : Value) (items : List (Value × ListItem)) :
    SameLabels w.scene (w.takeUpItems s d raw context items).1.scene := by
  induction items generalizing w with
  | nil => exact .refl _
  | cons i items ih =>
    obtain ⟨v, item⟩ := i
    exact (sameLabels_takeUpAll w d _ _).trans (ih _)

theorem sameLabels_takeUpList (w : World F α) (s : Setup F α) (d : NodeId) (page : Page F)
    (all : Bool) : SameLabels w.scene (w.takeUpList s d page all).1.scene := by
  obtain ⟨shown, hs | ⟨rest, _, hs⟩⟩ := takeUpList_cases w s d page all
  · rw [hs]
    exact sameLabels_takeUpItems ..
  · rw [hs]
    exact (sameLabels_takeUpItems ..).trans (Scene.sameLabels_showMore ..)

variable [LawfulMedium α]

/-- A turn that does not complete a run keeps what the nodes bear. -/
theorem keeps_of_turn (h : Sound w) (hp : w.scene.BearsLive l) (ht : t ∈ w.tasks)
    (hout : w'.outcomeOf? t.id ≠ some .rendered) (hturn : Turn s w t w') :
    Keeps l w.scene w'.scene := by
  have hl := h.linked
  have hsame : w'.scene = w.scene → Keeps l w.scene w'.scene := fun hs =>
    .of_same hp ⟨congrArg Scene.popup hs, congrArg Scene.tooltips hs⟩ fun _ hx => hs ▸ hx
  cases hturn with
  | waits r phase work output scene moved => exact hsame scene
  | begins r phase shape work fresh output scene moved =>
    have hc := Tree.Grown.create hl (Medium.output shape)
    rw [scene]
    exact .of_same hp ⟨rfl, rfl⟩ fun _ => hc.lives
  | draws r o phase work painting output step script drawn moved =>
    have ho := h.output_lt ht (work ▸ painting : t.work.output? = some o)
    refine .of_same hp ?_ fun _ => (drawn.grown hl ho).tree.lives
    generalize w'.scene = sc at drawn
    cases drawn <;> exact ⟨rfl, rfl⟩
  | nests r o phase raw around work painting output script scene moved =>
    have ho : t.work.output? = some o := work ▸ painting
    rw [scene]
    exact .of_same hp (sameLabels_takeUpAll ..) fun _ => (h.takes_own ht ho s around raw).grown.tree.lives
  | starts r o phase raw around work painting output script scene moved =>
    have ho : t.work.output? = some o := work ▸ painting
    rw [scene]
    exact .of_same hp (sameLabels_takeUpAll ..) fun _ => (h.takes_own ht ho s around raw).grown.tree.lives
  | lists r o phase page work painting output script own scene moved =>
    have ho : t.work.output? = some o := work ▸ painting
    rw [scene]
    exact .of_same hp (sameLabels_takeUpList ..) (h.takesList_own ht ho s own).lives
  | skips r work fresh scene settled =>
    rw [scene]
    exact .of_same hp ⟨rfl, rfl⟩ fun _ => (Scene.skip_steady hl).lives
  | fails r e offending o work fresh wrong scene settled =>
    rw [scene]
    exact Scene.keeps_fillWithError hl hp ..
  | abandons r o e work painting scene settled =>
    have hpruned := Tree.Pruned.remove hl o
    have hdiscard : Keeps l w.scene (w.scene.discard o) := Scene.keeps_discard hp o
    have hp' : r.place < (w.scene.discard o).tree.next :=
      hpruned.next.symm ▸ h.place_lt ht (work ▸ List.mem_cons_self)
    have hfilled := Scene.fillWithError_filled e none hpruned.after hp'
    rw [scene]
    refine hdiscard.trans (Scene.keeps_fillWithError hpruned.after hdiscard.live ..) ?_ hp
    intro x hx
    exact hfilled.fades.live (Nat.lt_of_lt_of_le (hl.live_lt hx) hpruned.steady.next_le)
  | completes r o p work painting scene settled =>
    refine absurd ?_ hout
    rw [outcomeOf?, settled.outcomes, Table.get?_insert, if_pos rfl]
  | expands rs work scene moved => exact hsame scene
  | passes e es work scene moved => exact hsame scene
  | turns wrapper container page all es work scene moved =>
    have hdiscard : Keeps l w.scene (w.discard wrapper).scene := Scene.keeps_discard hp wrapper
    have hlist := h.takesList_turn ht work s
    rw [scene]
    refine hdiscard.trans (.of_same hdiscard.live (sameLabels_takeUpList ..) hlist.lives) ?_ hp
    intro x hx
    exact hlist.reserves.steady.live <| Nat.lt_of_lt_of_le (hl.live_lt hx)
      (Tree.Pruned.remove hl wrapper).steady.next_le
  | ends work scene ended => exact hsame scene

/-- So does every act in which no run is rendered, but that which sets the popup. -/
theorem keeps_of_unrendered (h : Sound w) (hp : w.scene.BearsLive l)
    (ha : a.Known w.scene.tree.next) (hset : l = .popup → a.setsPopup = false)
    (hact : w.act s a = some w')
    (hout : ∀ t ∈ w.tasks, a = .step t.id → w'.outcomeOf? t.id ≠ some .rendered) :
    Keeps l w.scene w'.scene := by
  have hl := h.linked
  have hsame : w'.scene = w.scene → Keeps l w.scene w'.scene := fun hs =>
    .of_same hp ⟨congrArg Scene.popup hs, congrArg Scene.tooltips hs⟩ fun _ hx => hs ▸ hx
  cases a with
  | render d raw data context =>
    cases hact
    exact .of_same hp (sameLabels_takeUpAll ..) fun _ =>
      (takes_takeUpAll _ (raw.normalize s.engine) hl ha).grown.tree.lives
  | renderConfig d c data context =>
    cases hact
    exact .of_same hp ⟨rfl, rfl⟩ fun _ => (takes_takeUp hl ha ⟨data, context, none⟩ c).grown.tree.lives
  | renderList d page =>
    cases hact
    exact .of_same hp (sameLabels_takeUpList ..) (takes_takeUpList s page false hl ha.1 ha.2).lives
  | click n =>
    simp only [World.act, World.click] at hact
    split at hact <;> cases hact <;> exact hsame rfl
  | discard n =>
    cases hact
    exact Scene.keeps_discard hp n
  | create item =>
    cases hact
    exact .of_same hp ⟨rfl, rfl⟩ fun _ => (Tree.Grown.create hl item).lives
  | plant d rose =>
    cases hact
    exact .of_same hp ⟨rfl, rfl⟩ fun _ => (Tree.Grown.plant rose hl ha).lives
  | mark n m =>
    cases hact
    exact .of_same hp ⟨rfl, rfl⟩ fun _ => (Tree.Grown.modify hl n _).lives
  | popup n =>
    cases hact
    cases l with
    | popup => cases hset rfl
    | tooltip tip => exact ⟨fun {x} => (and_iff_left_of_imp (hp x)).symm⟩
  | define v =>
    simp only [World.act] at hact
    split at hact
    · cases hact
      exact hsame rfl
    · cases hact
  | release g =>
    cases hact
    exact hsame rfl
  | note ts =>
    cases hact
    exact hsame (noteWaiting_frame (w := w) ts).1
  | step id =>
    obtain ⟨t, ht, rfl, _, hturn⟩ := turn_of_step hact
    exact keeps_of_turn h hp ht (hout t ht rfl) hturn

/-- What an act does to all that the nodes bear. -/
inductive Labels (s : Setup F α) (w w' : World F α) : Act F α → Prop
  | kept {a : Act F α}
      (quiet : ∀ {id}, w'.outcomeOf? id = some .rendered → w.outcomeOf? id = some .rendered)
      (keeps : ∀ l, w.scene.BearsLive l → (l = .popup → a.setsPopup = false) →
        Keeps l w.scene w'.scene) : Labels s w w' a
  /-- The output of a run is decorated and put in its place. -/
  | completes {t : Task F α} {r : Run F α} {o : NodeId} {p : Prepared F} (mem : t ∈ w.tasks)
      (work : t.work = .run r) (output : r.output? = some o) (ready : r.ready? = some p)
      (scene : w'.scene = (w.scene.decorate s.settings r.resolved.name? o p r.context).finish
        r.place o (r.provenance p))
      (settled : Settled w t .rendered w')
      (keeps : ∀ l, w.scene.BearsLive l →
        Keeps l (w.scene.decorate s.settings r.resolved.name? o p r.context) w'.scene) :
      Labels s w w' (.step t.id)

theorem labels_of_act (h : Sound w) (ha : a.Known w.scene.tree.next) (hact : w.act s a = some w') :
    Labels s w w' a := by
  have hkept : (∀ {id}, w'.outcomeOf? id = some .rendered → w.outcomeOf? id = some .rendered) →
      Labels s w w' a := by
    intro hquiet
    refine .kept hquiet fun l hp hset => keeps_of_unrendered h hp ha hset hact fun t ht _ ho => ?_
    exact (h.roster.settled (hquiet ho)).2 t ht rfl
  have hdeed := deed_of_act h ha hact
  cases hdeed with
  | mild mild quiet =>
    apply hkept
    intro id ho
    exact (quiet ho).resolve_right nofun
  | fails mem alone work before wrong scene settled =>
    apply hkept
    intro id ho
    rw [outcomeOf?, settled.outcomes, Table.get?_insert] at ho
    split at ho
    · cases Option.some.inj ho
      cases wrong <;> contradiction
    · exact ho
  | @completes t r o p mem alone work output scene settled ready =>
    refine .completes mem work output ready scene settled fun l hp => ?_
    rw [scene]
    have hlive := Scene.bearsLive_decorate (o := o) s.settings r.resolved.name? p r.context h.linked hp
    exact (Scene.keeps_splice hlive r.place o).congr ⟨rfl, rfl⟩ rfl

end World

end Montage
