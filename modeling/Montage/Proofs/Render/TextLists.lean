import Montage.Proofs.Box.Bullets
import Montage.Proofs.Box.Progress
import Montage.Proofs.Media.Agreement
import Montage.Proofs.Render.Yields

/-!
Lists as text. Main statement: a list rendered into an empty block, each item with the view that shows its
text, comes to an end on every schedule, and the block then gives the rows of the items that are shown, each
item with a bullet, and a line that tells how many are left, if some are.
-/

namespace Montage

open Json (Value)

variable {F : Type} {s : Setup F Box.Item} {registry : Registry F}

/-- A box that is painted takes its place. -/
theorem Job.yields_boxed {b : Brief F} {ready : Prepared F} {item : Box.Item} {kids : List (Rose Box.Item)}
    (hpost : b.config.postRender = none) : (paint b ready [.node item kids] [] false).Yields s registry
      (some .rendered) [.node item kids] := by
  have hpainted : (paint b ready [.node item kids] [] false).Yields s registry (some .rendered)
      ([.node item kids].flatMap (b.settled s ready)) := yields_painted hpost
  rwa [List.flatMap_singleton, Box.settled_eq] at hpainted

/-! What is shown of an item. -/

section Item

variable (h : registry.HasBuiltins Box.Item) (around : World.Surroundings)
include h

/-- The data is shown as text. -/
theorem yields_text : (Job.prepare (.ofConfig Box.Item registry around (Config.bare "text" [])) .fresh).Yields
    s registry (some .rendered) [.node (.box .inline none) [Box.leaf around.data.display]] := by
  have hview := h _ (List.mem_of_getElem? (i := 0) rfl)
  refine Job.yields_bare hview rfl nofun ?_
  exact Job.yields_of_next (fun _ => rfl) (Job.yields_boxed rfl)

/-- So it is for an item, in a line with a bullet. -/
theorem yields_item {props : Props F} (hitem : Props.config? props "item" = none) :
    (Job.prepare (.ofConfig Box.Item registry around (itemConfig props)) .fresh).Yields s registry
      (some .rendered) [Box.itemTree around.data] := by
  have hview := h _ (List.mem_of_getElem? (i := 4) rfl)
  have hbare : itemConfig props = Config.bare "list-item" [("content", .config (.text "text"))] := by
    rw [itemConfig, hitem]
    rfl
  rw [hbare]
  refine Job.yields_bare hview rfl (List.forall_mem_singleton.mpr rfl) ?_
  -- What stands in the line is the config of the text.
  have htext : ∀ c ∈ [Config.bare "text" ([] : Props F)], ∃ outcome,
      (Job.prepare (.ofConfig Box.Item registry around c) .fresh).Yields s registry outcome
        [.node (.box .inline none) [Box.leaf around.data.display]] :=
    List.forall_mem_singleton.mpr ⟨_, yields_text h around⟩
  exact Job.yields_of_goes (fun _ => rfl) htext (Job.yields_boxed rfl)

end Item

/-! What is shown of a list. -/

theorem World.map_fst_listItems (items : List Value) (start stop : Nat) :
    (World.listItems items start stop).map Prod.fst = (items.drop start).take (stop - start) := by
  have hvalue : ∀ i, (items[start + i]?.map fun v => (v, (⟨items, start, stop, start + i⟩ : ListItem))).map
      Prod.fst = (items.drop start)[i]? := by
    intro i
    rw [Option.map_map, List.getElem?_drop]
    exact Option.map_id_fun' ▸ rfl
  rw [World.listItems, List.map_filterMap]
  simp only [hvalue]
  generalize items.drop start = rest
  induction stop - start with
  | zero => rfl
  | succ n ih => rw [List.range_succ, List.filterMap_append, ih, List.take_add_one]; rfl

/-- The first page of a list gives its lines. -/
theorem Page.lines_eq (page : Page F) (settings : Settings) (hoffset : page.offset = 0) :
    Box.lines (.node (.box .block none)
      ((page.items.take page.stop).map Box.itemTree ++ page.rest settings)) =
      Box.listLines page.limit page.items := by
  have hrest : page.rest settings =
      ((if page.stop < page.items.length then some (page.items.length - page.stop) else none).map
        Box.moreTree).toList := by
    unfold rest
    split_ifs <;> rfl
  have hstart : page.start = 0 := by rw [start, hoffset, Nat.zero_min]
  rw [hrest, Box.lines_items, stop, hstart]
  cases page.limit with
  | none => simp [Box.listLines]
  | some n =>
    simp only [Nat.zero_add, Box.listLines]
    by_cases hn : n < page.items.length
    · rw [Nat.min_eq_left (Nat.le_of_lt hn), if_pos hn, if_pos hn]
      rfl
    · have hle := Nat.le_of_not_lt hn
      rw [Nat.min_eq_right hle, if_neg (Nat.lt_irrefl _), if_neg hn, List.take_length, List.take_of_length_le hle]
      rfl

section Lists

variable (h : registry.HasBuiltins Box.Item) (around : World.Surroundings) {props : Props F}
  {items : List Value}
include h

/-- The first items of a list are shown, and how many are left. -/
theorem yields_list (hprops : ∀ f ∈ props, f.2.query? = none) (hitem : Props.config? props "item" = none)
    (hdata : around.data = .arr items) :
    let page : Page F := ⟨.object (itemConfig props), items, around.context, 0,
      listLimit (Props.json? props "limit") s.settings.listLimit, none⟩
    (Job.prepare (.ofConfig Box.Item registry around (Config.bare "list" props)) .fresh).Yields s registry
      (some .rendered) [.node (.box .block none)
        ((items.take page.stop).map Box.itemTree ++ page.rest s.settings)] := by
  intro page
  obtain ⟨_, context, item⟩ := around
  cases hdata
  have hview := h _ (List.mem_of_getElem? (i := 3) rfl)
  have hbelow : ∀ i ∈ World.listItems items page.start page.stop, ∃ outcome,
      (Job.batch (Job.ofRaw s registry ⟨i.1, i.2.context context, some i.2⟩ page.item)).Yields s registry
        outcome [Box.itemTree i.1] := by
    intro i _
    -- The batch of an item is its one config.
    have hone : ∀ c ∈ [itemConfig props], ∃ outcome, (Job.prepare (.ofConfig Box.Item registry
        ⟨i.1, i.2.context context, some i.2⟩ c) .fresh).Yields s registry outcome [Box.itemTree i.1] :=
      List.forall_mem_singleton.mpr ⟨_, yields_item h _ hitem⟩
    exact ⟨none, Job.yields_batch hone⟩
  have hshown : (World.listItems items page.start page.stop).flatMap (fun i => [Box.itemTree i.1]) =
      (items.take page.stop).map Box.itemTree := by
    have hstart : page.start = 0 := Nat.zero_min _
    have hitems := World.map_fst_listItems items page.start page.stop
    rw [hstart, List.drop_zero, Nat.sub_zero] at hitems
    rw [← hitems, List.map_map, hstart, List.map_eq_flatMap]
    rfl
  refine Job.yields_bare hview rfl hprops ?_
  refine Job.yields_of_goes (fun _ => rfl) hbelow ?_
  rw [hshown]
  exact Job.yields_boxed rfl

end Lists

namespace World

variable {tree : Tree Box.Item} {w₀ : World F Box.Item} {es₀ : List (World F Box.Item × Act F Box.Item)}
  {d : NodeId} {raw : RawConfig F} {props : Props F}

/-- A list is rendered into an empty block, with no item view of its own and with props that are known. Every
schedule comes to an end. Then the list is rendered, and the block gives the rows of the first items, as
many as the limit allows, each item with a bullet, and one more line if items are left. -/
theorem list_lines (items : List Value) (context : Value) (htree : tree.Linked)
    (hviews : w₀.registry.HasBuiltins Box.Item) (hraw : raw.normalize s.engine = [Config.bare "list" props])
    (hprops : ∀ f ∈ props, f.2.query? = none) (hitem : Props.config? props "item" = none)
    (h₀ : History s (fun v a => a.IsProper v) (start registry tree) es₀ w₀) (hidle : w₀.tasks = [])
    (hempty : w₀.IsEmptyBox d .block none) :
    ∃ n, ∀ es w, History s (fun v a => a.Continues s v) (w₀.render s d raw (.arr items) context).1 es w →
      steps es ≤ n ∧ (w.Stalled s → w.tasks = []) ∧ (w.tasks = [] →
        w.outcomesOf (w₀.render s d raw (.arr items) context).2 = [some .rendered] ∧
        ∃ r, w.scene.tree.subtree? d = some r ∧ Box.lines r =
          Box.listLines (listLimit (Props.json? props "limit") s.settings.listLimit) items) := by
  have hw₀ : Orderly w₀ := Orderly.history h₀ (.start registry htree) fun _ _ hp => hp
  have hd := hw₀.sound.linked.live_lt (Tree.get?_eq_some_live hempty.1)
  obtain ⟨n, hall⟩ := render_of_yields hw₀ hidle hd hraw
    (yields_list (s := s) hviews ⟨.arr items, context, none⟩ hprops hitem rfl)
  refine ⟨n, fun es w h => ?_⟩
  obtain ⟨hsteps, hdrained, hdone⟩ := hall es w h
  refine ⟨hsteps, hdrained, fun hended => ?_⟩
  obtain ⟨houtcomes, houtput⟩ := hdone hended
  rw [hempty.subtree hw₀.sound.linked] at houtput
  exact ⟨houtcomes, _, houtput, (Box.lines_block_single _).trans (Page.lines_eq _ s.settings rfl)⟩

/-- A list of which two items are shown. -/
def pairConfig : Value :=
  .obj [("limit", .ofNat 2), ("view", .str "list")]

/-- A text of two lines, a blank one, and a number. -/
def pairItems : List Value :=
  [.str "a\nb\n", .str "\n", .ofNat 7]

def pairSteps : List (Act Empty Box.Item) :=
  [.step 2, .step 2, .step 2, .step 3, .step 5, .step 5, .step 5, .step 6, .step 6, .step 6, .step 6,
    .step 5, .step 3, .step 4, .step 7, .step 7, .step 7, .step 8, .step 8, .step 8, .step 8, .step 7,
    .step 4, .step 2, .step 1]

/-- The blank item leaves no trace, and the number is left. -/
theorem list_lines_of_pair :
    let s := aloneSetup Box.Item
    let v := (start ⟨Registry.builtins Box.Item⟩ (.single (Box.Item.box .block none))).render s 1
      (.ofJson pairConfig) (.arr pairItems) .null
    ∃ es w, es.map Prod.snd = pairSteps ∧ History s (fun v a => a.Continues s v) v.1 es w ∧
      w.tasks = [] ∧ w.outcomesOf v.2 = [some .rendered] ∧
      ∃ r, w.scene.tree.subtree? 1 = some r ∧
        Box.lines r = ["- a", "  b", "(1 more…)"].map String.toList := by
  intro s v
  have hplay : (play s (fun _ a => a.isStep = true) v.1 pairSteps).any (fun w => w.tasks.isEmpty) = true := by
    decide +kernel
  obtain ⟨w, hw, hended⟩ := (Option.any_eq_true _ _).mp hplay
  rw [List.isEmpty_iff] at hended
  obtain ⟨es, hacts, hes⟩ := History.of_play hw
  have hes := hes.imp fun v a ha => Act.Continues.of_step (s := s) (w := v) ha
  have hraw : (RawConfig.ofJson pairConfig : RawConfig Empty).normalize s.engine =
      [Config.bare "list" [("limit", .json (.ofNat 2))]] := rfl
  obtain ⟨n, hall⟩ := list_lines (s := s) (d := 1) pairItems .null (.single (Box.Item.box .block none))
    paired_alone.box hraw (List.forall_mem_singleton.mpr rfl) rfl .nil rfl ⟨rfl, rfl⟩
  obtain ⟨houtcomes, r, hr, hlines⟩ := (hall es w hes).2.2 hended
  refine ⟨es, w, hacts, hes, hended, houtcomes, r, hr, hlines.trans ?_⟩
  decide +kernel

end World

end Montage
