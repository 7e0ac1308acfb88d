import Mathlib
import Montage.Proofs.Media.Likeness
import Montage.Proofs.Render.Instant
import Montage.Proofs.Render.Simulations

/-!
Documents and boxes side by side. A config that is data and uses only the views that both media bring along
is rendered into both. Main statement: if one rendering comes to an end, so does the other, after as many
steps and with the same outcomes; and what the document shows gives the same text as the boxes, unless it
has errors or buttons.
-/

namespace Montage

open Json (Value)

variable {F : Type}

/-! What a job leads to. -/

section Reaching

variable {α : Type} [Medium α] {s : Setup F α} {registry : Registry F}

/-- What may become of a job, or of one below it, whichever gates are open and whatever is shown below. -/
inductive Job.Reaches (s : Setup F α) (registry : Registry F) : Job F α → Job F α → Prop
  | refl {job : Job F α} : Reaches s registry job job
  | next {job job' : Job F α} {opened : List Gate} {next : List (Rose α) → Job F α}
      {below : List (Job F α)} {shown : List (Rose α)}
      (turn : job.turn s registry opened = some (.goes next below))
      (rest : Reaches s registry (next shown) job') : Reaches s registry job job'
  | into {job job' b : Job F α} {opened : List Gate} {next : List (Rose α) → Job F α}
      {below : List (Job F α)} (turn : job.turn s registry opened = some (.goes next below))
      (mem : b ∈ below) (rest : Reaches s registry b job') : Reaches s registry job job'

/-- The name of the view of a config that is prepared. -/
def Job.viewName? : Job F α → Option String
  | .prepare b _ => b.config.viewName?
  | _ => none

/-- Whatever becomes of a job, or of one below it, the views of its configs have these names. -/
def Job.UsesOnly (s : Setup F α) (registry : Registry F) (names : List String) (job : Job F α) : Prop :=
  ∀ job', job.Reaches s registry job' → ∀ name, job'.viewName? = some name → name ∈ names

/-- The views of all configs that come to be rendered for a raw config have these names. -/
def RawConfig.UsesOnly (s : Setup F α) (registry : Registry F) (data context : Value)
    (names : List String) (raw : RawConfig F) : Prop :=
  ∀ job ∈ Job.ofRaw s registry ⟨data, context, none⟩ raw, job.UsesOnly s registry names

namespace Job.UsesOnly

variable {names : List String} {job : Job F α} {next : List (Rose α) → Job F α} {below : List (Job F α)}

/-- What a job becomes, and what is below it, use no more views. -/
theorem of_turn (h : job.UsesOnly s registry names) {opened : List Gate}
    (turn : job.turn s registry opened = some (.goes next below)) :
    (∀ shown, (next shown).UsesOnly s registry names) ∧ ∀ b ∈ below, b.UsesOnly s registry names :=
  ⟨fun _ _ hreach => h _ (.next turn hreach), fun _ hb _ hreach => h _ (.into turn hb hreach)⟩

theorem goes (hown : ∀ name, job.viewName? = some name → name ∈ names)
    (turn : ∀ opened, job.turn s registry opened = some (.goes next below))
    (hnext : ∀ shown, (next shown).UsesOnly s registry names)
    (hbelow : ∀ b ∈ below, b.UsesOnly s registry names) : job.UsesOnly s registry names := by
  intro job' hreach
  cases hreach with
  | refl => exact hown
  | next turn' rest =>
    cases (turn _).symm.trans turn'
    exact hnext _ _ rest
  | into turn' mem rest =>
    cases (turn _).symm.trans turn'
    exact hbelow _ mem _ rest

theorem ends (hown : ∀ name, job.viewName? = some name → name ∈ names) {outcome : Option Outcome}
    {shown : List (Rose α)} (turn : ∀ opened, job.turn s registry opened = some (.ends outcome shown)) :
    job.UsesOnly s registry names := by
  intro job' hreach
  cases hreach with
  | refl => exact hown
  | next turn' rest => cases (turn _).symm.trans turn'
  | into turn' mem rest => cases (turn _).symm.trans turn'

end Job.UsesOnly

end Reaching

/-- The views that a medium brings along are defined. -/
def Registry.HasBuiltins (registry : Registry F) (α : Type) [Medium α] : Prop :=
  ∀ v ∈ Registry.builtins α, registry.get? v.name = some v

/-- The names of the views that both media bring along. -/
def sharedViews : List String :=
  ["text", "block", "line", "list", "list-item", "value"]

/-- Renderers of both media that are set up alike, with an engine that answers at once. -/
structure Paired (s : Setup F Html.Item) (registry : Registry F) (s' : Setup F Box.Item)
    (registry' : Registry F) : Prop where
  instant : s.engine.IsInstant
  engine : s'.engine = s.engine
  settings : s'.settings = s.settings
  lookup : s'.lookup = s.lookup
  html : registry.HasBuiltins Html.Item
  box : registry'.HasBuiltins Box.Item

/-- Steps of painting that show what agrees. -/
inductive Step.Alike : Step F Html.Item → Step F Box.Item → Prop
  | plant {r : Rose Html.Item} {r' : Rose Box.Item} (alike : Agree [r] [r']) :
      Alike (.plant r) (.plant r')
  | render {raw : RawConfig F} {data context : Value} {item : Option ListItem}
      (known : raw.IsData) : Alike (.render raw data context item) (.render raw data context item)
  | list {raw : RawConfig F} {items : List Value} {context : Value} {limit : Option Nat} {offset : Nat}
      (known : raw.IsData) :
      Alike (.list raw items context limit offset) (.list raw items context limit offset)

/-- Jobs in both media that are at the same point of rendering the same config. -/
inductive Job.Alike (s : Setup F Html.Item) (registry : Registry F) (s' : Setup F Box.Item)
    (registry' : Registry F) : Job F Html.Item → Job F Box.Item → Prop
  | prepare {around : World.Surroundings} {c : Config F} {p : Preparation F} (config : c.IsData)
      (instant : p.IsInstant) : Alike s registry s' registry'
        (.prepare (.ofConfig Html.Item registry around c) p)
        (.prepare (.ofConfig Box.Item registry' around c) p)
  | paint {around : World.Surroundings} {c : Config F} {ready : Prepared F} {shape shape' : Shape}
      {kids : List (Rose Html.Item)} {kids' : List (Rose Box.Item)} {steps : List (Step F Html.Item)}
      {steps' : List (Step F Box.Item)} (config : c.IsData) (alike : Agree kids kids')
      (script : List.Forall₂ Step.Alike steps steps') : Alike s registry s' registry'
        (.paint (.ofConfig Html.Item registry around c) ready [.node (Medium.output shape) kids]
          steps false)
        (.paint (.ofConfig Box.Item registry' around c) ready [.node (Medium.output shape') kids']
          steps' false)
  | batched {around : World.Surroundings} {raw : RawConfig F} (data : raw.IsData) :
      Alike s registry s' registry' (batch (ofRaw s registry around raw))
        (batch (ofRaw s' registry' around raw))
  | close {shown : List (Rose Html.Item)} {boxes : List (Rose Box.Item)} (alike : Agree shown boxes) :
      Alike s registry s' registry' (.close shown) (.close boxes)

variable {s : Setup F Html.Item} {registry : Registry F} {s' : Setup F Box.Item}
  {registry' : Registry F}

/-- A view that both media bring along paints in both in the same way, and is no button. -/
theorem Paired.view (h : Paired s registry s' registry') {name : String} (hname : name ∈ sharedViews) :
    ∃ b shape shape', b ≠ Builtin.button ∧
      registry.get? name = some ⟨name, .builtin b, { shape := shape }⟩ ∧
      registry'.get? name = some ⟨name, .builtin b, { shape := shape' }⟩ := by
  have hof : ∀ {b shape shape'}, (name, b, shape) ∈ Medium.builtins Html.Item →
      (name, b, shape') ∈ Medium.builtins Box.Item → b ≠ .button →
      ∃ b shape shape', b ≠ Builtin.button ∧
        registry.get? name = some ⟨name, .builtin b, { shape := shape }⟩ ∧
        registry'.get? name = some ⟨name, .builtin b, { shape := shape' }⟩ := fun hhtml hbox hb =>
    ⟨_, _, _, hb, h.html _ (List.mem_map_of_mem hhtml), h.box _ (List.mem_map_of_mem hbox)⟩
  simp only [sharedViews, List.mem_cons, List.not_mem_nil, or_false] at hname
  rcases hname with rfl | rfl | rfl | rfl | rfl | rfl
  · exact hof (List.mem_of_getElem? (i := 0) rfl) (List.mem_of_getElem? (i := 0) rfl) nofun
  · exact hof (List.mem_of_getElem? (i := 1) rfl) (List.mem_of_getElem? (i := 1) rfl) nofun
  · exact hof (List.mem_of_getElem? (i := 2) rfl) (List.mem_of_getElem? (i := 2) rfl) nofun
  · exact hof (List.mem_of_getElem? (i := 3) rfl) (List.mem_of_getElem? (i := 3) rfl) nofun
  · exact hof (List.mem_of_getElem? (i := 4) rfl) (List.mem_of_getElem? (i := 4) rfl) nofun
  · exact hof (List.mem_of_getElem? (i := 5) rfl) (List.mem_of_getElem? (i := 5) rfl) nofun

/-- A config that is data and uses no other view is rendered by the same builtin in both media, or cannot
be used in either. -/
theorem Paired.resolve (h : Paired s registry s' registry') {c : Config F} (hc : c.IsData)
    (hviews : ∀ name, c.viewName? = some name → name ∈ sharedViews) :
    (∃ why, (World.empty registry : World F Html.Item).resolve c = .failure why ∧
      (World.empty registry' : World F Box.Item).resolve c = .failure why) ∨
    ∃ name b shape shape', b ≠ Builtin.button ∧
      (World.empty registry : World F Html.Item).resolve c =
        .view ⟨name, .builtin b, { shape := shape }⟩ ∧
      (World.empty registry' : World F Box.Item).resolve c =
        .view ⟨name, .builtin b, { shape := shape' }⟩ := by
  unfold World.resolve
  cases hview : c.view with
  | none => exact .inl ⟨_, rfl, rfl⟩
  | some v =>
    cases v with
    | inline f => exact absurd hview (hc.view f)
    | failure why => exact .inl ⟨why, rfl, rfl⟩
    | named name =>
      obtain ⟨b, shape, shape', hb, hhtml, hbox⟩ :=
        h.view (hviews name (by rw [Config.viewName?, hview]))
      refine .inr ⟨name, b, shape, shape', hb, ?_, ?_⟩
      · simp only [World.empty, hhtml]
      · simp only [World.empty, hbox]

/-- What a view that is no button does is alike in both media. -/
theorem alike_steps {b : Builtin} (hb : b ≠ .button) {handle handle' : F → Value → Value → List Event}
    {call : Call F} (hprops : Props.AreData call.props) :
    List.Forall₂ Step.Alike (b.steps handle call) (b.steps handle' call) := by
  cases b with
  | text => exact .cons (.plant (.text _)) .nil
  | value => exact .cons (.plant (.value _ _ _)) .nil
  | content =>
    simp only [Builtin.steps]
    split
    · obtain ⟨v, rfl⟩ := hprops.config ‹_›
      exact .cons (.render (.inl ⟨v, rfl⟩)) .nil
    · exact .nil
  | list =>
    simp only [Builtin.steps]
    split
    · exact .cons (.list (.inr ⟨_, rfl, isData_itemConfig hprops⟩)) .nil
    · exact .nil
  | button => exact absurd rfl hb

namespace Job.Alike

/-- The jobs that a raw config stands for are alike in both media. -/
theorem ofRaw (hengine : s'.engine = s.engine) {around : World.Surroundings} {raw : RawConfig F}
    (hraw : raw.IsData) : List.Forall₂ (Job.Alike s registry s' registry')
      (Job.ofRaw s registry around raw) (Job.ofRaw s' registry' around raw) := by
  rw [Job.ofRaw, Job.ofRaw, hengine, List.forall₂_map_left_iff, List.forall₂_map_right_iff,
    List.forall₂_same]
  exact fun c hc => .prepare (hraw.normalize s.engine c hc) trivial

/-- So are those of the part of a list that is shown. -/
theorem ofPage (page : Page F) (hraw : page.item.IsData) :
    List.Forall₂ (Job.Alike s registry s' registry') (page.jobs s registry)
      (page.jobs s' registry') := by
  rw [Page.jobs, Page.jobs, List.forall₂_map_left_iff, List.forall₂_map_right_iff, List.forall₂_same]
  exact fun _ _ => .batched hraw

section

variable (h : Paired s registry s' registry') {around : World.Surroundings} {c : Config F}
include h

/-- A config that is prepared takes the same turn in both media. -/
theorem turn_prepare {p : Preparation F} (hc : c.IsData) (hp : p.IsInstant)
    (hviews : ∀ name, c.ensureView.viewName? = some name → name ∈ sharedViews) :
    let job := Job.prepare (.ofConfig Html.Item registry around c) p
    let job' := Job.prepare (.ofConfig Box.Item registry' around c) p
    ∃ m m', (∀ opened, job.turn s registry opened = some m) ∧
      (∀ opened, job'.turn s' registry' opened = some m') ∧
      m.Alike (Job.Alike s registry s' registry') Agree m' := by
  intro job job'
  rcases h.resolve hc.ensureView hviews with
    ⟨why, hwhy, hwhy'⟩ | ⟨name, b, shape, shape', hb, hview, hview'⟩
  · exact ⟨_, _, Job.turn_of_failure hwhy p, Job.turn_of_failure hwhy' p, .ends (.failure _ _ _)⟩
  · let brief := Brief.ofConfig Html.Item registry around c
    let brief' := Brief.ofConfig Box.Item registry' around c
    have hsub : brief.subject = ⟨c.ensureView, none, around.data, around.context⟩ := by
      simp only [brief, Brief.subject, Brief.ofConfig, hview, Resolved.options]
    have hsub' : brief'.subject = brief.subject := by
      simp only [brief, brief', Brief.subject, Brief.ofConfig, hview, hview', Resolved.options]
    have hconfig : brief.subject.config.IsData := hc.ensureView
    obtain ⟨g, hg, hadvance, hadvance'⟩ := Subject.advance_of_instant hconfig
      (congrArg Subject.transform hsub) h.instant h.engine hp
    have hturn : ∀ opened, job.turn s registry opened =
        some (Job.moveOf s brief (.builtin b) g) := fun opened =>
      (Job.turn_of_view hview p opened).trans (congrArg (Option.map _) (hadvance opened))
    have hturn' : ∀ opened, job'.turn s' registry' opened =
        some (Job.moveOf s' brief' (.builtin b) g) := fun opened =>
      (Job.turn_of_view hview' p opened).trans
        (congrArg (Option.map _) (hsub'.symm ▸ hadvance' opened))
    refine ⟨_, _, hturn, hturn', ?_⟩
    cases g with
    | awaits events p' => exact .goes .nil fun _ _ _ => .prepare hc hg
    | skipped => exact .ends .skipped
    | failed e => exact .ends (.failure _ _ _)
    | prepared ready =>
      have hcall : brief'.callOf s' ready = brief.callOf s ready := by
        simp only [Brief.callOf, h.settings, h.lookup]
        rfl
      have hsteps : List.Forall₂ Step.Alike (s.paint (.builtin b) (brief.callOf s ready))
          (s'.paint (.builtin b) (brief'.callOf s' ready)) := hcall ▸ alike_steps hb hg
      exact .goes .nil fun _ _ _ => .paint hc .nil hsteps

/-- A config that is painted takes the same turn in both media. -/
theorem turn_paint {ready : Prepared F} {shape shape' : Shape} {kids : List (Rose Html.Item)}
    {kids' : List (Rose Box.Item)} {steps : List (Step F Html.Item)} {steps' : List (Step F Box.Item)}
    (hc : c.IsData) (hkids : Agree kids kids') (hsteps : List.Forall₂ Step.Alike steps steps') :
    let job := Job.paint (.ofConfig Html.Item registry around c) ready
      [.node (Medium.output shape) kids] steps false
    let job' := Job.paint (.ofConfig Box.Item registry' around c) ready
      [.node (Medium.output shape') kids'] steps' false
    ∃ m m', (∀ opened, job.turn s registry opened = some m) ∧
      (∀ opened, job'.turn s' registry' opened = some m') ∧
      m.Alike (Job.Alike s registry s' registry') Agree m' := by
  intro job job'
  cases hsteps with
  | nil =>
    have hpost : c.ensureView.postRender = none := hc.ensureView.postRender
    have hturn : ∀ opened, job.turn s registry opened = some (.ends (some .rendered)
        ((Brief.ofConfig Html.Item registry around c).settled s ready
          (.node (Medium.output shape) kids))) := fun opened =>
      (Job.turn_painted hpost _ _ _).trans (by rw [List.flatMap_singleton])
    have hturn' : ∀ opened, job'.turn s' registry' opened = some (.ends (some .rendered)
        ((Brief.ofConfig Box.Item registry' around c).settled s' ready
          (.node (Medium.output shape') kids'))) := fun opened =>
      (Job.turn_painted hpost _ _ _).trans (by rw [List.flatMap_singleton])
    exact ⟨_, _, hturn, hturn', .ends (.settled _ _ hkids)⟩
  | cons hstep hrest =>
    cases hstep with
    | plant alike =>
      exact ⟨_, _, fun _ => rfl, fun _ => rfl,
        .goes .nil fun _ _ _ => .paint hc (hkids.append alike) hrest⟩
    | render known =>
      exact ⟨_, _, fun _ => rfl, fun _ => rfl,
        .goes (ofRaw h.engine known) fun _ _ hshown => .paint hc (hkids.append hshown) hrest⟩
    | @list raw items context limit offset known =>
      refine ⟨_, _, fun _ => rfl, fun _ => rfl, .goes (ofPage _ known) fun _ _ hshown => ?_⟩
      rw [h.settings]
      exact .paint hc (hkids.append (hshown.append (.rest _ _))) hrest

/-- Alike jobs take alike turns, if the first uses no other views. -/
theorem turn {job : Job F Html.Item} {job' : Job F Box.Item}
    (hjob : Job.Alike s registry s' registry' job job')
    (hviews : job.UsesOnly s registry sharedViews) :
    ∃ m m', (∀ opened, job.turn s registry opened = some m) ∧
      (∀ opened, job'.turn s' registry' opened = some m') ∧
      m.Alike (Job.Alike s registry s' registry') Agree m' := by
  cases hjob with
  | prepare config instant =>
    exact turn_prepare h config instant fun name hname => hviews _ .refl name hname
  | paint config alike script => exact turn_paint h config alike script
  | @batched around raw data =>
    have hall : List.Forall₂ (Job.Alike s registry s' registry') (Job.ofRaw s registry around raw)
        (Job.ofRaw s' registry' around raw) := ofRaw h.engine data
    generalize Job.ofRaw s registry around raw = jobs at hall ⊢
    generalize Job.ofRaw s' registry' around raw = jobs' at hall ⊢
    cases hall with
    | nil => exact ⟨_, _, fun _ => rfl, fun _ => rfl, .ends .nil⟩
    | cons hfirst hrest =>
      exact ⟨_, _, fun _ => rfl, fun _ => rfl,
        .goes (.cons hfirst hrest) fun _ _ hshown => .close hshown⟩
  | close alike => exact ⟨_, _, fun _ => rfl, fun _ => rfl, .ends alike⟩

end

end Job.Alike

/-- Jobs that use no other views and are alike stay so. -/
theorem Paired.simulation (h : Paired s registry s' registry') :
    Simulation s registry s' registry' (fun job job' =>
      job.UsesOnly s registry sharedViews ∧ Job.Alike s registry s' registry' job job') Agree where
  nil := .nil
  append := .append
  turn := by
    rintro job job' ⟨hviews, hjob⟩
    obtain ⟨m, m', hm, hm', halike⟩ := hjob.turn h hviews
    refine ⟨m, m', hm, hm', ?_⟩
    cases halike with
    | ends alike => exact .ends alike
    | goes below rest =>
      obtain ⟨hnext, hbelow⟩ := hviews.of_turn (hm [])
      exact .goes ((List.forall₂_and_left _ _).mpr ⟨hbelow, below⟩) fun shown shown' hshown =>
        ⟨hnext shown, rest shown shown' hshown⟩

namespace World

variable {tree : Tree Html.Item} {tree' : Tree Box.Item} {w₀ w : World F Html.Item}
  {w₀' w' : World F Box.Item} {d d' : NodeId} {v data context : Value}
  {es₀ es : List (World F Html.Item × Act F Html.Item)}
  {es₀' es' : List (World F Box.Item × Act F Box.Item)} {r : Rose Html.Item} {r' : Rose Box.Item}

/-- A config that was read from data is rendered in a document and in boxes by renderers that are set up
alike, and uses only views that both media bring along. If one rendering comes to an end, so does the other.
Then both have taken as many steps, with the same outcomes; and if nothing that the document shows is an
error or a button for the rest of a list, its container has the text that the container of the boxes has,
provided that it had so before. -/
theorem media_agree (htree : tree.Linked) (htree' : tree'.Linked)
    (hpaired : Paired s w₀.registry s' w₀'.registry)
    (h₀ : History s (fun v a => a.IsProper v) (start registry tree) es₀ w₀) (hidle : w₀.tasks = [])
    (h₀' : History s' (fun v a => a.IsProper v) (start registry' tree') es₀' w₀')
    (hidle' : w₀'.tasks = [])
    (hr : w₀.scene.tree.subtree? d = some r) (hr' : w₀'.scene.tree.subtree? d' = some r')
    (htext : r.gather Html.Item.content = r'.gather Box.Item.content)
    (hviews : (RawConfig.ofJson v).UsesOnly s w₀.registry data context sharedViews)
    (h : History s (fun v a => a.Continues s v) (w₀.render s d (.ofJson v) data context).1 es w)
    (h' : History s' (fun v a => a.Continues s' v) (w₀'.render s' d' (.ofJson v) data context).1 es' w') :
    (w.tasks = [] → steps es' ≤ steps es ∧ (w'.Stalled s' → w'.tasks = [])) ∧
      (w'.tasks = [] → steps es ≤ steps es' ∧ (w.Stalled s → w.tasks = [])) ∧
      (w.tasks = [] → w'.tasks = [] → steps es' = steps es ∧
        w'.outcomesOf (w₀'.render s' d' (.ofJson v) data context).2 =
          w.outcomesOf (w₀.render s d (.ofJson v) data context).2 ∧
        none ∉ w.outcomesOf (w₀.render s d (.ofJson v) data context).2 ∧
        ∃ shown boxes, w.scene.tree.subtree? d = some (r.put shown) ∧
          w'.scene.tree.subtree? d' = some (r'.put boxes) ∧
          (Rose.allOf Html.Item.isPlain shown = true →
            (r.put shown).gather Html.Item.content = (r'.put boxes).gather Box.Item.content)) := by
  have hw₀ : Orderly w₀ := Orderly.history h₀ (.start registry htree) fun _ _ hp => hp
  have hw₀' : Orderly w₀' := Orderly.history h₀' (.start registry' htree') fun _ _ hp => hp
  have hd : d < w₀.scene.tree.next := hw₀.sound.linked.live_lt (Tree.live_of_subtree? hr)
  have hd' : d' < w₀'.scene.tree.next := hw₀'.sound.linked.live_lt (Tree.live_of_subtree? hr')
  have hsim := hpaired.simulation
  have halike : List.Forall₂ (Job.Alike s w₀.registry s' w₀'.registry)
      (Job.ofRaw s w₀.registry ⟨data, context, none⟩ (.ofJson v))
      (Job.ofRaw s' w₀'.registry ⟨data, context, none⟩ (.ofJson v)) :=
    Job.Alike.ofRaw hpaired.engine (.inl ⟨v, rfl⟩)
  have hjobs := (List.forall₂_and_left _ _).mpr ⟨hviews, halike⟩
  refine ⟨fun hended => ?_, fun hended => ?_, fun hended hended' => ?_⟩
  · exact (schedules_alike hsim hjobs hw₀ hidle hd hw₀' hidle' hd' h hended h').1
  · exact (schedules_alike hsim.symm (List.Forall₂.flip hjobs) hw₀' hidle' hd' hw₀ hidle hd h' hended
      h).1
  · obtain ⟨_, hagree⟩ := schedules_alike hsim hjobs hw₀ hidle hd hw₀' hidle' hd' h hended h'
    obtain ⟨hsteps, houtcomes, hnone, shown, boxes, halike, hshown, hboxes⟩ := hagree hended'
    refine ⟨hsteps, houtcomes, hnone, shown, boxes, ?_, ?_, fun hplain => ?_⟩
    · rw [hshown, hr]
      rfl
    · rw [hboxes, hr']
      rfl
    · obtain ⟨item, kids⟩ := r
      obtain ⟨item', kids'⟩ := r'
      rw [Rose.gather, Rose.gather] at htext
      rw [Rose.put, Rose.put, Rose.gather, Rose.gather, Rose.gatherAll_append, Rose.gatherAll_append,
        ← List.append_assoc, htext, halike hplain, List.append_assoc]

/-- A renderer without host. -/
def aloneSetup (α : Type) [Medium α] : Setup Empty α where
  host := ⟨nofun, nofun, nofun, nofun⟩
  engine := Expression.engine
  settings := .default
  lookup _ := none

/-- A block, shown under a condition, around the text of what is shown. -/
def titleConfig : Value :=
  .obj [("content", .obj [("view", .str "text")]), ("view", .str "block"), ("when", .bool true)]

def titleSteps {α : Type} [Medium α] : List (Act Empty α) :=
  [.step 2, .step 2, .step 2, .step 2, .step 3, .step 3, .step 3, .step 3, .step 2, .step 1]

theorem paired_alone : Paired (aloneSetup Html.Item) ⟨Registry.builtins Html.Item⟩
    (aloneSetup Box.Item) ⟨Registry.builtins Box.Item⟩ where
  instant := Expression.isInstant_engine
  engine := rfl
  settings := rfl
  lookup := rfl
  html := by
    intro v hv
    simp only [Registry.builtins, Medium.builtins, List.map_cons, List.map_nil, List.mem_cons,
      List.not_mem_nil, or_false] at hv
    rcases hv with rfl | rfl | rfl | rfl | rfl | rfl | rfl <;> rfl
  box := by
    intro v hv
    simp only [Registry.builtins, Medium.builtins, List.map_cons, List.map_nil, List.mem_cons,
      List.not_mem_nil, or_false] at hv
    rcases hv with rfl | rfl | rfl | rfl | rfl | rfl <;> rfl

theorem usesOnly_titleConfig : (RawConfig.ofJson titleConfig).UsesOnly (aloneSetup Html.Item)
    ⟨Registry.builtins Html.Item⟩ (.str "Report") .null sharedViews := by
  have hblock : ∀ name, some "block" = some name → name ∈ sharedViews := fun _ h =>
    Option.some.inj h ▸ by decide
  have htext : ∀ name, some "text" = some name → name ∈ sharedViews := fun _ h =>
    Option.some.inj h ▸ by decide
  -- The block is prepared and painted, which begins the text.
  refine List.forall_mem_singleton.mpr ?_
  refine .goes hblock (fun _ => rfl) (fun _ => ?_) nofun
  refine .goes hblock (fun _ => rfl) (fun _ => ?_) nofun
  refine .goes hblock (fun _ => rfl) (fun _ => ?_) nofun
  refine .goes nofun (fun _ => rfl) (fun _ => .ends nofun fun _ => rfl) ?_
  refine List.forall_mem_singleton.mpr ?_
  refine .goes htext (fun _ => rfl) (fun _ => ?_) nofun
  refine .goes htext (fun _ => rfl) (fun _ => ?_) nofun
  refine .goes nofun (fun _ => rfl) (fun _ => ?_) nofun
  exact .ends nofun fun _ => rfl

/-- The title is shown in an empty document and in an empty box. -/
theorem media_agree_of_title :
    let s := aloneSetup Html.Item
    let s' := aloneSetup Box.Item
    let v := (start ⟨Registry.builtins Html.Item⟩ (.single (Html.Item.ofTag "body"))).render s 1
      (.ofJson titleConfig) (.str "Report") .null
    let v' := (start ⟨Registry.builtins Box.Item⟩ (.single (Box.Item.box .block none))).render s' 1
      (.ofJson titleConfig) (.str "Report") .null
    ∃ es es' w w', es.map Prod.snd = titleSteps ∧ es'.map Prod.snd = titleSteps ∧
      History s (fun v a => a.Continues s v) v.1 es w ∧
      History s' (fun v a => a.Continues s' v) v'.1 es' w' ∧ w.tasks = [] ∧ w'.tasks = [] ∧
      w'.outcomesOf v'.2 = w.outcomesOf v.2 ∧
      (w'.scene.tree.subtree? 1).map (Rose.gather Box.Item.content) =
        (w.scene.tree.subtree? 1).map (Rose.gather Html.Item.content) := by
  intro s s' v v'
  have hplay : (play s (fun _ a => a.isStep = true) v.1 titleSteps).any (fun w =>
      w.tasks.isEmpty && (w.scene.tree.subtree? 1).any (Rose.all Html.Item.isPlain)) = true := by
    cbv
  have hplay' : (play s' (fun _ a => a.isStep = true) v'.1 titleSteps).any (fun w =>
      w.tasks.isEmpty) = true := by
    cbv
  obtain ⟨w, hw, hended⟩ := (Option.any_eq_true _ _).mp hplay
  obtain ⟨w', hw', hended'⟩ := (Option.any_eq_true _ _).mp hplay'
  rw [Bool.and_eq_true, List.isEmpty_iff] at hended
  rw [List.isEmpty_iff] at hended'
  obtain ⟨es, hacts, hes⟩ := History.of_play hw
  obtain ⟨es', hacts', hes'⟩ := History.of_play hw'
  have hes := hes.imp fun v a ha => Act.Continues.of_step (s := s) (w := v) ha
  have hes' := hes'.imp fun v a ha => Act.Continues.of_step (s := s') (w := v) ha
  have hbody : (Tree.single (Html.Item.ofTag "body")).subtree? 1 =
      some (.node (Html.Item.ofTag "body") []) := rfl
  have hroot : (Tree.single (Box.Item.box .block none)).subtree? 1 =
      some (.node (Box.Item.box .block none) []) := rfl
  obtain ⟨_, _, hagree⟩ := media_agree (.single (Html.Item.ofTag "body"))
    (.single (Box.Item.box .block none)) paired_alone .nil rfl .nil rfl hbody hroot rfl
    usesOnly_titleConfig hes hes'
  obtain ⟨_, houtcomes, _, shown, boxes, hshown, hboxes, htext⟩ := hagree hended.1 hended'
  refine ⟨es, es', w, w', hacts, hacts', hes, hes', hended.1, hended', houtcomes, ?_⟩
  have hplain := hended.2
  rw [hshown, Option.any_some, Rose.put, Rose.all, Bool.and_eq_true] at hplain
  rw [hshown, hboxes, Option.map_some, Option.map_some, htext hplain.2]

end World

end Montage
