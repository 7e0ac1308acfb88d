import Montage.Proofs.Render.Roster
import Montage.Render.Schedule

/-!
All that can happen to a renderer: calls of a host, changes of nodes, and steps of tasks, in any order.
Main statement: what the schedule does is a history of steps.
-/

namespace Montage

open Json (Value)

variable {F α : Type} [Medium α]

/-- One thing that happens. A step is of any task that can step. -/
inductive Act (F α : Type) [Medium α] where
  | render (container : NodeId) (raw : RawConfig F) (data context : Value)
  | renderConfig (container : NodeId) (c : Config F) (data context : Value)
  | renderList (container : NodeId) (page : Page F)
  | click (node : NodeId)
  | discard (node : NodeId)
  | create (item : α)
  | plant (parent : NodeId) (rose : Rose α)
  | mark (node : NodeId) (m : Medium.Mark α)
  | popup (node : Option NodeId)
  | define (v : View F)
  | release (g : Gate)
  | note (tasks : List (Task F α))
  | step (id : TaskId)

namespace World

def withTree (w : World F α) (tree : Tree α) : World F α :=
  { w with scene := { w.scene with tree := tree } }

/-- The world after an act; none if a task cannot step or a view cannot be defined. -/
def act (w : World F α) (s : Setup F α) : Act F α → Option (World F α)
  | .render d raw data context => some (w.render s d raw data context).1
  | .renderConfig d c data context => some (w.renderConfig d c data context).1
  | .renderList d page => some (w.renderList s d page).1
  | .click n => some (w.click n).1
  | .discard n => some (w.discard n)
  | .create item => some (w.withTree (w.scene.tree.create item).1)
  | .plant d rose => some (w.withTree (w.scene.tree.plant d rose))
  | .mark n m => some (w.withTree (w.scene.tree.modify n (Medium.mark m)))
  | .popup n => some { w with scene := { w.scene with popup := n } }
  | .define v =>
    match w.registry.define v with
    | .ok r => some { w with registry := r }
    | .error _ => none
  | .release g => some (w.release g).1
  | .note ts => some (w.noteWaiting ts)
  | .step id => w.step s id

/-- Lets acts happen one after the other, each of them only if it may. -/
def play (s : Setup F α) (P : World F α → Act F α → Prop) [∀ w a, Decidable (P w a)] :
    World F α → List (Act F α) → Option (World F α)
  | w, [] => some w
  | w, a :: as => if P w a then (w.act s a).bind fun w => play s P w as else none

/-- The acts with the world before each, up to the first that cannot happen. -/
def events (s : Setup F α) : World F α → List (Act F α) → List (World F α × Act F α)
  | _, [] => []
  | w, a :: as =>
    (w, a) :: match w.act s a with
      | none => []
      | some w => events s w as

/-- A renderer that has not begun, with the nodes that are there already. -/
def start (registry : Registry F) (tree : Tree α) : World F α :=
  (World.empty registry).withTree tree

end World

namespace Act

/-- Nodes are put only under nodes that were made before. -/
def Known (bound : NodeId) : Act F α → Prop
  | .render d _ _ _ => d < bound
  | .renderConfig d _ _ _ => d < bound
  | .renderList d page => d < bound ∧ page.more.getD d < bound
  | .plant d _ => d < bound
  | _ => True

instance (bound : NodeId) (a : Act F α) : Decidable (a.Known bound) :=
  match a with
  | .render d _ _ _ => inferInstanceAs (Decidable (d < bound))
  | .renderConfig d _ _ _ => inferInstanceAs (Decidable (d < bound))
  | .renderList d page => inferInstanceAs (Decidable (d < bound ∧ page.more.getD d < bound))
  | .plant d _ => inferInstanceAs (Decidable (d < bound))
  | .click _ | .discard _ | .create _ | .mark _ _ | .popup _ | .define _ | .release _ | .note _
  | .step _ => inferInstanceAs (Decidable True)

/-- The nodes that an act puts others in, those apart that a run paints into. -/
def containers (w : World F α) : Act F α → List NodeId
  | .render d _ _ _ => [d]
  | .renderConfig d _ _ _ => [d]
  | .renderList d page => [d, page.more.getD d]
  | .plant d _ => [d]
  | .step id =>
    match (w.task? id).map Task.work with
    | some (.errands (.turn _ d page _ :: _)) => [d, page.more.getD d]
    | _ => []
  | _ => []

/-- The nodes that an act discards. -/
def discarded (w : World F α) : Act F α → List NodeId
  | .discard n => [n]
  | .step id =>
    match (w.task? id).map Task.work with
    | some (.errands (.turn wrapper _ _ _ :: _)) => [wrapper]
    | _ => []
  | _ => []

def marked : Act F α → List NodeId
  | .mark n _ => [n]
  | _ => []

/-- The nodes that an act works on, those apart that a run paints into. -/
def targets (w : World F α) (a : Act F α) : List NodeId :=
  a.containers w ++ a.discarded w ++ a.marked

/-- Nobody but its own run works on an output that is not in its place yet. -/
def SparesOutputs (w : World F α) (a : Act F α) : Prop :=
  ∀ n ∈ a.targets w, ∀ t ∈ w.tasks, t.work.output? ≠ some n

instance (w : World F α) (a : Act F α) : Decidable (a.SparesOutputs w) :=
  inferInstanceAs (Decidable (∀ n ∈ a.targets w, ∀ t ∈ w.tasks, t.work.output? ≠ some n))

end Act

/-- A host that asks nothing and whose functions paint by a table of scripts. -/
def Setup.scripted (scripts : F → List (Step F α)) : Setup F α where
  host := ⟨fun f _ => scripts f, fun _ _ _ => .now (.ok .null), fun _ _ _ _ => none, fun _ _ _ => []⟩
  engine := ⟨fun _ _ _ => .now (.ok .null), fun _ => .ok [], fun _ => true⟩
  settings := .default
  lookup _ := none

/-- The functions of a small host are named by numbers. -/
instance neZero_two : @NeZero Nat Zero.ofOfNat0 2 := ⟨Nat.succ_ne_zero 1⟩

instance neZero_three : @NeZero Nat Zero.ofOfNat0 3 := ⟨Nat.succ_ne_zero 2⟩

/-- What happened, with the world before each act; `P` holds of all acts. -/
inductive History (s : Setup F α) (P : World F α → Act F α → Prop) (u : World F α) :
    List (World F α × Act F α) → World F α → Prop
  | nil : History s P u [] u
  | snoc {es : List (World F α × Act F α)} {v w : World F α} {a : Act F α}
      (past : History s P u es v) (ok : P v a) (next : v.act s a = some w) :
      History s P u (es ++ [(v, a)]) w

/-- What happens one after the other, with what there was before each. -/
theorem exists_trace {W E : Type} {next : W → E → Option W} {R : List (W × E) → W → Prop}
    (hnext : ∀ {es v e w}, R es v → next v e = some w → R (es ++ [(v, e)]) w) {u w : W} {hs : List E}
    (hu : R [] u) (h : hs.foldlM next u = some w) : ∃ es, es.map Prod.snd = hs ∧ R es w := by
  have htrace : ∀ {es v}, R es v → hs.foldlM next v = some w →
      ∃ es', es'.map Prod.snd = es.map Prod.snd ++ hs ∧ R es' w := by
    clear h
    induction hs with
    | nil =>
      intro es v hes h
      cases h
      exact ⟨es, by simp, hes⟩
    | cons e hs ih =>
      intro es v hes h
      rw [List.foldlM_cons] at h
      obtain ⟨v', hv, h⟩ := Option.bind_eq_some_iff.mp h
      obtain ⟨es', hmap, hes'⟩ := ih (hnext hes hv) h
      exact ⟨es', by simp [hmap], hes'⟩
  obtain ⟨es, hmap, hes⟩ := htrace hu h
  exact ⟨es, by simpa using hmap, hes⟩

namespace History

variable {s : Setup F α} {P : World F α → Act F α → Prop} {u v w : World F α}
  {es es' : List (World F α × Act F α)}

theorem append (h : History s P u es v) (h' : History s P v es' w) :
    History s P u (es ++ es') w := by
  induction h' with
  | nil => simpa using h
  | snoc _ ok next ih =>
    rw [← List.append_assoc]
    exact .snoc ih ok next

/-- A property that every act keeps holds at the end. -/
theorem invariant {I : World F α → Prop} (h : History s P u es w) (hu : I u)
    (hstep : ∀ v a v', I v → P v a → v.act s a = some v' → I v') : I w := by
  induction h with
  | nil => exact hu
  | snoc _ ok next ih => exact hstep _ _ _ ih ok next

/-- A property of worlds and of what came before them that every act keeps holds at the end. -/
theorem invariant_past {I : List (World F α × Act F α) → World F α → Prop}
    (h : History s P u es w) (hu : I [] u)
    (hstep : ∀ es v a v', I es v → P v a → v.act s a = some v' → I (es ++ [(v, a)]) v') :
    I es w := by
  induction h with
  | nil => exact hu
  | snoc _ ok next ih => exact hstep _ _ _ _ ih ok next

/-- A history with stricter acts is a history. -/
theorem imp {Q : World F α → Act F α → Prop} (h : History s P u es w)
    (hPQ : ∀ v a, P v a → Q v a) : History s Q u es w := by
  induction h with
  | nil => exact .nil
  | snoc past ok next ih => exact ih.snoc (hPQ _ _ ok) next

/-- What holds of all acts holds of each. -/
theorem all (h : History s P u es w) : ∀ e ∈ es, P e.1 e.2 := by
  induction h with
  | nil => exact fun e he => nomatch he
  | snoc past ok next ih =>
    intro e he
    rcases List.mem_append.mp he with he | he
    · exact ih e he
    · rw [List.mem_singleton.mp he]
      exact ok

/-- What came before an act of a history is a history. -/
theorem before {e : World F α × Act F α} (h : History s P u es w) (he : e ∈ es) :
    ∃ es', History s P u es' e.1 := by
  induction h with
  | nil => cases he
  | @snoc es v w a past ok next ih =>
    rcases List.mem_append.mp he with he | he
    · exact ih he
    · exact ⟨es, List.mem_singleton.mp he ▸ past⟩

/-- The acts tell the worlds between them. -/
theorem events_eq (h : History s P u es w) : World.events s u (es.map Prod.snd) = es := by
  have hrest : ∀ as, World.events s u (es.map Prod.snd ++ as) = es ++ World.events s w as := by
    induction h with
    | nil => intro as; rfl
    | snoc past ok next ih =>
      intro as
      rw [List.map_append, List.append_assoc, ih, List.append_assoc]
      simp [World.events, next]
  simpa [World.events] using hrest []

theorem play_eq_foldlM [∀ w a, Decidable (P w a)] (as : List (Act F α)) :
    World.play s P u as = as.foldlM (fun w a => if P w a then w.act s a else none) u := by
  induction as generalizing u with
  | nil => rfl
  | cons a as ih =>
    rw [World.play, List.foldlM_cons]
    split
    · exact Option.bind_congr fun v _ => ih
    · rfl

/-- What is played is a history. -/
theorem of_play [∀ w a, Decidable (P w a)] {as : List (Act F α)}
    (h : World.play s P u as = some w) : ∃ es, es.map Prod.snd = as ∧ History s P u es w := by
  rw [play_eq_foldlM] at h
  refine exists_trace (R := History s P u) (fun hes hnext => ?_) .nil h
  obtain ⟨ok, hnext⟩ := Option.ite_none_right_eq_some.mp hnext
  exact hes.snoc ok hnext

theorem one {a : Act F α} (ok : P u a) (next : u.act s a = some w) : History s P u [(u, a)] w :=
  .snoc .nil ok next

/-- Running a call is a history of steps. -/
theorem of_runCall (hstep : ∀ v id, P v (.step id)) (fuel : Nat) (call : TaskId) (w : World F α) :
    ∃ es, History s P w es (World.runCall s call fuel w) := by
  induction fuel generalizing w with
  | zero => exact ⟨[], .nil⟩
  | succ fuel ih =>
    unfold World.runCall
    split
    · exact ⟨[], .nil⟩
    · rename_i v hv
      obtain ⟨t, _, ht⟩ := List.exists_of_findSome?_eq_some hv
      split at ht
      · obtain ⟨es, hes⟩ := ih v
        exact ⟨_, (one (hstep w t.id) ht).append hes⟩
      · cases ht

/-- The schedule only chooses among the acts. -/
theorem of_runCalls (hstep : ∀ v id, P v (.step id)) (hnote : ∀ v ts, P v (.note ts)) (fuel : Nat)
    (calls : List TaskId) (w : World F α) :
    ∃ es, History s P w es (World.runCalls s fuel w calls) := by
  induction calls generalizing w with
  | nil => exact ⟨[], .nil⟩
  | cons call calls ih =>
    obtain ⟨es, hes⟩ := of_runCall hstep fuel call w
    obtain ⟨es', hes'⟩ := ih ((World.runCall s call fuel w).noteWaiting
      ((World.runCall s call fuel w).tasks.filter (·.call == call)))
    exact ⟨_, (hes.append (one (hnote _ _) rfl)).append hes'⟩

end History

end Montage
