import Mathlib.Data.List.Basic
import Mathlib.Data.List.Permutation
import Montage.Html.Medium
import Montage.Proofs.Render.Answering
import Montage.Proofs.Render.Pending

/-!
Schedules of a call to render. Gates open when they like, and any task that can go on may be the next.
Main statement: if one schedule comes to an end, all do, after the same number of steps, with the same
outcomes and the same output, and no place is pending then.
-/

namespace Montage.World

open Json (Value)

variable {F α : Type} [Medium α] [LawfulMedium α] {s : Setup F α} {tree : Tree α}
  {registry : Registry F} {w₀ w w' : World F α} {es₀ es es' : List (World F α × Act F α)} {d : NodeId}
  {raw : RawConfig F} {data context : Value}

/-- Configs are rendered into a node, by a host that waits for all that it renders. One schedule comes to
an end, and on its way no config has more than one prop that fails. Then any other schedule takes no more
steps, and it comes to an end too unless a task stands before a closed gate; and at its end it has taken
as many steps, every config has an outcome, the same as in the first schedule, the node shows the same
tree, the call is done, and no place is pending. -/
theorem schedules_agree (htree : tree.Linked) (hhost : s.Awaits)
    (h₀ : History s (fun v a => a.IsProper v) (start registry tree) es₀ w₀) (hidle : w₀.tasks = [])
    (hd : d < w₀.scene.tree.next)
    (h : History s (fun v a => a.Keeps s .free v ∧ ∀ t ∈ v.tasks, t.work.OneFails)
      (w₀.render s d raw data context).1 es w) (hended : w.tasks = [])
    (h' : History s (Act.Keeps s .free) (w₀.render s d raw data context).1 es' w') :
    steps es' ≤ steps es ∧
      (w'.Stalled s → (∀ t ∈ w'.tasks, w'.blockedOn t = []) → w'.tasks = []) ∧
      (w'.tasks = [] → steps es' = steps es ∧
        w'.outcomesOf (w₀.render s d raw data context).2 =
          w.outcomesOf (w₀.render s d raw data context).2 ∧
        none ∉ w'.outcomesOf (w₀.render s d raw data context).2 ∧
        w'.scene.tree.subtree? d = w.scene.tree.subtree? d ∧
        (w₀.render s d raw data context).2.call ∈ w'.finished ∧ w'.scene.pendingPlaces = 0) := by
  have hw₀ : Orderly w₀ := Orderly.history h₀ (.start registry htree) fun _ _ hp => hp
  have hfits : Clock.free.Fits w₀.opened := trivial
  have hkeeps := h.imp fun _ _ hp => hp.1
  obtain ⟨below, hjobs, hends⟩ := ends_of_schedule hw₀ hidle hd hfits hkeeps hended
    fun _ e he => (h.all e he).2
  have hfirst := comesTo_of_ends hw₀ hidle hd hfits hjobs hends hkeeps
  have hother := comesTo_of_ends hw₀ hidle hd hfits hjobs hends h'
  refine ⟨?_, hother.ended, fun hdone => ⟨?_, ?_, ?_, ?_, hother.finished hdone, ?_⟩⟩
  · rw [hfirst.steps_eq hended]
    exact hother.steps_le
  · rw [hfirst.steps_eq hended, hother.steps_eq hdone]
  · rw [hfirst.outcomes hended, hother.outcomes hdone]
  · rw [hother.outcomes hdone]
    exact outcomes_of_ends hjobs hends
  · rw [hfirst.output hended, hother.output hdone]
  · -- All that happened is a history with known handles.
    have hbefore := (h₀.imp fun _ _ hp => hp.1).append (.one (a := .render d raw data context) hd rfl)
    have hall := hbefore.append (h'.imp fun v _ hp => hp.known v.scene.tree.next)
    exact (Attended.history htree hhost hall).done hdone

/-- Functions that wait for a gate and render a config, wait for another and paint a text, and paint a
text. -/
def gatedScripts : Fin 3 → List (Step (Fin 3) Html.Item)
  | 0 => [.wait "a", .render (.inline 2) .null .null none]
  | 1 => [.wait "b", .plant (Html.leaf (.text "two"))]
  | 2 => [.plant (Html.leaf (.text "one"))]

def gatedConfigs : RawConfig (Fin 3) := .list [.inline 0, .inline 1]

/-- One config after the other is rendered, as its gate opens. -/
def inTurnSteps : List (Act (Fin 3) Html.Item) :=
  [.release "a", .step 2, .step 2, .step 2, .step 2, .step 4, .step 4, .step 4, .step 4, .step 2,
    .release "b", .step 3, .step 3, .step 3, .step 3, .step 3, .step 1]

/-- The gates open the other way round, and the second config is done first. -/
def otherTurnSteps : List (Act (Fin 3) Html.Item) :=
  [.step 3, .step 2, .step 3, .step 2, .release "b", .step 3, .step 3, .release "a", .step 2, .step 3,
    .step 2, .step 4, .step 4, .step 4, .step 4, .step 2, .step 1]

/-- Two configs that wait for different gates, rendered in two schedules. -/
theorem schedules_agree_of_two :
    let s : Setup (Fin 3) Html.Item := .scripted gatedScripts
    let v := (start .empty (.single (Html.Item.ofTag "body"))).render s 1 gatedConfigs .null .null
    ∃ es es' w w', es.map Prod.snd = inTurnSteps ∧ es'.map Prod.snd = otherTurnSteps ∧
      History s (Act.Keeps s .free) v.1 es w ∧ History s (Act.Keeps s .free) v.1 es' w' ∧
      w.tasks = [] ∧ w'.tasks = [] ∧ w'.outcomesOf v.2 = w.outcomesOf v.2 ∧
      w'.scene.tree.subtree? 1 = w.scene.tree.subtree? 1 ∧ w'.scene.pendingPlaces = 0 := by
  intro s v
  have hplay : (play s (fun v a => a.Keeps s .free v ∧ ∀ t ∈ v.tasks, t.work.OneFails) v.1
      inTurnSteps).any (fun w => w.tasks.isEmpty) = true := by
    cbv
  have hplay' : (play s (Act.Keeps s .free) v.1 otherTurnSteps).any (fun w =>
      w.tasks.isEmpty) = true := by
    cbv
  obtain ⟨w, hw, hended⟩ := (Option.any_eq_true _ _).mp hplay
  obtain ⟨w', hw', hended'⟩ := (Option.any_eq_true _ _).mp hplay'
  rw [List.isEmpty_iff] at hended hended'
  obtain ⟨es, hacts, hes⟩ := History.of_play hw
  obtain ⟨es', hacts', hes'⟩ := History.of_play hw'
  have hscripts : ∀ f, ∀ step ∈ gatedScripts f, step.isStart = false := by decide
  obtain ⟨_, _, hagree⟩ := schedules_agree (.single _) (fun f _ => hscripts f) .nil rfl (by decide) hes hended hes'
  obtain ⟨_, houtcomes, _, houtput, _, hpending⟩ := hagree hended'
  exact ⟨es, es', w, w', hacts, hacts', hes.imp fun _ _ hp => hp.1, hes', hended, hended', houtcomes,
    houtput, hpending⟩

end Montage.World
