import Mathlib.Data.List.Forall2
import Montage.Proofs.Render.Answering

/-!
Jobs in two media side by side, which take alike turns and never have to wait. Main statement: where a
call to render comes to an end in one medium, it does so in the other, in as many steps, with the same
outcomes, and with an output that is alike.
-/

namespace Montage

variable {F α β : Type} [Medium α] [Medium β]

/-- Two moves of jobs in two media that lead to related jobs and show related trees. -/
inductive Move.Alike (R : Job F α → Job F β → Prop) (A : List (Rose α) → List (Rose β) → Prop) :
    Move F α → Move F β → Prop
  | goes {next : List (Rose α) → Job F α} {next' : List (Rose β) → Job F β} {jobs : List (Job F α)}
      {jobs' : List (Job F β)} (below : List.Forall₂ R jobs jobs')
      (rest : ∀ shown shown', A shown shown' → R (next shown) (next' shown')) :
      Alike R A (.goes next jobs) (.goes next' jobs')
  | ends {outcome : Option Outcome} {shown : List (Rose α)} {shown' : List (Rose β)}
      (alike : A shown shown') : Alike R A (.ends outcome shown) (.ends outcome shown')

/-- Related jobs take related turns, whatever gates are open. -/
structure Simulation (s : Setup F α) (registry : Registry F) (s' : Setup F β) (registry' : Registry F)
    (R : Job F α → Job F β → Prop) (A : List (Rose α) → List (Rose β) → Prop) : Prop where
  nil : A [] []
  append : ∀ {f f' g g'}, A f f' → A g g' → A (f ++ g) (f' ++ g')
  turn : ∀ {job job'}, R job job' → ∃ m m', (∀ opened, job.turn s registry opened = some m) ∧
    (∀ opened, job'.turn s' registry' opened = some m') ∧ m.Alike R A m'

/-- A job is done as another is, which has ended in an epoch. -/
structure Done.Alike (s' : Setup F β) (registry' : Registry F) (c' : Clock) (k' : Nat)
    (A : List (Rose α) → List (Rose β) → Prop) (b : Done F α) (b' : Done F β) : Prop where
  ends : Ends s' registry' c' b'.job k' b'.yield b'.turns
  epoch : b'.yield.epoch = k'
  outcome : b'.yield.outcome = b.yield.outcome
  turns : b'.turns = b.turns
  shown : A b.yield.shown b'.yield.shown

/-- Jobs that are related to jobs that are done, each of which can be done likewise, are all done so. -/
theorem exists_done {R : Job F α → Job F β → Prop} {P : Done F α → Done F β → Prop}
    {below : List (Done F α)} {jobs' : List (Job F β)}
    (hR : List.Forall₂ R (below.map Done.job) jobs')
    (h : ∀ b ∈ below, ∀ job', R b.job job' → ∃ b', b'.job = job' ∧ P b b') :
    ∃ below', below'.map Done.job = jobs' ∧ List.Forall₂ P below below' := by
  induction below generalizing jobs' with
  | nil =>
    cases hR
    exact ⟨[], rfl, .nil⟩
  | cons b below ih =>
    cases hR with
    | cons hjob hrest =>
      obtain ⟨hb, hbelow⟩ := List.forall_mem_cons.mp h
      obtain ⟨b', rfl, hb'⟩ := hb _ hjob
      obtain ⟨below', rfl, hbelow'⟩ := ih hrest hbelow
      exact ⟨b' :: below', rfl, .cons hb' hbelow'⟩

/-- Jobs that all end in the epoch in which they begin are done by then. -/
theorem isGreatest_of_epochs {below : List (Done F α)} {k : Nat}
    (h : ∀ b ∈ below, b.yield.epoch = k) :
    IsGreatest {x | x = k ∨ ∃ b ∈ below, b.yield.epoch = x} k := by
  refine ⟨.inl rfl, ?_⟩
  rintro x (rfl | ⟨b, hb, rfl⟩)
  · exact Nat.le_refl x
  · exact Nat.le_of_eq (h b hb)

namespace Done.Alike

variable {s' : Setup F β} {registry' : Registry F} {c' : Clock} {k' : Nat}
  {A : List (Rose α) → List (Rose β) → Prop} {below : List (Done F α)} {below' : List (Done F β)}
  {b' : Done F β} (h : List.Forall₂ (Done.Alike s' registry' c' k' A) below below')
include h

theorem mem (hb : b' ∈ below') :
    Ends s' registry' c' b'.job k' b'.yield b'.turns ∧ b'.yield.epoch = k' := by
  induction h with
  | nil => cases hb
  | cons hfirst _ ih =>
    rcases List.mem_cons.mp hb with rfl | hb
    · exact ⟨hfirst.ends, hfirst.epoch⟩
    · exact ih hb

theorem turns_eq : below'.map Done.turns = below.map Done.turns := by
  induction h with
  | nil => rfl
  | cons hb _ ih => rw [List.map_cons, List.map_cons, hb.turns, ih]

theorem outcomes_eq : below'.map (·.yield.outcome) = below.map (·.yield.outcome) := by
  induction h with
  | nil => rfl
  | cons hb _ ih => rw [List.map_cons, List.map_cons, hb.outcome, ih]

end Done.Alike

namespace Simulation

variable {s : Setup F α} {registry : Registry F} {s' : Setup F β} {registry' : Registry F}
  {R : Job F α → Job F β → Prop} {A : List (Rose α) → List (Rose β) → Prop} {c c' : Clock}
  {k k' n : Nat} {y : Yield α} {job : Job F α} {job' : Job F β} {below : List (Done F α)}
  {below' : List (Done F β)} {jobs' : List (Job F β)}

/-- The two media may change places. -/
theorem symm (h : Simulation s registry s' registry' R A) :
    Simulation s' registry' s registry (flip R) (flip A) where
  nil := h.nil
  append := h.append
  turn hR := by
    obtain ⟨m, m', hm, hm', halike⟩ := h.turn hR
    refine ⟨m', m, hm', hm, ?_⟩
    cases halike with
    | goes below rest =>
      exact .goes (List.Forall₂.flip below) fun shown shown' hA => rest shown' shown hA
    | ends alike => exact .ends alike

variable (h : Simulation s registry s' registry' R A)
include h

/-- What alike jobs show one after the other is alike. -/
theorem flatMap (hall : List.Forall₂ (Done.Alike s' registry' c' k' A) below below') :
    A (below.flatMap (·.yield.shown)) (below'.flatMap (·.yield.shown)) := by
  induction hall with
  | nil => exact h.nil
  | cons hb _ ih => exact h.append hb.shown ih

/-- A related job ends as the first does, in as many turns; each ends in the epoch in which it began. -/
theorem ends (he : Ends s registry c job k y n) (hR : R job job') :
    y.epoch = k ∧ ∀ c' k', ∃ y', Done.Alike s' registry' c' k' A ⟨job, y, n⟩ ⟨job', y', n⟩ := by
  induction he generalizing job' with
  | ends turn =>
    obtain ⟨m, m', hm, hm', halike⟩ := h.turn hR
    obtain ⟨rfl, rfl⟩ := turn.always hm
    cases halike with
    | ends alike => exact ⟨rfl, fun c' k' => ⟨_, .ends (.of_always c' k' hm'), rfl, rfl, rfl, alike⟩⟩
  | @goes job k k₁ last n next y below turn done latest rest ihb ih =>
    obtain ⟨m, m', hm, hm', halike⟩ := h.turn hR
    obtain ⟨rfl, rfl⟩ := turn.always hm
    cases halike with
    | @goes _ next' _ jobs' hjobs hnext =>
      have hdone : ∀ c' k', ∃ below', below'.map Done.job = jobs' ∧ List.Forall₂ (fun b b' =>
          b.yield.epoch = k₁ ∧ Done.Alike s' registry' c' k' A b b') below below' := fun c' k' => by
        refine exists_done hjobs fun b hb job' hjob => ?_
        obtain ⟨hepoch, hall⟩ := ihb b hb hjob
        obtain ⟨y', hy'⟩ := hall c' k'
        exact ⟨⟨job', y', b.turns⟩, rfl, hepoch, hy'⟩
      have hlast : last = k₁ := by
        obtain ⟨_, _, hall⟩ := hdone c k₁
        exact latest.unique (isGreatest_of_epochs ((List.forall₂_and_left _ _).mp hall).1)
      subst hlast
      constructor
      · obtain ⟨below', _, hall⟩ := hdone c last
        exact (ih (hnext _ _ (h.flatMap ((List.forall₂_and_left _ _).mp hall).2))).1
      · intro c' k'
        obtain ⟨below', rfl, hall⟩ := hdone c' k'
        obtain ⟨_, hall⟩ := (List.forall₂_and_left _ _).mp hall
        obtain ⟨y', hy'⟩ := (ih (hnext _ _ (h.flatMap hall))).2 c' k'
        have hgoes : Ends s' registry' c' job' k' y' (1 + (below'.map Done.turns).sum + n) :=
          .goes below' (.of_always c' k' hm') (fun b hb => (Done.Alike.mem hall hb).1)
            (isGreatest_of_epochs fun b hb => (Done.Alike.mem hall hb).2) hy'.ends
        rw [Done.Alike.turns_eq hall] at hgoes
        exact ⟨y', hgoes, hy'.epoch, hy'.outcome, rfl, hy'.shown⟩

/-- Jobs that are related to jobs that are done can be done alike. -/
theorem done (hR : List.Forall₂ R (below.map Done.job) jobs')
    (hends : ∀ b ∈ below, Ends s registry c b.job k b.yield b.turns) (c' : Clock) (k' : Nat) :
    ∃ below', below'.map Done.job = jobs' ∧
      List.Forall₂ (Done.Alike s' registry' c' k' A) below below' := by
  refine exists_done hR fun b hb job' hjob => ?_
  obtain ⟨y', hy'⟩ := (h.ends (hends b hb) hjob).2 c' k'
  exact ⟨⟨job', y', b.turns⟩, rfl, hy'⟩

end Simulation

/-- Work that is begun is carried on, while no gate opens. -/
def Act.Continues (s : Setup F α) (w : World F α) (a : Act F α) : Prop :=
  a.Keeps s .free w ∧ ∀ g, a ≠ .release g

theorem Act.Continues.of_step {s : Setup F α} {w : World F α} {a : Act F α} (h : a.isStep = true) :
    a.Continues s w := by
  cases a with
  | step => exact ⟨trivial, nofun⟩
  | _ => cases h

theorem Act.Continues.keeps {s : Setup F α} {w : World F α} {a : Act F α} (h : a.Continues s w)
    (c : Clock) : a.Keeps s c w := by
  cases a with
  | step | note => trivial
  | release g => exact absurd rfl (h.2 g)
  | _ => exact h.1.elim

namespace World

open Json (Value)

variable [LawfulMedium α] [LawfulMedium β] {s : Setup F α} {s' : Setup F β}
  {R : Job F α → Job F β → Prop} {A : List (Rose α) → List (Rose β) → Prop} {w₀ w : World F α}
  {w₀' w' : World F β} {d d' : NodeId} {raw : RawConfig F} {data context : Value}
  {es : List (World F α × Act F α)} {es' : List (World F β × Act F β)}

/-- The configs of a call are rendered in two media, and their jobs are related by a simulation. If one
rendering has come to an end, the other takes no more steps and comes to an end as well; then they have
taken as many steps, with the same outcomes, and have put related trees into their containers. -/
theorem schedules_alike (hsim : Simulation s w₀.registry s' w₀'.registry R A)
    (hR : List.Forall₂ R (Job.ofRaw s w₀.registry ⟨data, context, none⟩ raw)
      (Job.ofRaw s' w₀'.registry ⟨data, context, none⟩ raw))
    (hw₀ : Orderly w₀) (hidle : w₀.tasks = []) (hd : d < w₀.scene.tree.next)
    (hw₀' : Orderly w₀') (hidle' : w₀'.tasks = []) (hd' : d' < w₀'.scene.tree.next)
    (h : History s (fun v a => a.Continues s v) (w₀.render s d raw data context).1 es w)
    (hended : w.tasks = [])
    (h' : History s' (fun v a => a.Continues s' v) (w₀'.render s' d' raw data context).1 es' w') :
    (steps es' ≤ steps es ∧ (w'.Stalled s' → w'.tasks = [])) ∧
      (w'.tasks = [] → steps es' = steps es ∧
        w'.outcomesOf (w₀'.render s' d' raw data context).2 =
          w.outcomesOf (w₀.render s d raw data context).2 ∧
        none ∉ w.outcomesOf (w₀.render s d raw data context).2 ∧
        ∃ shown shown', A shown shown' ∧
          w.scene.tree.subtree? d = (w₀.scene.tree.subtree? d).map (Rose.put shown) ∧
          w'.scene.tree.subtree? d' = (w₀'.scene.tree.subtree? d').map (Rose.put shown')) := by
  have hfits := Clock.fits_inTurn w₀.opened
  have hfits' := Clock.fits_inTurn w₀'.opened
  have hkeeps := h.imp fun _ _ ha => ha.keeps (.inTurn w₀.opened.reverse)
  obtain ⟨below, hjobs, hends⟩ := ends_of_schedule hw₀ hidle hd hfits hkeeps hended nofun
  obtain ⟨below', hjobs', hall⟩ := hsim.done (hjobs.symm ▸ hR) hends (.inTurn w₀'.opened.reverse)
    (Clock.epoch (.inTurn w₀'.opened.reverse) w₀'.opened)
  have hcomes := comesTo_of_ends hw₀ hidle hd hfits hjobs hends hkeeps
  have hcomes' := comesTo_of_ends hw₀' hidle' hd' hfits' hjobs'
    (fun b hb => (Done.Alike.mem hall hb).1) (h'.imp fun _ _ ha => ha.keeps _)
  have hturns := Done.Alike.turns_eq hall
  refine ⟨⟨?_, hcomes'.drained (Clock.last_inTurn _)⟩, fun hdone => ⟨?_, ?_, ?_, ?_⟩⟩
  · rw [hcomes.steps_eq hended, ← hturns]
    exact hcomes'.steps_le
  · rw [hcomes.steps_eq hended, hcomes'.steps_eq hdone, hturns]
  · rw [hcomes.outcomes hended, hcomes'.outcomes hdone, Done.Alike.outcomes_eq hall]
  · rw [hcomes.outcomes hended]
    exact outcomes_of_ends hjobs hends
  · exact ⟨_, _, hsim.flatMap hall, hcomes.output hended, hcomes'.output hdone⟩

end World

end Montage
