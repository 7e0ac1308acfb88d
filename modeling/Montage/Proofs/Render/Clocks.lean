import Montage.Proofs.Render.History

/-!
When gates open. Time is divided into epochs, and a clock says which gates may be open in each. Main
statements: what is looked at again and again until it may be had is had in one epoch only, with one
value, and an act that keeps to a clock leaves the epoch as it is or, when nothing can go on, begins the
next one.
-/

namespace Montage

variable {F α : Type} [Medium α]

/-- When gates open: whenever they like, or one after the other in an order, each when nothing else can
go on. -/
inductive Clock where
  | free
  | inTurn (order : List Gate)

namespace Clock

/-- The epoch in which these gates are open. All time is one epoch if gates open when they like. -/
def epoch (c : Clock) (opened : List Gate) : Nat :=
  match c with
  | free => 0
  | inTurn _ => opened.length

/-- Which gates may be open in an epoch. -/
def Allows (c : Clock) (k : Nat) (opened : List Gate) : Prop :=
  match c with
  | free => True
  | inTurn order => opened.reverse = order.take k

/-- These gates are open in their epoch. -/
def Fits (c : Clock) (opened : List Gate) : Prop :=
  c.Allows (c.epoch opened) opened

/-- No gate opens any more after these. -/
def Last (c : Clock) (opened : List Gate) : Prop :=
  ∀ {k opened'}, c.epoch opened ≤ k → c.Allows k opened' → opened' = opened

/-- Something that depends on the gates that are open is had, and is `v`, in epoch `k'`, if it is looked
at from epoch `k` on. -/
structure Gives {β : Type} (c : Clock) (look : List Gate → Option β) (k k' : Nat) (v : β) :
    Prop where
  le : k ≤ k'
  before : ∀ {j opened}, k ≤ j → j < k' → c.Allows j opened → look opened = none
  had : ∃ opened, c.Allows k' opened ∧ look opened = some v
  only : ∀ {opened v'}, c.Allows k' opened → look opened = some v' → v' = v

theorem exists_allowed (c : Clock) (k : Nat) : ∃ opened, c.Allows k opened := by
  cases c with
  | free => exact ⟨[], trivial⟩
  | inTurn order => exact ⟨(order.take k).reverse, List.reverse_reverse _⟩

variable {c : Clock} {β : Type} {look : List Gate → Option β} {opened : List Gate} {k k' k'' : Nat}
  {v v' : β}

namespace Gives

/-- A look in the epoch that one is in tells the same. -/
theorem here (h : c.Gives look k k' v) (ha : c.Allows k opened) (hv : look opened = some v') :
    k' = k ∧ v' = v := by
  rcases Nat.lt_or_eq_of_le h.le with hlt | rfl
  · rw [h.before (Nat.le_refl k) hlt ha] at hv
    cases hv
  · exact ⟨rfl, h.only ha hv⟩

/-- What may be had at all times is had at once. -/
theorem always (h : c.Gives look k k' v) (hv : ∀ opened, look opened = some v') : k' = k ∧ v' = v := by
  obtain ⟨opened, ha⟩ := c.exists_allowed k
  exact h.here ha (hv opened)

theorem unique (h : c.Gives look k k' v) (h' : c.Gives look k k'' v') : k' = k'' ∧ v = v' := by
  rcases Nat.lt_trichotomy k' k'' with hlt | rfl | hgt
  · obtain ⟨opened, ha, hv⟩ := h.had
    rw [h'.before h.le hlt ha] at hv
    cases hv
  · obtain ⟨opened, ha, hv⟩ := h.had
    exact ⟨rfl, h'.only ha hv⟩
  · obtain ⟨opened, ha, hv⟩ := h'.had
    rw [h.before h'.le hgt ha] at hv
    cases hv

/-- What does not come to be had otherwise in the same epoch. -/
theorem now (ha : c.Allows k opened) (hv : look opened = some v)
    (hone : ∀ {opened' v'}, c.Allows k opened' → look opened' = some v' → v' = v) :
    c.Gives look k k v where
  le := Nat.le_refl k
  before hle hlt := absurd hle (Nat.not_le.mpr hlt)
  had := ⟨opened, ha, hv⟩
  only := hone

/-- What may be had at all times is had in every epoch. -/
theorem of_always (c : Clock) (k : Nat) (hv : ∀ opened, look opened = some v) :
    c.Gives look k k v := by
  obtain ⟨opened, ha⟩ := c.exists_allowed k
  exact .now ha (hv opened) fun {opened' v'} _ hv' => Option.some.inj (hv'.symm.trans (hv opened'))

/-- An epoch in which nothing is to be had does not count. -/
theorem skip (h : c.Gives look (k + 1) k' v) (hnone : ∀ opened, c.Allows k opened → look opened = none) :
    c.Gives look k k' v where
  le := Nat.le_of_succ_le h.le
  before {j opened} hle hlt ha := by
    rcases Nat.lt_or_eq_of_le hle with hj | rfl
    · exact h.before hj hlt ha
    · exact hnone opened ha
  had := h.had
  only := h.only

theorem later (h : c.Gives look k k' v) (hnone : ∀ opened, c.Allows k opened → look opened = none) :
    c.Gives look (k + 1) k' v where
  le := by
    rcases Nat.lt_or_eq_of_le h.le with hlt | rfl
    · exact hlt
    · obtain ⟨opened, ha, hv⟩ := h.had
      rw [hnone opened ha] at hv
      cases hv
  before hle hlt := h.before (Nat.le_of_succ_le hle) hlt
  had := h.had
  only := h.only

end Gives

/-- An order that has come to its end. -/
theorem last_inTurn (opened : List Gate) : (inTurn opened.reverse).Last opened := by
  intro k opened' hle ha
  have hall : opened.reverse.take k = opened.reverse :=
    List.take_of_length_le (List.length_reverse.symm ▸ hle)
  exact List.reverse_inj.mp (ha.trans hall)

/-- No more gates open than are open already. -/
theorem fits_inTurn (opened : List Gate) : (inTurn opened.reverse).Fits opened := by
  simp [Fits, Allows, epoch]

/-- In an order, one set of gates is open in an epoch. -/
theorem allows_unique {order opened' : List Gate} (h : (inTurn order).Allows k opened)
    (h' : (inTurn order).Allows k opened') : opened' = opened :=
  List.reverse_inj.mp (h'.trans h.symm)

end Clock

/-- No task can step. -/
def World.Stalled (s : Setup F α) (w : World F α) : Prop :=
  ∀ t ∈ w.tasks, (w.step s t.id).isNone

instance (s : Setup F α) (w : World F α) : Decidable (w.Stalled s) :=
  inferInstanceAs (Decidable (∀ t ∈ w.tasks, (w.step s t.id).isNone))

/-- Renderings that were begun are carried on, and gates open, as a clock has it. -/
def Act.Keeps (s : Setup F α) (c : Clock) (w : World F α) : Act F α → Prop
  | .step _ | .note _ => True
  | .release g =>
    match c with
    | .free => True
    | .inTurn order => w.Stalled s ∧ (g :: w.opened).reverse <+: order
  | _ => False

instance (s : Setup F α) (c : Clock) (w : World F α) (a : Act F α) : Decidable (a.Keeps s c w) :=
  match a, c with
  | .step _, _ | .note _, _ | .release _, .free => inferInstanceAs (Decidable True)
  | .release g, .inTurn order =>
    inferInstanceAs (Decidable (w.Stalled s ∧ (g :: w.opened).reverse <+: order))
  | .render .., _ | .renderConfig .., _ | .renderList .., _ | .click _, _ | .discard _, _
  | .create _, _ | .plant .., _ | .mark .., _ | .popup _, _ | .define _, _ =>
    inferInstanceAs (Decidable False)

/-- What keeps to a clock puts no nodes anywhere. -/
theorem Act.Keeps.known {s : Setup F α} {c : Clock} {w : World F α} {a : Act F α}
    (h : a.Keeps s c w) (bound : NodeId) : a.Known bound := by
  cases a with
  | step | release | note => trivial
  | _ => exact h.elim

namespace Clock

variable {s : Setup F α} {c : Clock} {w : World F α} {g : Gate}

/-- A gate that opens leaves the epoch as it is, or it ends one in which all was told. -/
theorem epoch_of_release (h : (Act.release g).Keeps s c w) (hw : c.Fits w.opened) :
    c.Fits (w.release g).1.opened ∧
      (c.epoch (w.release g).1.opened = c.epoch w.opened ∨
        w.Stalled s ∧ c.epoch (w.release g).1.opened = c.epoch w.opened + 1 ∧
          ∀ opened, c.Allows (c.epoch w.opened) opened → opened = w.opened) := by
  cases c with
  | free => exact ⟨trivial, .inl rfl⟩
  | inTurn order =>
    obtain ⟨hstalled, hprefix⟩ := h
    refine ⟨?_, .inr ⟨hstalled, rfl, fun opened ha => allows_unique hw ha⟩⟩
    have htake := List.prefix_iff_eq_take.mp hprefix
    rw [List.length_reverse] at htake
    exact htake

end Clock

end Montage
