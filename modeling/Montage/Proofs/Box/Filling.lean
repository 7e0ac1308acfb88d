import Mathlib
import Montage.Box.Border

/-!
Edges drawn by repeating a pattern. Main statement: the repetition ends just if the pattern has no width,
there is nothing to fill, or some character of the pattern takes a column; and what it draws takes as many
columns as there are to fill, each character by itself. A pattern of control characters has a width as a text
though none of them takes a column, and its repetition does not end.
-/

namespace Montage.Box

open Text (width)

namespace Filling

variable {pattern : List Char} {total : Nat} {s s' : Filling} {out : List Char}

/-- The drawing goes on from a state until it ends with an edge. -/
inductive Ends (pattern : List Char) (total : Nat) : Filling → List Char → Prop
  | now {s : Filling} {out : List Char} (h : s.step pattern total = .inr out) : Ends pattern total s out
  | later {s s' : Filling} {out : List Char} (h : s.step pattern total = .inl s')
      (hs : Ends pattern total s' out) : Ends pattern total s out

/-- A drawing that ends is what the repetition gives. -/
theorem Ends.repeated (h : Ends pattern total s out) :
    Id.run (repeatM (fun s : Filling => pure (s.step pattern total)) s) = out := by
  induction h with
  | now h =>
    rw [repeatM_eq_of_monadTail]
    simp [h]
  | later h _ ih =>
    rw [repeatM_eq_of_monadTail]
    simpa [h] using ih

/-- What every step keeps, or turns into a property of the edge, gives that property in the end. -/
theorem Ends.kept {P : Filling → Prop} {Q : List Char → Prop} (h : Ends pattern total s out)
    (hstep : ∀ s, P s → (∃ s', s.step pattern total = .inl s' ∧ P s') ∨
      ∃ out, s.step pattern total = .inr out ∧ Q out)
    (hs : P s) : Q out := by
  induction h with
  | now h =>
    rcases hstep _ hs with ⟨s', hs', -⟩ | ⟨out', hout, hQ⟩
    · rw [h] at hs'
      cases hs'
    · rw [h] at hout
      cases hout
      exact hQ
  | later h _ ih =>
    rcases hstep _ hs with ⟨s', hs', hP⟩ | ⟨out', hout, -⟩
    · rw [h] at hs'
      cases hs'
      exact ih hP
    · rw [h] at hout
      cases hout

/-! What a step does. -/

theorem step_nil (drawn : List Char) (filled : Nat) :
    step pattern total ⟨[], drawn, filled⟩ = .inl ⟨pattern, drawn, filled⟩ := rfl

theorem step_cons (pattern : List Char) (total : Nat) (c : Char) (rest drawn : List Char) (filled : Nat) :
    total < filled + cells c ∧ step pattern total ⟨c :: rest, drawn, filled⟩ =
        .inr (drawn.reverse ++ spaces (total - filled)) ∨
      filled + cells c = total ∧ step pattern total ⟨c :: rest, drawn, filled⟩ = .inr (c :: drawn).reverse ∨
      filled + cells c < total ∧ step pattern total ⟨c :: rest, drawn, filled⟩ =
        .inl ⟨rest, c :: drawn, filled + cells c⟩ := by
  rcases Nat.lt_trichotomy total (filled + cells c) with hover | hfull | hopen
  · exact .inl ⟨hover, by simp [step, hover]⟩
  · exact .inr (.inl ⟨hfull.symm, by simp [step, hfull]⟩)
  · have hnot : ¬ total < filled + cells c := Nat.lt_asymm hopen
    exact .inr (.inr ⟨hopen, by simp [step, hnot, Nat.ne_of_lt hopen]⟩)

/-! Where a character takes a column, the repetition ends. -/

/-- One round over `rest` ends if it takes a column, or if what comes after it ends; the drawing is taken to
end once more columns are filled. -/
theorem ends_of_round {rest : List Char} {filled : Nat}
    (hlater : ∀ filled', filled < filled' → filled' ≤ total →
      ∀ rest drawn, ∃ out, Ends pattern total ⟨rest, drawn, filled'⟩ out)
    (hround : (∃ c ∈ rest, 0 < cells c) ∨ ∀ drawn, ∃ out, Ends pattern total ⟨[], drawn, filled⟩ out)
    (drawn : List Char) : ∃ out, Ends pattern total ⟨rest, drawn, filled⟩ out := by
  induction rest generalizing drawn with
  | nil => exact hround.resolve_left (by simp) drawn
  | cons c rest ih =>
    rcases step_cons pattern total c rest drawn filled with ⟨-, h⟩ | ⟨-, h⟩ | ⟨hopen, h⟩
    · exact ⟨_, .now h⟩
    · exact ⟨_, .now h⟩
    · rcases Nat.eq_zero_or_pos (cells c) with hzero | hpos
      · rw [hzero, Nat.add_zero] at h
        obtain ⟨out, hout⟩ := ih (by simpa [hzero] using hround) (c :: drawn)
        exact ⟨out, .later h hout⟩
      · obtain ⟨out, hout⟩ := hlater (filled + cells c) (by omega) (by omega) rest (c :: drawn)
        exact ⟨out, .later h hout⟩

/-- With a character that takes a column, every round fills at least one more. -/
theorem ends_of_cells {filled : Nat} (hpattern : ∃ c ∈ pattern, 0 < cells c) (hfilled : filled ≤ total)
    (rest drawn : List Char) : ∃ out, Ends pattern total ⟨rest, drawn, filled⟩ out := by
  induction hleft : total - filled using Nat.strongRecOn generalizing filled rest drawn with
  | ind left ih =>
    have hlater : ∀ filled', filled < filled' → filled' ≤ total →
        ∀ rest drawn, ∃ out, Ends pattern total ⟨rest, drawn, filled'⟩ out :=
      fun filled' hlt hle rest drawn => ih (total - filled') (by omega) hle rest drawn rfl
    apply ends_of_round hlater
    right
    intro drawn
    obtain ⟨out, hout⟩ := ends_of_round hlater (.inl hpattern) drawn
    exact ⟨out, .later (step_nil drawn filled) hout⟩

/-! Without one, no step fills any. -/

/-- Columns are left to fill, and nothing that comes next takes one. -/
structure Idle (total : Nat) (s : Filling) : Prop where
  room : s.filled < total
  rest : ∀ c ∈ s.rest, cells c = 0

theorem Idle.step (h : s.Idle total) (hpattern : ∀ c ∈ pattern, cells c = 0) :
    ∃ s', s.step pattern total = .inl s' ∧ s'.Idle total := by
  obtain ⟨rest, drawn, filled⟩ := s
  obtain ⟨hroom, hrest⟩ := h
  cases rest with
  | nil => exact ⟨_, step_nil drawn filled, hroom, hpattern⟩
  | cons c rest =>
    obtain ⟨hc, hrest⟩ := List.forall_mem_cons.mp hrest
    simp only at hroom
    rcases step_cons pattern total c rest drawn filled with ⟨hover, -⟩ | ⟨hfull, -⟩ | ⟨hopen, h⟩
    · omega
    · omega
    · exact ⟨_, h, hopen, hrest⟩

theorem Idle.not_ends (h : s.Idle total) (hpattern : ∀ c ∈ pattern, cells c = 0) :
    ¬ Ends pattern total s out := by
  intro hends
  induction hends with
  | now hstep =>
    obtain ⟨s', hs', -⟩ := h.step hpattern
    rw [hstep] at hs'
    cases hs'
  | later hstep _ ih =>
    obtain ⟨s', hs', hidle⟩ := h.step hpattern
    rw [hstep] at hs'
    cases hs'
    exact ih hidle

/-! What is drawn fills as many columns as are counted. -/

/-- The columns are those of what is drawn, and not too many. -/
structure Counted (total : Nat) (s : Filling) : Prop where
  drawn : (s.drawn.map cells).sum = s.filled
  filled : s.filled ≤ total

theorem sum_cells_spaces (n : Nat) : ((spaces n).map cells).sum = n := by
  have hspace : cells ' ' = 1 := by decide
  simp [spaces, hspace]

/-- A step keeps the count, or ends with an edge that fills all columns. -/
theorem Counted.step (h : s.Counted total) (pattern : List Char) :
    (∃ s', s.step pattern total = .inl s' ∧ s'.Counted total) ∨
      ∃ out, s.step pattern total = .inr out ∧ (out.map cells).sum = total := by
  obtain ⟨rest, drawn, filled⟩ := s
  obtain ⟨hdrawn, hfilled⟩ := h
  simp only at hdrawn hfilled
  cases rest with
  | nil => exact .inl ⟨_, step_nil drawn filled, hdrawn, hfilled⟩
  | cons c rest =>
    rcases step_cons pattern total c rest drawn filled with ⟨hover, h⟩ | ⟨hfull, h⟩ | ⟨hopen, h⟩
    · refine .inr ⟨_, h, ?_⟩
      rw [List.map_append, List.sum_append, sum_cells_spaces, List.map_reverse, List.sum_reverse]
      omega
    · refine .inr ⟨_, h, ?_⟩
      rw [List.map_reverse, List.sum_reverse, List.map_cons, List.sum_cons]
      omega
    · have hcounted : ((c :: drawn).map cells).sum = filled + cells c := by
        rw [List.map_cons, List.sum_cons]
        omega
      exact .inl ⟨_, h, hcounted, Nat.le_of_lt hopen⟩

theorem Counted.ends (h : s.Counted total) (hends : Ends pattern total s out) :
    (out.map cells).sum = total :=
  hends.kept (fun _ h => h.step pattern) h

end Filling

/-- Filling so many columns with a pattern ends, with this edge. -/
def FillEnds (pattern : List Char) (total : Nat) (out : List Char) : Prop :=
  if width pattern = 0 then out = [] else Filling.Ends pattern total ⟨pattern, [], 0⟩ out

/-- Repeating a pattern of some width ends just if it has no column to fill or a character that takes one,
and then fills all columns. -/
theorem fill_ends_iff (pattern : List Char) (total : Nat) :
    ((∃ out, FillEnds pattern total out) ↔
      width pattern = 0 ∨ total = 0 ∨ ∃ c ∈ pattern, 0 < cells c) ∧
    ∀ out, FillEnds pattern total out → fillColumns pattern total = out ∧
      (width pattern = 0 ∨ (out.map cells).sum = total) := by
  by_cases hwidth : width pattern = 0
  · simp [FillEnds, fillColumns, hwidth]
  have hends : ∀ out, FillEnds pattern total out ↔ Filling.Ends pattern total ⟨pattern, [], 0⟩ out := by
    simp [FillEnds, hwidth]
  have hrun : fillColumns pattern total =
      Id.run (repeatM (fun s : Filling => pure (s.step pattern total)) ⟨pattern, [], 0⟩) := by
    simp [fillColumns, hwidth]
  simp only [hends, hrun, hwidth, false_or]
  refine ⟨⟨fun ⟨out, hout⟩ => ?_, ?_⟩, fun out hout => ⟨hout.repeated, ?_⟩⟩
  · rcases Nat.eq_zero_or_pos total with htotal | htotal
    · exact .inl htotal
    · right
      by_contra hnone
      have hzero : ∀ c ∈ pattern, cells c = 0 := fun c hc =>
        Nat.eq_zero_of_not_pos fun hpos => hnone ⟨c, hc, hpos⟩
      exact Filling.Idle.not_ends ⟨htotal, hzero⟩ hzero hout
  · rintro (rfl | hpattern)
    · cases pattern with
      | nil => exact absurd rfl hwidth
      | cons c pattern =>
        rcases Filling.step_cons (c :: pattern) 0 c pattern [] 0 with ⟨-, h⟩ | ⟨-, h⟩ | ⟨hopen, -⟩
        · exact ⟨_, .now h⟩
        · exact ⟨_, .now h⟩
        · exact absurd hopen (Nat.not_lt_zero _)
    · exact Filling.ends_of_cells hpattern (Nat.zero_le _) _ _
  · exact Filling.Counted.ends ⟨rfl, Nat.zero_le _⟩ hout

/-- A tab has a width and takes no column: the edge above a single column is never drawn. -/
theorem fill_of_tab_never_ends : ¬ ∃ out, FillEnds ['\t'] 1 out := by
  have hwidth : width ['\t'] = 1 := by decide
  have hcells : cells '\t' = 0 := by decide
  exact (fill_ends_iff ['\t'] 1).1.not.mpr (by simp [hwidth, hcells])

end Montage.Box
