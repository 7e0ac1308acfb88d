import Mathlib.Data.List.Basic
import Montage.Proofs.Box.Bullets
import Montage.Proofs.Box.Ink
import Montage.Proofs.Box.Wrappers

/-!
Inline blocks between texts. Main statement: an inline block shows the rows that it has alone, the first
behind the text before it, the others as far to the right, and the text after it stands behind the last.
-/

namespace Montage.Box

open Text (width)

/-- Rows behind a text. The first goes on with its line, and the others begin where the first does. -/
def behind (p : List Char) : List (List Char) → List (List Char)
  | [] => [p]
  | first :: rest => (p ++ first) :: rest.map (spaces (width p) ++ ·)

mutual

theorem footed_of_unbordered (r : Rose Item) (h : Unbordered r) : Footed r := by
  match r with
  | .node (.text _) _ => trivial
  | .node (.reserved _) _ => trivial
  | .node (.box _ _) children =>
    exact ⟨fun _ hb => absurd (h.1.symm.trans hb) nofun, allFooted_of_unbordered children h.2⟩

/-- Without borders there are no rows below what stands in a box. -/
theorem allFooted_of_unbordered (rs : List (Rose Item)) (h : AllUnbordered rs) : AllFooted rs := by
  match rs with
  | [] => trivial
  | r :: rs => exact ⟨footed_of_unbordered r h.1, allFooted_of_unbordered rs h.2⟩

end

namespace Writer

variable {w : Writer} {q : List Char} {rows : List (List Char)}

theorem flush_of_none (h : w.pending = .none) : w.flush = w := by
  obtain ⟨above, current, pending⟩ := w
  subst h
  rfl

/-- A rectangle begins behind what stands on the current line. -/
theorem lines_place (h : w.pending = .none) (rows : List (List Char)) :
    (w.place rows).current :: (w.place rows).above = (behind w.current rows).reverse ++ w.above ∧
      (w.place rows).pending = .none := by
  cases rows with
  | nil => exact ⟨rfl, h⟩
  | cons first rest =>
    have hplace : w.place (first :: rest) =
        (rest.map (spaces (width w.current) ++ ·)).foldl newLine (w.push first) := by
      rw [Writer.place, flush_of_none h, List.foldl_map]
    rw [hplace]
    constructor
    · rw [lines_foldl_newLine, behind, List.reverse_cons, List.append_assoc]
      rfl
    · rw [pending_foldl_newLine]
      exact h

/-- A text that is not empty goes to the end of the last line, and is there at the end. -/
theorem finish_text_behind (hrows : w.current :: w.above = rows.reverse) (h : w.pending = .none)
    (hline : '\n' ∉ q) (hq : q ≠ []) : (w.text q).finish = rows.modifyLast (· ++ q) := by
  have hlast : rows = w.above.reverse ++ [w.current] := by
    rw [← List.reverse_reverse rows, ← hrows, List.reverse_cons]
  rw [text_eq hline, flush_of_none h, hlast, List.modifyLast_concat]
  simp [finish, push, hq]

end Writer

variable {children : List (Rose Item)}

/-- What is left of an inline block without border is an inline block with the same rows. -/
theorem emit_inlineBlock (hfoot : AllFooted children) (w : Writer) :
    emitAll w (clean (.node (.box .inlineBlock none) children)).toList =
      w.place (lines (.node (.box .inlineBlock none) children)) := by
  have hdraw := redraws_cleanAll children hfoot
  rw [lines, clean]
  cases hkids : cleanAll children with
  | nil => rfl
  | cons l ls =>
    rw [hkids] at hdraw
    have hrows := finish_place_start (trimmed_finish (emitAll .start (l :: ls)))
    simp only [Option.toList_some, emitAll]
    rw [emit_wrap_of_trimmed hdraw.trimmed, emit_wrap_of_trimmed hdraw.trimmed]
    simp only [emit, bordered]
    rw [hrows]

/-- Between two texts in a line or an inline box stands an inline block with the rows that it has alone: the
first of them goes on with the line of the first text, the others begin where it does, and the second text
goes to the end of the last. No border in it may draw an empty row at the bottom, and none does where there are
none (`allFooted_of_unbordered`). -/
theorem inlineBlock_keeps_column {kind : Kind} {p q : String} (hkind : kind = .line ∨ kind = .inline)
    (hp : p ≠ "") (hq : q ≠ "") (hpline : '\n' ∉ p.toList) (hqline : '\n' ∉ q.toList)
    (hfoot : AllFooted children) :
    lines (.node (.box kind none) [leaf p, .node (.box .inlineBlock none) children, leaf q]) =
      (behind p.toList (lines (.node (.box .inlineBlock none) children))).modifyLast (· ++ q.toList) := by
  have htext : ∀ {s : String}, s ≠ "" → (clean (leaf s)).toList = [.text s.toList] := by
    intro s hs
    rw [leaf, clean, if_neg (by simpa using hs)]
    rfl
  have hopen : kind ≠ .inlineBlock := by
    rcases hkind with rfl | rfl <;> simp
  rw [lines_box hopen, cleanAll_cons, cleanAll_cons, cleanAll_cons, htext hp, htext hq, emitAll_append,
    emitAll_append, emit_inlineBlock hfoot]
  have hstart : Writer.start.text p.toList = ⟨[], p.toList, .none⟩ := by
    rw [Writer.text_eq hpline]
    rfl
  obtain ⟨hrows, hpending⟩ := Writer.lines_place (w := ⟨[], p.toList, .none⟩) rfl
    (lines (.node (.box .inlineBlock none) children))
  have hfinish := Writer.finish_text_behind (hrows.trans (List.append_nil _)) hpending hqline
    (by simpa using hq)
  simpa only [cleanAll, List.append_nil, emitAll, emit, hstart] using hfinish

/-- Two blocks of text with a wide character between them, in an inline block in an inline block that also
holds a place and a line. -/
def stackedTrees : List (Rose Item) := [
  .node (.box .inlineBlock none) [
    .node (.box .block none) [leaf "a\n"],
    .node (.reserved false) [],
    .node (.box .line none) [leaf "漢", .node (.box .inlineBlock none) [leaf "b\nc"]]]]

theorem inlineBlock_keeps_column_of_stacked :
    AllFooted stackedTrees ∧
      lines (.node (.box .line none) [leaf "漢: ", .node (.box .inlineBlock none) stackedTrees, leaf "!"]) =
        (behind "漢: ".toList (lines (.node (.box .inlineBlock none) stackedTrees))).modifyLast
          (· ++ "!".toList) ∧
      lines (.node (.box .line none) [leaf "漢: ", .node (.box .inlineBlock none) stackedTrees, leaf "!"]) =
        ["漢: a", "    ", "    漢b", "      c!"].map String.toList := by
  have h : AllFooted stackedTrees := by
    refine allFooted_of_unbordered _ ?_
    simp [stackedTrees, leaf, AllUnbordered, Unbordered]
  exact ⟨h, inlineBlock_keeps_column (.inl rfl) (by decide) (by decide) (by decide) (by decide) h,
    by decide +kernel⟩

end Montage.Box
