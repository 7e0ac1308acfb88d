import Montage.Proofs.Box.Rectangles
import Montage.Proofs.Box.Wrappers

/-!
Lines of a list. Main statement: a block of list items, with a line for the rest of the list after them, gives
the rows of the items, each item with a bullet beside its first row, and then that line. An item of which no
row is left gives nothing.
-/

namespace Montage.Box

open Json (Value)
open Text (width)

/-- The lines of a text, without empty ones at the end. -/
def textRows (s : List Char) : List (List Char) :=
  (Text.splitWhere (· == '\n') s).rdropWhile List.isEmpty

/-- The rows of an item with a bullet beside the first. -/
def bulleted (v : Value) : List (List Char) :=
  bulletBorder.apply (textRows v.display.toList)

/-- Tells how many items are left. -/
def moreLine (remaining : Nat) : List Char :=
  ("(" ++ toString remaining ++ " more…)").toList

/-- The lines of a list of which so many items are shown. -/
def listLines (limit : Option Nat) (items : List Value) : List (List Char) :=
  match limit with
  | none => items.flatMap bulleted
  | some n =>
    (items.take n).flatMap bulleted ++
      if n < items.length then [moreLine (items.length - n)] else []

/-! Rows with bullets. -/

theorem pad_of_width {s : List Char} {n : Nat} (h : width s = n) : pad s n = s := by
  rw [pad, h, Nat.sub_self]
  exact List.append_nil s

theorem maxWidth_of_width {lines : List (List Char)} {n : Nat} (hsome : lines ≠ [])
    (h : ∀ l ∈ lines, width l = n) : maxWidth lines = n := by
  obtain ⟨l, hl⟩ := List.exists_mem_of_ne_nil lines hsome
  have hwide : n ≤ maxWidth lines := h l hl ▸ width_le_maxWidth hl
  have hnarrow : ∀ w ≤ n, lines.foldl (fun w l => max w (width l)) w ≤ n := by
    clear hsome hl hwide
    induction lines with
    | nil => exact fun w hw => hw
    | cons l lines ih =>
      obtain ⟨hl, hlines⟩ := List.forall_mem_cons.mp h
      exact fun w hw => ih hlines _ (Nat.max_le.mpr ⟨hw, Nat.le_of_eq hl⟩)
  exact Nat.le_antisymm (hnarrow 0 (Nat.zero_le n)) hwide

/-- Pieces that are all as wide need no blanks. -/
theorem pad_piece {side : Option Side} {total n index : Nat} (h : ∀ i, width (pieceAt side i total) = n)
    (htotal : 0 < total) : pad (pieceAt side index total) (maxWidth (sidePieces side total)) =
      pieceAt side index total := by
  have hwidth : maxWidth (sidePieces side total) = n := by
    apply maxWidth_of_width
    · exact List.ne_nil_of_mem (pieceAt_mem htotal)
    · rw [sidePieces_eq, List.forall_mem_map]
      exact fun i _ => h i
  rw [hwidth, pad_of_width (h index)]

/-- A bullet stands beside the first row, and blanks beside the others; each row is padded to the widest. -/
theorem bulletBorder_apply (rows : List (List Char)) :
    bulletBorder.apply rows = rows.mapIdx fun i row =>
      (if i = 0 then ['-', ' '] else [' ', ' ']) ++ pad row (maxWidth rows) := by
  cases rows with
  | nil => rfl
  | cons first rest =>
    have hleft : ∀ i total, pieceAt bulletBorder.left i total =
        if i = 0 then ['-', ' '] else [' ', ' '] := fun _ _ => rfl
    have hwidth : ∀ i total, width (pieceAt bulletBorder.left i total) = 2 := by
      intro i total
      rw [hleft]
      split_ifs <;> decide
    have hright : ∀ i total, width (pieceAt bulletBorder.right i total) = 0 := fun _ _ => rfl
    have hrows : bulletBorder.apply (first :: rest) = [] ++ bulletBorder.rows (first :: rest) ++ [] :=
      apply_eq_rows (List.cons_ne_nil first rest) bulletBorder
    have hsome : 0 < (first :: rest).length := Nat.succ_pos _
    rw [hrows, List.append_nil, List.nil_append, Border.rows]
    refine congrArg (List.mapIdx · _) (funext fun i => funext fun row => ?_)
    rw [pad_piece (hwidth · _) hsome, pad_piece (hright · _) hsome, hleft]
    exact List.append_nil _

theorem ne_nil_of_bulleted {rows : List (List Char)} :
    ∀ row ∈ bulletBorder.apply rows, row ≠ [] := by
  intro row h
  rw [bulletBorder_apply] at h
  obtain ⟨i, _, rfl⟩ := List.mem_mapIdx.mp h
  split_ifs <;> simp

/-! What a writer holds between the items of a list. -/

namespace Writer

variable {w : Writer} {ls rows : List (List Char)} {s : List Char}

/-- A writer that begins, or that holds some lines, the last of them not empty, and begins a new line before
it goes on. -/
inductive Holds : Writer → List (List Char) → Prop
  | start : Holds .start []
  | lines (above : List (List Char)) {last : List Char} (ne : last ≠ []) :
      Holds ⟨above, last, .line⟩ (last :: above).reverse

theorem Holds.flush (h : w.Holds ls) : w.flush = ⟨ls.reverse, [], .none⟩ := by
  cases h with
  | start => rfl
  | lines above ne => simp [Writer.flush, newLine, ne]

theorem Holds.finish (h : w.Holds ls) : w.finish = ls := by
  cases h with
  | start => rfl
  | lines above ne => simp [Writer.finish, ne]

theorem pending_foldl_newLine (rows : List (List Char)) (w : Writer) :
    (rows.foldl newLine w).pending = w.pending := by
  induction rows generalizing w with
  | nil => rfl
  | cons row rows ih => exact ih _

/-- A line end is asked for behind lines of which the last is not empty. -/
theorem holds_of_written (hlines : w.current :: w.above = ls.reverse) (hlast : w.current ≠ [])
    (hpending : w.pending = .none) : (w.request .line).Holds ls := by
  obtain ⟨above, current, pending⟩ := w
  have hrequest : Writer.request ⟨above, current, .none⟩ .line = ⟨above, current, .line⟩ := by
    simp [Writer.request, hasContent, Break.rank, show current ≠ [] from hlast]
  have hls : ls = (current :: above).reverse := by
    rw [show current :: above = ls.reverse from hlines, List.reverse_reverse]
  have hpending : pending = .none := hpending
  rw [hpending, hrequest, hls]
  exact .lines above hlast

theorem Holds.request (h : w.Holds ls) : w.request .line = w := by
  cases h with
  | start => rfl
  | lines above ne => simp [Writer.request, Break.rank]

/-- A rectangle without empty rows stands below what is written. -/
theorem Holds.place (h : w.Holds ls) (hrows : ∀ row ∈ rows, row ≠ []) :
    ((w.place rows).request .line).Holds (ls ++ rows) := by
  cases rows with
  | nil =>
    rw [List.append_nil, Writer.place, h.request]
    exact h
  | cons first rest =>
    have hplace : w.place (first :: rest) = rest.foldl newLine ⟨ls.reverse, first, .none⟩ := by
      simp only [Writer.place, h.flush, push, List.nil_append]
      rfl
    have hlines := lines_foldl_newLine rest ⟨ls.reverse, first, .none⟩
    rw [← hplace] at hlines
    have hall : (w.place (first :: rest)).current :: (w.place (first :: rest)).above =
        (ls ++ first :: rest).reverse := by
      rw [hlines, List.reverse_append, List.reverse_cons, List.append_assoc]
      rfl
    -- The writer stands on the last of the rows.
    obtain ⟨last, before, hrev⟩ :=
      List.exists_cons_of_ne_nil (List.reverse_ne_nil_iff.mpr (List.cons_ne_nil first rest))
    have hlast : (w.place (first :: rest)).current = last := by
      rw [List.reverse_append, hrev, List.cons_append] at hall
      exact (List.cons.inj hall).1
    refine holds_of_written hall ?_ ?_
    · rw [hlast]
      exact hrows last (List.mem_reverse.mp (hrev ▸ List.mem_cons_self))
    · rw [hplace, pending_foldl_newLine]

/-- A text on one line stands below what is written. -/
theorem Holds.text (h : w.Holds ls) (hline : '\n' ∉ s) (hs : s ≠ []) :
    ((w.text s).request .line).Holds (ls ++ [s]) := by
  rw [text_eq hline, h.flush]
  exact holds_of_written (by simp [push]) hs rfl

/-- A text alone gives its rows. -/
theorem finish_text (s : List Char) : (start.text s).finish = textRows s := by
  rw [Writer.text, textRows, List.rdropWhile]
  cases hsplit : Text.splitWhere (· == '\n') s with
  | nil => exact absurd hsplit (Text.splitWhere_ne_nil _ s)
  | cons first rest =>
    have hlines := lines_foldl_newLine rest (start.flush.push first)
    rw [Writer.finish, hlines, List.reverse_cons]
    rfl

end Writer

/-! The tree of a list. -/

/-- What an item is painted as. -/
def itemTree (v : Value) : Rose Item :=
  .node (.box .line (some bulletBorder)) [.node (.box .inline none) [leaf v.display]]

/-- What stands for the items that are left. -/
def moreTree (remaining : Nat) : Rose Item :=
  .node (.box .line none) [leaf ("(" ++ toString remaining ++ " more…)")]

/-- Of an item without text nothing is left. -/
theorem clean_itemTree (v : Value) : clean (itemTree v) =
    if v.display.isEmpty then none else some (.box .line (some bulletBorder) [.text v.display.toList]) := by
  by_cases h : v.display.isEmpty = true <;> simp [itemTree, leaf, clean, cleanAll, Layout.wrap, h]

theorem bulleted_of_isEmpty {v : Value} (h : v.display.isEmpty = true) : bulleted v = [] := by
  have hempty : v.display = "" := by simpa using h
  rw [bulleted, hempty]
  rfl

/-- The marker stands on one line. -/
theorem newline_not_mem_moreLine (remaining : Nat) : '\n' ∉ moreLine remaining := by
  have hdigits : '\n' ∉ Nat.toDigits 10 remaining := fun h =>
    absurd (Nat.isDigit_of_mem_toDigits (by decide) (by decide) h) (by decide)
  have hline : moreLine remaining = '(' :: (Nat.toDigits 10 remaining ++ " more…)".toList) := by
    simp [moreLine, Nat.repr, ToString.toString]
  rw [hline]
  simp [hdigits]

namespace Writer

variable {w : Writer} {ls : List (List Char)}

theorem Holds.items (h : w.Holds ls) (items : List Value) :
    (emitAll w (cleanAll (items.map itemTree))).Holds (ls ++ items.flatMap bulleted) := by
  induction items generalizing w ls with
  | nil =>
    rw [List.flatMap_nil, List.append_nil]
    exact h
  | cons v items ih =>
    rw [List.map_cons, cleanAll_cons, emitAll_append, clean_itemTree, List.flatMap_cons, ← List.append_assoc]
    refine ih ?_
    split_ifs with hempty
    · rw [bulleted_of_isEmpty hempty, List.append_nil]
      exact h
    · have hemit : emit w (.box .line (some bulletBorder) [.text v.display.toList]) =
          (w.place (bulleted v)).request .line := by
        simp only [emit, emitAll, bordered, finish_text, bulleted]
      rw [Option.toList_some, emitAll, emitAll, hemit]
      exact h.place ne_nil_of_bulleted

theorem Holds.more (h : w.Holds ls) (remaining : Nat) :
    (emitAll w (cleanAll [moreTree remaining])).Holds (ls ++ [moreLine remaining]) := by
  have hclean : cleanAll [moreTree remaining] = [.box .line none [.text (moreLine remaining)]] := by
    simp [moreTree, leaf, cleanAll, clean, Layout.wrap, moreLine]
  have hsome : moreLine remaining ≠ [] := by simp [moreLine]
  rw [hclean, emitAll, emitAll, emit, emitAll, emitAll, emit]
  exact h.text (newline_not_mem_moreLine remaining) hsome

theorem finish_request (w : Writer) (b : Break) : (w.request b).finish = w.finish := by
  unfold Writer.request
  split_ifs <;> rfl

end Writer

/-- A box without border, if it is no inline block, gives the lines of its children. -/
theorem lines_box {kind : Kind} (h : kind ≠ .inlineBlock) (kids : List (Rose Item)) :
    lines (.node (.box kind none) kids) = (emitAll .start (cleanAll kids)).finish := by
  rw [lines, clean]
  cases hkids : cleanAll kids with
  | nil => rfl
  | cons l ls =>
    simp only
    rw [emit_wrap h, emit_box h, Writer.finish_request, Writer.request_start]

/-- A block around one tree changes nothing. -/
theorem lines_block_single (r : Rose Item) : lines (.node (.box .block none) [r]) = lines r := by
  rw [lines_box (by simp), cleanAll_cons, lines]
  cases clean r <;> rfl

/-- A block of items gives their rows, and the line for those that are left. -/
theorem lines_items (items : List Value) (remaining : Option Nat) :
    lines (.node (.box .block none) (items.map itemTree ++ (remaining.map moreTree).toList)) =
      items.flatMap bulleted ++ (remaining.map moreLine).toList := by
  have hitems := Writer.Holds.start.items items
  rw [List.nil_append] at hitems
  rw [lines_box (by simp), cleanAll_append, emitAll_append]
  cases remaining with
  | none => exact hitems.finish.trans (List.append_nil _).symm
  | some k => exact (hitems.more k).finish

end Montage.Box
