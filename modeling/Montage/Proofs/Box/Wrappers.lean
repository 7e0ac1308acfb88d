import Montage.Proofs.Box.Separation

/-!
Boxes around a single child. Main statement: the lines of a tree are those of the tree in which every box with
something in it is kept, if no border draws an empty row at the bottom. Such a row is dropped where the box
around it is kept, since no rectangle ends with an empty row.
-/

namespace Montage.Box

mutual

/-- What is left of a tree without reserved places, empty texts and boxes with nothing in them. A box of one
child stays around it. -/
def pruned : Rose Item → Option Layout
  | .node (.text s) _ => if s.isEmpty then none else some (.text s.toList)
  | .node (.reserved _) _ => none
  | .node (.box kind border) children =>
    match prunedAll children with
    | [] => none
    | ls => some (.box kind border ls)

def prunedAll : List (Rose Item) → List Layout
  | [] => []
  | r :: rs => (pruned r).toList ++ prunedAll rs

end

/-- The row that a border draws below some lines; around no lines it draws nothing. -/
def Border.foot? (b : Border) (content : List (List Char)) : Option (List Char) :=
  if content.isEmpty then none
  else b.bottom.map fun e => e.across (maxWidth content)
    (maxWidth (sidePieces b.left content.length)) (maxWidth (sidePieces b.right content.length))

mutual

/-- No border of a tree draws an empty row below what stands in its box. -/
def Footed : Rose Item → Prop
  | .node (.box _ border) children =>
    (∀ b, border = some b → b.foot? (emitAll .start (prunedAll children)).finish ≠ some []) ∧
      AllFooted children
  | _ => True

def AllFooted : List (Rose Item) → Prop
  | [] => True
  | r :: rs => Footed r ∧ AllFooted rs

end

/-! Rows that do not end with an empty one. -/

def Trimmed (rows : List (List Char)) : Prop :=
  rows.getLast? ≠ some []

theorem trimmed_finish (w : Writer) : Trimmed w.finish := by
  intro h
  rw [Writer.finish, List.getLast?_reverse] at h
  have hkept := List.head?_dropWhile_not List.isEmpty (w.current :: w.above)
  simp [h] at hkept

theorem length_sidePieces (side : Option Side) (n : Nat) : (sidePieces side n).length = n := by
  simp [sidePieces]

/-- The last of the rows between two sides stands between the last pieces of these. -/
theorem getLast?_between {lefts rows rights : List (List Char)} {left row right : List Char}
    (hlefts : lefts.length = rows.length) (hrights : rights.length = rows.length)
    (h : (lefts.zip (rows.zip rights)).getLast? = some (left, row, right)) :
    rows.getLast? = some row := by
  have hrows : ((lefts.zip (rows.zip rights)).map Prod.snd).map Prod.fst = rows := by
    rw [List.map_snd_zip (by simp [hlefts, hrights]), List.map_fst_zip (Nat.le_of_eq hrights.symm)]
  rw [← hrows, List.getLast?_map, List.getLast?_map, h]
  rfl

/-- A border adds no empty row at the end but its own. -/
theorem trimmed_apply {b : Border} {rows : List (List Char)} (hrows : Trimmed rows)
    (hfoot : b.foot? rows ≠ some []) : Trimmed (b.apply rows) := by
  unfold Border.apply
  split_ifs with hempty
  · simp [Trimmed]
  · cases hbottom : b.bottom with
    | some e => simpa [Trimmed, Border.foot?, hempty, hbottom] using hfoot
    | none =>
      intro hlast
      simp only [Option.map_none, Option.toList_none, List.append_nil, List.getLast?_append,
        List.getLast?_map, Option.or_eq_some_iff, Option.map_eq_some_iff, Prod.exists] at hlast
      rcases hlast with ⟨left, row, right, hz, hrow⟩ | ⟨hnone, -⟩
      · have hcontent : row = [] := by
          simp only [pad, List.append_eq_nil_iff] at hrow
          exact hrow.1.2.1
        apply hrows
        rw [← hcontent]
        exact getLast?_between (length_sidePieces ..) (length_sidePieces ..) hz
      · -- there is a row for each line
        simp only [Option.map_eq_none_iff, List.getLast?_eq_none_iff] at hnone
        have hlength := congrArg List.length hnone
        simp only [List.length_zip, length_sidePieces, Nat.min_self, List.length_nil] at hlength
        exact hempty (List.isEmpty_iff.mpr (List.eq_nil_of_length_eq_zero hlength))

/-- The lines that are written already come before those that are added. -/
theorem lines_foldl_newLine (rows : List (List Char)) (w : Writer) :
    (rows.foldl Writer.newLine w).current :: (rows.foldl Writer.newLine w).above =
      rows.reverse ++ w.current :: w.above := by
  induction rows generalizing w with
  | nil => rfl
  | cons row rows ih => simp [ih, Writer.newLine]

/-- A rectangle at the beginning is written as it is. -/
theorem finish_place_start {rows : List (List Char)} (h : Trimmed rows) :
    (Writer.start.place rows).finish = rows := by
  cases rows with
  | nil => rfl
  | cons first rest =>
    have hplace : Writer.start.place (first :: rest) =
        rest.foldl Writer.newLine (Writer.start.push first) := rfl
    have hlines : rest.reverse ++ [first] = (first :: rest).reverse := List.reverse_cons.symm
    rw [hplace, Writer.finish, lines_foldl_newLine]
    simp only [Writer.push, Writer.start, List.nil_append]
    rw [hlines]
    cases hrev : (first :: rest).reverse with
    | nil => simp at hrev
    | cons last before =>
      have hlast : last ≠ [] := by
        rintro rfl
        apply h
        rw [← List.head?_reverse, hrev]
        rfl
      rw [List.dropWhile_cons_of_neg (by simpa using hlast), ← hrev, List.reverse_reverse]

/-! A box around a single child. -/

/-- The rectangle of an inline block, if that is what is drawn, does not end with an empty row. -/
def Layout.EndsTrimmed (l : Layout) : Prop :=
  ∀ border children, l = .box .inlineBlock border children →
    Trimmed (bordered border (emitAll .start children).finish)

/-- An inline block around another one adds nothing to its rectangle. -/
theorem emit_inlineBlock_wrapped {border : Option Border} {children : List Layout}
    (h : (Layout.box .inlineBlock border children).EndsTrimmed) (w : Writer) :
    emit w (.box .inlineBlock none [.box .inlineBlock border children]) =
      emit w (.box .inlineBlock border children) := by
  have hrows := finish_place_start (h border children rfl)
  simp only [emit, emitAll, bordered] at hrows ⊢
  rw [hrows]

/-- Dropping a box around a single child changes nothing in the lines. -/
theorem emit_wrap_of_trimmed {children : List Layout} (h : ∀ l ∈ children, l.EndsTrimmed)
    (kind : Kind) (border : Option Border) (w : Writer) :
    emit w (Layout.wrap kind border children) = emit w (.box kind border children) := by
  cases border with
  | some b =>
    unfold Layout.wrap
    split <;> rfl
  | none =>
    by_cases hkind : kind = .inlineBlock
    · subst hkind
      unfold Layout.wrap
      split
      · rename_i child
        cases child with
        | text s => rfl
        | box k border children =>
          simp only [Option.isSome_none, Bool.false_eq_true, ↓reduceIte, reduceCtorEq]
          split_ifs with hk
          · subst hk
            exact (emit_inlineBlock_wrapped (h _ List.mem_cons_self) w).symm
          · rfl
      · rfl
    · exact emit_wrap hkind w children

/-- A box shows its children only by what they write. -/
theorem emit_box_congr {ls ls' : List Layout} (h : ∀ w, emitAll w ls = emitAll w ls') (kind : Kind)
    (border : Option Border) (w : Writer) :
    emit w (.box kind border ls) = emit w (.box kind border ls') := by
  cases kind <;> cases border <;> simp [emit, h]

theorem endsTrimmed_wrap {children : List Layout} {kind : Kind} {border : Option Border}
    (hchildren : ∀ l ∈ children, l.EndsTrimmed)
    (hbox : (Layout.box kind border children).EndsTrimmed) :
    (Layout.wrap kind border children).EndsTrimmed := by
  unfold Layout.wrap
  split
  · rename_i child
    have hchild := hchildren child List.mem_cons_self
    split_ifs
    · exact hbox
    · exact hchild
    · split
      · split_ifs
        · exact hchild
        · exact hbox
      · exact hbox
  · exact hbox

/-- What is left of some trees writes the same, whether boxes around a single child are dropped or not. -/
structure Redraws (cleaned kept : List Layout) : Prop where
  written : ∀ w, emitAll w cleaned = emitAll w kept
  nil : cleaned = [] ↔ kept = []
  trimmed : ∀ l ∈ cleaned, l.EndsTrimmed

theorem Redraws.append {ls ls' ks ks' : List Layout} (h : Redraws ls ks) (h' : Redraws ls' ks') :
    Redraws (ls ++ ls') (ks ++ ks') where
  written w := by rw [emitAll_append, emitAll_append, h.written, h'.written]
  nil := by rw [List.append_eq_nil_iff, List.append_eq_nil_iff, h.nil, h'.nil]
  trimmed := List.forall_mem_append.mpr ⟨h.trimmed, h'.trimmed⟩

theorem Redraws.refl {ls : List Layout} (h : ∀ l ∈ ls, l.EndsTrimmed) : Redraws ls ls :=
  ⟨fun _ => rfl, Iff.rfl, h⟩

theorem Redraws.box {ls ks : List Layout} {kind : Kind} {border : Option Border} (h : Redraws ls ks)
    (hfoot : ∀ b, border = some b → b.foot? (emitAll .start ks).finish ≠ some []) :
    Redraws [Layout.wrap kind border ls] [.box kind border ks] := by
  have hbox : (Layout.box kind border ls).EndsTrimmed := by
    rintro border' children hl
    cases hl
    rw [h.written]
    cases border with
    | none => exact trimmed_finish _
    | some b => exact trimmed_apply (trimmed_finish _) (hfoot b rfl)
  constructor
  · intro w
    simp only [emitAll]
    rw [emit_wrap_of_trimmed h.trimmed, emit_box_congr h.written]
  · simp only [List.cons_ne_nil]
  · simpa using endsTrimmed_wrap h.trimmed hbox

mutual

theorem redraws_clean (r : Rose Item) (h : Footed r) :
    Redraws (clean r).toList (pruned r).toList := by
  match r with
  | .node (.text s) _ =>
    refine Redraws.refl fun l hl => ?_
    rw [clean] at hl
    split_ifs at hl
    · cases hl
    · cases List.mem_singleton.mp hl
      exact nofun
  | .node (.reserved _) _ => exact Redraws.refl nofun
  | .node (.box kind border) children =>
    obtain ⟨hfoot, hchildren⟩ := h
    have hall := redraws_cleanAll children hchildren
    rw [clean, pruned]
    split
    · rename_i hnil
      rw [hall.nil.mp hnil]
      exact Redraws.refl nofun
    · rename_i hne
      split
      · rename_i hnil
        exact absurd (hall.nil.mpr hnil) hne
      · exact hall.box hfoot

theorem redraws_cleanAll (rs : List (Rose Item)) (h : AllFooted rs) :
    Redraws (cleanAll rs) (prunedAll rs) := by
  match rs with
  | [] => exact Redraws.refl nofun
  | r :: rs =>
    rw [cleanAll_cons, prunedAll]
    exact (redraws_clean r h.1).append (redraws_cleanAll rs h.2)

end

/-- The lines of a tree are those of the tree in which no box around a single child is dropped. -/
theorem lines_eq_pruned {r : Rose Item} (h : Footed r) :
    lines r = ((pruned r).map fun l => (emit .start l).finish).getD [] := by
  have hdraw := redraws_clean r h
  rw [lines]
  cases hclean : clean r with
  | none =>
    have hpruned : pruned r = none := by simpa [hclean] using hdraw.nil
    rw [hpruned]
    rfl
  | some l =>
    cases hpruned : pruned r with
    | none =>
      have hnil := hdraw.nil
      simp [hclean, hpruned] at hnil
    | some k =>
      have hwritten := hdraw.written .start
      rw [hclean, hpruned] at hwritten
      exact congrArg Writer.finish hwritten

/-- A block in a block, with a framed inline block in another inline block beside a place. -/
def wrappedTree : Rose Item :=
  .node (.box .block none) [
    .node (.box .block none) [
      leaf "a ",
      .node (.box .inlineBlock none) [
        .node (.reserved true) [],
        .node (.box .inlineBlock (some .frame)) [.node (.box .line none) [leaf "b\nc"]]]]]

theorem lines_eq_pruned_of_wrapped :
    Footed wrappedTree ∧
      lines wrappedTree = ((pruned wrappedTree).map fun l => (emit .start l).finish).getD [] ∧
      lines wrappedTree =
        ["a +---+", "  | b |", "  | c |", "  +---+"].map String.toList := by
  have hframe : Border.frame.foot? (emitAll .start
      (prunedAll [.node (.box .line none) [leaf "b\nc"]])).finish ≠ some [] := by
    decide +kernel
  have h : Footed wrappedTree := by
    simpa [wrappedTree, leaf, Footed, AllFooted] using hframe
  exact ⟨h, lines_eq_pruned h, by decide +kernel⟩

/-- An inline block with an empty row at the bottom, in an inline block and before a text. The text stands
in that row if the outer inline block is dropped, and behind the first row if it is kept. -/
example :
    let footless : Border := { bottom := some (.perWidth fun _ _ _ => []) }
    let r : Rose Item := .node (.box .line none) [
      .node (.box .inlineBlock none) [.node (.box .inlineBlock (some footless)) [leaf "a"]], leaf "x"]
    lines r = [['a'], ['x']] ∧
      ((pruned r).map fun l => (emit .start l).finish).getD [] = [['a', 'x']] := by
  decide +kernel

end Montage.Box
