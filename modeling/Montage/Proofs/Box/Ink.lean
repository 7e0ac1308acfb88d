import Montage.Proofs.Box.Separation
import Montage.Proofs.Media.Likeness

/-!
What boxes print. Main statement: apart from spaces and line ends, the lines of a tree of boxes without
borders are its texts in order, however inline boxes, inline blocks, blocks and lines are nested.
-/

namespace Montage

/-! The texts of a subtree. -/

section Texts

variable {α : Type} (f : α → List Char)

theorem Rose.gatherAll_filterMap (g : NodeId → Option (Rose α)) (ids : List NodeId) :
    gatherAll f (ids.filterMap g) = ids.flatMap fun x => ((g x).map (gather f)).getD [] := by
  induction ids with
  | nil => rfl
  | cons x ids ih =>
    rw [List.filterMap_cons, List.flatMap_cons]
    cases g x with
    | none => exact ih
    | some r => rw [gatherAll, ih, Option.map_some, Option.getD_some]

theorem Tree.gather_subtreeWithin (t : Tree α) (fuel : Nat) (x : NodeId) :
    ((t.subtreeWithin fuel x).map (Rose.gather f)).getD [] =
      (t.descendantsWithin fuel x).flatMap fun i => ((t.get? i).map f).getD [] := by
  induction fuel generalizing x with
  | zero => rfl
  | succ fuel ih =>
    rw [subtreeWithin, descendantsWithin, contains, Table.contains]
    cases hx : t.slots.get? x with
    | none => rfl
    | some s =>
      have hkids : t.children x = s.children := by simp [children, hx]
      simp [Rose.gather, Rose.gatherAll_filterMap, ih, get?, hx, hkids, List.flatMap_assoc]

/-- A tree read as a plain value has the texts of its nodes. -/
theorem Tree.gather_subtree? (t : Tree α) (x : NodeId) :
    ((t.subtree? x).map (Rose.gather f)).getD [] =
      (t.descendants x).flatMap fun i => ((t.get? i).map f).getD [] :=
  gather_subtreeWithin f t t.size x

end Texts

namespace Box

/-! Trees without borders. -/

mutual

/-- A tree of boxes without borders, in which nothing stands below texts and places. -/
def Unbordered : Rose Item → Prop
  | .node (.box _ border) children => border = none ∧ AllUnbordered children
  | .node _ children => children = []

def AllUnbordered : List (Rose Item) → Prop
  | [] => True
  | r :: rs => Unbordered r ∧ AllUnbordered rs

end

namespace Layout

mutual

/-- The texts in order. -/
def texts : Layout → List Char
  | .text s => s
  | .box _ _ children => textsOf children

def textsOf : List Layout → List Char
  | [] => []
  | l :: ls => texts l ++ textsOf ls

end

mutual

/-- Boxes without borders, all the way down. -/
def Open : Layout → Prop
  | .text _ => True
  | .box _ border children => border = none ∧ AllOpen children

def AllOpen : List Layout → Prop
  | [] => True
  | l :: ls => Open l ∧ AllOpen ls

end

variable {ls ls' : List Layout}

theorem textsOf_append : textsOf (ls ++ ls') = textsOf ls ++ textsOf ls' := by
  induction ls with
  | nil => rfl
  | cons l ls ih => rw [List.cons_append, textsOf, textsOf, ih, List.append_assoc]

theorem allOpen_append : AllOpen (ls ++ ls') ↔ AllOpen ls ∧ AllOpen ls' := by
  induction ls with
  | nil => exact ⟨fun h => ⟨trivial, h⟩, fun h => h.2⟩
  | cons l ls ih => rw [List.cons_append, AllOpen, AllOpen, ih, and_assoc]

/-- Dropping a box keeps what is in it. -/
theorem texts_wrap (kind : Kind) (border : Option Border) (children : List Layout) :
    (wrap kind border children).texts = textsOf children := by
  unfold wrap
  split
  · split_ifs
    · rfl
    · simp only [textsOf, List.append_nil]
    · split
      · split_ifs
        · simp only [textsOf, List.append_nil]
        · rfl
      · rfl
  · rfl

theorem open_wrap {kind : Kind} {children : List Layout} (h : AllOpen children) :
    (wrap kind none children).Open := by
  have hbox : (box kind none children).Open := ⟨rfl, h⟩
  unfold wrap
  split
  · split_ifs
    · exact hbox
    · exact h.1
    · split
      · split_ifs
        · exact h.1
        · exact hbox
      · exact hbox
  · exact hbox

end Layout

mutual

/-- Cleaning keeps the texts of a tree without borders. -/
theorem texts_clean (r : Rose Item) (h : Unbordered r) :
    Layout.textsOf (clean r).toList = r.gather Item.content ∧ Layout.AllOpen (clean r).toList := by
  match r with
  | .node (.text s) children =>
    obtain rfl : children = [] := h
    rw [clean]
    split
    · rename_i hs
      have hnil : s.toList = [] := by simpa using hs
      exact ⟨by simp [Layout.textsOf, Rose.gather, Rose.gatherAll, Item.content, hnil], trivial⟩
    · exact ⟨rfl, trivial, trivial⟩
  | .node (.reserved _) children =>
    obtain rfl : children = [] := h
    exact ⟨rfl, trivial⟩
  | .node (.box kind border) children =>
    obtain ⟨rfl, hchildren⟩ := h
    obtain ⟨htexts, hopen⟩ := texts_cleanAll children hchildren
    rw [clean]
    split
    · rename_i hnil
      rw [hnil] at htexts
      exact ⟨htexts, trivial⟩
    · rw [Option.toList_some, Layout.textsOf, Layout.texts_wrap]
      exact ⟨(List.append_nil _).trans htexts, Layout.open_wrap hopen, trivial⟩

theorem texts_cleanAll (rs : List (Rose Item)) (h : AllUnbordered rs) :
    Layout.textsOf (cleanAll rs) = Rose.gatherAll Item.content rs ∧ Layout.AllOpen (cleanAll rs) := by
  match rs with
  | [] => exact ⟨rfl, trivial⟩
  | r :: rs =>
    obtain ⟨hr, hopen⟩ := texts_clean r h.1
    obtain ⟨hrs, hopens⟩ := texts_cleanAll rs h.2
    rw [cleanAll_cons, Layout.textsOf_append, hr, hrs, Layout.allOpen_append]
    exact ⟨rfl, hopen, hopens⟩

end

/-! What is written, without the characters that place it. -/

/-- A text without spaces and line ends. -/
def ink (s : List Char) : List Char :=
  s.filter fun c => c != ' ' && c != '\n'

@[simp] theorem ink_nil : ink [] = [] := rfl

@[simp] theorem ink_append (s s' : List Char) : ink (s ++ s') = ink s ++ ink s' :=
  List.filter_append ..

@[simp] theorem ink_spaces (n : Nat) : ink (spaces n) = [] := by
  simp [ink, spaces]

/-- Cutting at line ends loses nothing else. -/
theorem ink_splitWhere (s : List Char) : ink (Text.splitWhere (· == '\n') s).flatten = ink s := by
  induction s with
  | nil => rfl
  | cons c s ih =>
    rw [Text.splitWhere]
    split
    · rename_i hc
      obtain rfl : c = '\n' := by simpa using hc
      exact ih
    · split
      · rename_i hnil
        exact absurd hnil (Text.splitWhere_ne_nil _ s)
      · rename_i l ls heq
        rw [heq] at ih
        exact (ink_append [c] (l ++ ls.flatten)).trans ((congrArg (ink [c] ++ ·) ih).trans
          (ink_append [c] s).symm)

namespace Writer

variable (w : Writer)

/-- What is printed so far. -/
def ink (w : Writer) : List Char :=
  Box.ink (w.current :: w.above).reverse.flatten

theorem ink_newLine (l : List Char) : (w.newLine l).ink = w.ink ++ Box.ink l := by
  simp [ink, newLine]

theorem ink_push (s : List Char) : (w.push s).ink = w.ink ++ Box.ink s := by
  simp [ink, push]

theorem ink_request (b : Break) : (w.request b).ink = w.ink := by
  rw [request]
  split <;> rfl

theorem ink_flush : w.flush.ink = w.ink := by
  have hline : ∀ w : Writer, (w.newLine []).ink = w.ink := fun w => by simp [ink_newLine]
  have hopened : (if w.current.isEmpty then { w with pending := .none }
      else newLine { w with pending := .none } []).ink = w.ink := by
    split
    · rfl
    · exact hline { w with pending := .none }
  simp only [flush]
  split
  · rfl
  · split
    · split
      · split
        · exact hopened
        · exact (hline _).trans hopened
      · exact hopened
    · exact hopened

/-- Rows below each other, all with the same in front. -/
theorem ink_foldl_newLine {margin : List Char} (hmargin : Box.ink margin = [])
    (rows : List (List Char)) :
    (rows.foldl (fun w row => w.newLine (margin ++ row)) w).ink = w.ink ++ Box.ink rows.flatten := by
  induction rows generalizing w with
  | nil => simp
  | cons row rows ih => simp [ih, ink_newLine, hmargin]

theorem ink_text (s : List Char) : (w.text s).ink = w.ink ++ Box.ink s := by
  rw [← ink_splitWhere s, text]
  split
  · rename_i hnil
    exact absurd hnil (Text.splitWhere_ne_nil _ s)
  · rename_i first rest heq
    have hrest := ink_foldl_newLine (w.flush.push first) ink_nil rest
    simp only [List.nil_append] at hrest
    rw [hrest, ink_push, ink_flush, heq]
    simp

theorem ink_place (rows : List (List Char)) : (w.place rows).ink = w.ink ++ Box.ink rows.flatten := by
  cases rows with
  | nil => simp [place]
  | cons first rest =>
    simp only [place]
    rw [ink_foldl_newLine _ (ink_spaces _), ink_push, ink_flush]
    simp

/-- The lines left out at the end are empty. -/
theorem ink_finish : Box.ink w.finish.flatten = w.ink := by
  have hdrop : ∀ ls : List (List Char),
      (ls.dropWhile List.isEmpty).reverse.flatten = ls.reverse.flatten := by
    intro ls
    induction ls with
    | nil => rfl
    | cons l ls ih =>
      rw [List.dropWhile_cons]
      split
      · rename_i hl
        simp [ih, List.isEmpty_iff.mp hl]
      · rfl
  rw [finish, hdrop, ink]

end Writer

/-! A box is printed as its contents are, on the lines of the writer or on its own. -/

mutual

theorem ink_emit (w : Writer) (l : Layout) (h : l.Open) : (emit w l).ink = w.ink ++ ink l.texts := by
  match l with
  | .text s => exact Writer.ink_text w s
  | .box kind border children =>
    obtain ⟨rfl, hchildren⟩ := h
    by_cases hkind : kind = .inlineBlock
    · subst hkind
      -- an inline block is written on its own, and its lines are placed as they are
      have hrows : ink (emitAll .start children).finish.flatten = ink (Layout.textsOf children) := by
        rw [Writer.ink_finish, ink_emitAll .start children hchildren]
        rfl
      rw [emit, Writer.ink_place, bordered, hrows, Layout.texts]
    · rw [emit_box hkind, Writer.ink_request, ink_emitAll _ children hchildren, Writer.ink_request,
        Layout.texts]

theorem ink_emitAll (w : Writer) (ls : List Layout) (h : Layout.AllOpen ls) :
    (emitAll w ls).ink = w.ink ++ ink (Layout.textsOf ls) := by
  match ls with
  | [] => exact (List.append_nil _).symm
  | l :: ls =>
    rw [emitAll, ink_emitAll _ ls h.2, ink_emit w l h.1, Layout.textsOf, ink_append, List.append_assoc]

end

/-- Apart from spaces and line ends, the lines of a tree without borders are its texts in order. -/
theorem ink_lines {r : Rose Item} (h : Unbordered r) :
    ink (lines r).flatten = ink (r.gather Item.content) := by
  obtain ⟨htexts, hopen⟩ := texts_clean r h
  rw [← htexts, lines]
  cases hclean : clean r with
  | none => rfl
  | some l =>
    rw [hclean] at hopen
    rw [Writer.ink_finish, ink_emit _ l hopen.1, Option.toList_some, Layout.textsOf, Layout.textsOf,
      List.append_nil]
    rfl

/-- Two rectangles side by side in a line, one in the other, with texts of several lines, a block, a place
and text of spaces and line ends only. -/
def nestedTree : Rose Item :=
  .node (.box .line none) [
    leaf "a ",
    .node (.box .inlineBlock none) [
      leaf "b\nc",
      .node (.box .inlineBlock none) [.node (.box .block none) [leaf "d"], leaf "e\n"],
      .node (.reserved true) []],
    .node (.box .inlineBlock none) [leaf " \n"],
    .node (.box .inline none) [leaf "f"]]

theorem ink_lines_of_nested :
    Unbordered nestedTree ∧
      ink (lines nestedTree).flatten = ink (nestedTree.gather Item.content) ∧
      ink (nestedTree.gather Item.content) = "abcdef".toList := by
  have h : Unbordered nestedTree := by
    simp [nestedTree, leaf, Unbordered, AllUnbordered]
  exact ⟨h, ink_lines h, by decide +kernel⟩

end Box

end Montage
