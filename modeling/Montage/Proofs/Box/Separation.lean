import Mathlib.Data.List.Basic
import Montage.Box.Medium

/-!
What stands between the texts of plain boxes. Main statement: the lines of a tree of inline, line and block
boxes without borders are its texts in order, with a blank line where a block begins or ends, a line end
where only a line ends, and nothing elsewhere.
-/

namespace Montage.Box

/-! Texts and the boxes around them. -/

mutual

/-- A tree of inline, line and block boxes without borders, and of texts without line ends. -/
def Plain : Rose Item → Prop
  | .node (.text s) _ => '\n' ∉ s.toList
  | .node (.reserved _) _ => True
  | .node (.box kind border) children => kind ≠ .inlineBlock ∧ border = none ∧ AllPlain children

def AllPlain : List (Rose Item) → Prop
  | [] => True
  | r :: rs => Plain r ∧ AllPlain rs

end

/-- A box of a tree: the way to it from the root, last step first, and its kind. -/
structure Ring where
  place : List Nat
  kind : Kind
deriving DecidableEq

/-- A text that is not empty, and all boxes that contain it. -/
structure Leaf where
  text : List Char
  rings : List Ring

mutual

/-- The texts below a place in the order of the document. -/
def leavesAt (place : List Nat) (around : List Ring) : Rose Item → List Leaf
  | .node (.text s) _ => if s.isEmpty then [] else [⟨s.toList, around⟩]
  | .node (.reserved _) _ => []
  | .node (.box kind _) children => leavesFrom place 0 (⟨place, kind⟩ :: around) children

/-- The texts below the children of a place from one of them on. -/
def leavesFrom (place : List Nat) (i : Nat) (around : List Ring) : List (Rose Item) → List Leaf
  | [] => []
  | r :: rs => leavesAt (i :: place) around r ++ leavesFrom place (i + 1) around rs

end

def leaves (r : Rose Item) : List Leaf :=
  leavesAt [] [] r

/-- What separates two neighbours: a blank line if some block contains just one of them, else a line end if
some line contains the first and not the second. -/
def between (a b : Leaf) : Break :=
  if ∃ x ∈ a.rings ++ b.rings, x.kind = .block ∧ ¬ (x ∈ a.rings ∧ x ∈ b.rings) then .blank
  else if ∃ x ∈ a.rings, x.kind = .line ∧ x ∉ b.rings then .line
  else .none

def Break.chars : Break → List Char
  | .none => []
  | .line => ['\n']
  | .blank => ['\n', '\n']

/-- Texts with what separates neighbours between them. -/
def spaced : List Leaf → List Char
  | [] => []
  | [a] => a.text
  | a :: b :: ls => a.text ++ (between a b).chars ++ spaced (b :: ls)

/-! What is written so far. -/

namespace Break

/-- The stronger of two breaks; the first where they are alike. -/
def join (a b : Break) : Break :=
  if a.rank < b.rank then b else a

@[simp] theorem join_none (a : Break) : a.join .none = a := by
  cases a <;> rfl

@[simp] theorem none_join (a : Break) : Break.none.join a = a := by
  cases a <;> rfl

@[simp] theorem blank_join (a : Break) : Break.blank.join a = .blank := by
  cases a <;> rfl

@[simp] theorem join_blank (a : Break) : a.join .blank = .blank := by
  cases a <;> rfl

theorem join_assoc (a b c : Break) : (a.join b).join c = a.join (b.join c) := by
  cases a <;> cases b <;> cases c <;> rfl

end Break

namespace Writer

variable {w : Writer} {content s : List Char} {b : Break}

/-- Everything that is written, with line ends between lines. -/
def joined (w : Writer) : List Char :=
  ['\n'].intercalate (w.current :: w.above).reverse

/-- The writer stands behind some text on its line, and what it wrote is `content`. -/
structure Wrote (w : Writer) (content : List Char) (b : Break) : Prop where
  current : w.current ≠ []
  joined : w.joined = content
  pending : w.pending = b

theorem intercalate_snoc (sep : List Char) {ls : List (List Char)} (h : ls ≠ []) (l : List Char) :
    sep.intercalate (ls ++ [l]) = sep.intercalate ls ++ sep ++ l := by
  induction ls with
  | nil => exact absurd rfl h
  | cons k ls ih =>
    cases ls with
    | nil => simp [List.intercalate]
    | cons k' ls =>
      have hrest := ih (List.cons_ne_nil _ _)
      rw [List.cons_append] at hrest
      rw [List.cons_append, List.cons_append, List.intercalate_cons_cons, hrest,
        List.intercalate_cons_cons]
      simp only [List.append_assoc]

theorem joined_newLine (w : Writer) (l : List Char) : (w.newLine l).joined = w.joined ++ '\n' :: l := by
  rw [joined, newLine, List.reverse_cons, intercalate_snoc]
  · simp [joined]
  · simp

theorem joined_push (w : Writer) (s : List Char) : (w.push s).joined = w.joined ++ s := by
  obtain ⟨above, current, pending⟩ := w
  cases above with
  | nil => simp [joined, push, List.intercalate]
  | cons l above =>
    have h : (l :: above).reverse ≠ [] := by simp
    have hsplit : ∀ line, (line :: l :: above).reverse = (l :: above).reverse ++ [line] :=
      fun _ => List.reverse_cons
    rw [joined, joined, push, hsplit, hsplit, intercalate_snoc _ h, intercalate_snoc _ h,
      List.append_assoc _ _ s]

theorem Wrote.hasContent (h : w.Wrote content b) : w.hasContent = true := by
  simp [Writer.hasContent, h.current]

theorem Wrote.request (h : w.Wrote content b) (b' : Break) :
    (w.request b').Wrote content (b.join b') := by
  simp only [Writer.request, h.hasContent, h.pending, Bool.true_and, decide_eq_true_eq, Break.join]
  split_ifs
  · exact ⟨h.current, h.joined, rfl⟩
  · exact h

theorem request_request (w : Writer) (b : Break) : (w.request b).request b = w.request b := by
  by_cases h : (w.hasContent && w.pending.rank < b.rank) = true
  · have hone : w.request b = { w with pending := b } := if_pos h
    rw [hone, Writer.request, if_neg]
    simp
  · have hone : w.request b = w := if_neg h
    rw [hone, hone]

theorem request_start (b : Break) : start.request b = start := rfl

/-- The break that is due is made behind what is written. -/
theorem Wrote.flush (h : w.Wrote content b) :
    w.flush.joined = content ++ b.chars ∧ w.flush.pending = .none := by
  obtain ⟨above, current, pending⟩ := w
  obtain ⟨hcurrent, rfl, rfl⟩ := h
  cases pending with
  | none => exact ⟨(List.append_nil _).symm, rfl⟩
  | line =>
    have hflush : Writer.flush ⟨above, current, .line⟩ = Writer.newLine ⟨above, current, .none⟩ [] := by
      simp_all [Writer.flush]
    rw [hflush, joined_newLine]
    exact ⟨rfl, rfl⟩
  | blank =>
    have hflush : Writer.flush ⟨above, current, .blank⟩ =
        (Writer.newLine ⟨above, current, .none⟩ []).newLine [] := by
      simp_all [Writer.flush, Writer.newLine]
    rw [hflush, joined_newLine, joined_newLine, List.append_assoc]
    exact ⟨rfl, rfl⟩

/-- A text without line ends is written on the current line, after the break that is due. -/
theorem text_eq (hline : '\n' ∉ s) (w : Writer) : w.text s = w.flush.push s := by
  have hsplit : Text.splitWhere (· == '\n') s = [s] := by
    induction s with
    | nil => rfl
    | cons c s ih =>
      obtain ⟨hc, hs⟩ := not_or.mp (List.mem_cons.not.mp hline)
      simp [Text.splitWhere, ih hs, Ne.symm hc]
  rw [Writer.text, hsplit]
  rfl

theorem Wrote.text (h : w.Wrote content b) (hline : '\n' ∉ s) (hs : s ≠ []) :
    (w.text s).Wrote (content ++ b.chars ++ s) .none := by
  rw [text_eq hline]
  constructor
  · exact List.append_ne_nil_of_right_ne_nil _ hs
  · rw [joined_push, h.flush.1]
  · exact h.flush.2

theorem wrote_start (hline : '\n' ∉ s) (hs : s ≠ []) : (start.text s).Wrote s .none := by
  rw [text_eq hline]
  exact ⟨hs, by simp [joined, Writer.flush, start, push, List.intercalate], rfl⟩

/-- Nothing is left out at the end if the last line is not empty. -/
theorem Wrote.finish (h : w.Wrote content b) :
    ['\n'].intercalate w.finish = content ∧ w.finish ≠ [] := by
  have hfinish : w.finish = (w.current :: w.above).reverse := by
    simp [Writer.finish, h.current]
  rw [hfinish]
  exact ⟨h.joined, by simp⟩

end Writer

/-! A box is written like its contents, with breaks asked for around them. -/

/-- The break that a box asks for before its contents. -/
def Kind.before : Kind → Break
  | .block => .blank
  | _ => .none

/-- The break that a box asks for after its contents. -/
def Kind.after : Kind → Break
  | .block => .blank
  | .line => .line
  | _ => .none

@[simp] theorem Writer.request_none (w : Writer) : w.request .none = w := by
  simp [Writer.request, Break.rank]

theorem emit_box {kind : Kind} (h : kind ≠ .inlineBlock) (w : Writer) (children : List Layout) :
    emit w (.box kind none children) = (emitAll (w.request kind.before) children).request kind.after := by
  cases kind with
  | inlineBlock => exact absurd rfl h
  | inline => simp [emit, Kind.before, Kind.after]
  | line => simp [emit, Kind.before, Kind.after]
  | block => simp [emit, Kind.before, Kind.after]

/-- The box around a single box of its kind asks for no other breaks than that one. -/
theorem emit_box_box {kind : Kind} (h : kind ≠ .inlineBlock) (w : Writer) (border : Option Border)
    (children : List Layout) :
    emit w (.box kind none [.box kind border children]) = emit w (.box kind border children) := by
  rw [emit_box h, emitAll, emitAll]
  cases kind with
  | inlineBlock => exact absurd rfl h
  | inline => simp [Kind.before, Kind.after]
  | line => cases border <;> simp [Kind.before, Kind.after, emit, Writer.request_request]
  | block => cases border <;> simp [Kind.before, Kind.after, emit, Writer.request_request]

/-- Dropping a box around a single child changes nothing in the lines. -/
theorem emit_wrap {kind : Kind} (h : kind ≠ .inlineBlock) (w : Writer) (children : List Layout) :
    emit w (Layout.wrap kind none children) = emit w (.box kind none children) := by
  unfold Layout.wrap
  split
  · rename_i child
    simp only [Option.isSome_none, Bool.false_eq_true, ↓reduceIte]
    split_ifs with hinline
    · subst hinline
      simp [emit, emitAll]
    · cases child with
      | text s => rfl
      | box k border children =>
        simp only
        split_ifs with hk
        · subst hk
          exact (emit_box_box h w border children).symm
        · rfl
  · rfl

theorem emitAll_append (w : Writer) (ls ls' : List Layout) :
    emitAll w (ls ++ ls') = emitAll (emitAll w ls) ls' := by
  induction ls generalizing w with
  | nil => rfl
  | cons l ls ih => exact ih (emit w l)

theorem cleanAll_cons (r : Rose Item) (rs : List (Rose Item)) :
    cleanAll (r :: rs) = (clean r).toList ++ cleanAll rs := by
  rw [cleanAll]
  cases clean r <;> rfl

theorem cleanAll_append (rs rs' : List (Rose Item)) : cleanAll (rs ++ rs') = cleanAll rs ++ cleanAll rs' := by
  induction rs with
  | nil => rfl
  | cons r rs ih => rw [List.cons_append, cleanAll_cons, cleanAll_cons, ih, List.append_assoc]

/-! The boxes that begin before a text and end behind it, among those in a part of the tree. -/

section Rings

variable {around : List Ring} {a z : Leaf} {ring : Ring}

/-- What boxes other than those around ask for before a text. -/
def opening (around : List Ring) (l : Leaf) : Break :=
  if ∃ x ∈ l.rings, x.kind = .block ∧ x ∉ around then .blank else .none

/-- What boxes other than those around ask for after a text. -/
def closing (around : List Ring) (l : Leaf) : Break :=
  if ∃ x ∈ l.rings, x.kind = .block ∧ x ∉ around then .blank
  else if ∃ x ∈ l.rings, x.kind = .line ∧ x ∉ around then .line
  else .none

theorem opening_self (text : List Char) : opening around ⟨text, around⟩ = .none :=
  if_neg fun ⟨_, hx, _, hnot⟩ => hnot hx

theorem closing_self (text : List Char) : closing around ⟨text, around⟩ = .none := by
  rw [closing, if_neg fun ⟨_, hx, _, hnot⟩ => hnot hx, if_neg fun ⟨_, hx, _, hnot⟩ => hnot hx]

/-- If two neighbours have just the boxes around in common, they are separated by what ends behind the one
and begins before the other. -/
theorem between_eq (hz : around ⊆ z.rings) (ha : around ⊆ a.rings)
    (hapart : ∀ x ∈ z.rings, x ∈ a.rings → x ∈ around) :
    between z a = (closing around z).join (opening around a) := by
  have hleft : ∀ x ∈ z.rings, x ∉ around ↔ x ∉ a.rings := fun x hx =>
    not_congr ⟨fun h => ha h, fun h => hapart x hx h⟩
  have hright : ∀ x ∈ a.rings, x ∉ around ↔ x ∉ z.rings := fun x hx =>
    not_congr ⟨fun h => hz h, fun h => hapart x h hx⟩
  have hblock : (∃ x ∈ z.rings ++ a.rings, x.kind = .block ∧ ¬ (x ∈ z.rings ∧ x ∈ a.rings)) ↔
      (∃ x ∈ z.rings, x.kind = .block ∧ x ∉ around) ∨ ∃ x ∈ a.rings, x.kind = .block ∧ x ∉ around := by
    constructor
    · intro ⟨x, hx, hkind, hnot⟩
      rcases List.mem_append.mp hx with hx | hx
      · exact .inl ⟨x, hx, hkind, (hleft x hx).mpr fun h => hnot ⟨hx, h⟩⟩
      · exact .inr ⟨x, hx, hkind, (hright x hx).mpr fun h => hnot ⟨h, hx⟩⟩
    · intro h
      rcases h with ⟨x, hx, hkind, hnot⟩ | ⟨x, hx, hkind, hnot⟩
      · exact ⟨x, List.mem_append_left _ hx, hkind, fun h => (hleft x hx).mp hnot h.2⟩
      · exact ⟨x, List.mem_append_right _ hx, hkind, fun h => (hright x hx).mp hnot h.1⟩
  have hline : (∃ x ∈ z.rings, x.kind = .line ∧ x ∉ a.rings) ↔
      ∃ x ∈ z.rings, x.kind = .line ∧ x ∉ around :=
    ⟨fun ⟨x, hx, hkind, hnot⟩ => ⟨x, hx, hkind, (hleft x hx).mpr hnot⟩,
      fun ⟨x, hx, hkind, hnot⟩ => ⟨x, hx, hkind, (hleft x hx).mp hnot⟩⟩
  simp only [between, hblock, hline, closing, opening]
  split_ifs <;> simp_all

theorem exists_ring_iff {p : Ring → Prop} (hring : ring ∈ a.rings) (hnew : ring ∉ around) :
    (∃ x ∈ a.rings, p x ∧ x ∉ around) ↔ p ring ∨ ∃ x ∈ a.rings, p x ∧ x ∉ ring :: around := by
  constructor
  · intro ⟨x, hx, hp, hnot⟩
    by_cases he : x = ring
    · exact .inl (he ▸ hp)
    · exact .inr ⟨x, hx, hp, List.not_mem_cons_of_ne_of_not_mem he hnot⟩
  · intro h
    rcases h with hp | ⟨x, hx, hp, hnot⟩
    · exact ⟨ring, hring, hp, hnew⟩
    · exact ⟨x, hx, hp, fun h => hnot (List.mem_cons_of_mem _ h)⟩

theorem opening_ring (hring : ring ∈ a.rings) (hnew : ring ∉ around) :
    opening around a = ring.kind.before.join (opening (ring :: around) a) := by
  simp only [opening, exists_ring_iff hring hnew]
  cases ring.kind <;> simp [Kind.before]

theorem closing_ring (hring : ring ∈ a.rings) (hnew : ring ∉ around) :
    closing around a = (closing (ring :: around) a).join ring.kind.after := by
  simp only [closing, exists_ring_iff hring hnew]
  cases ring.kind <;> simp [Kind.after]
  split_ifs <;> rfl

/-- The first of two parts of a document, and what separates it from the second. -/
theorem spaced_append {xs ys : List Leaf} (hz : z ∈ xs.getLast?) (ha : a ∈ ys.head?) :
    spaced (xs ++ ys) = spaced xs ++ (between z a).chars ++ spaced ys := by
  obtain ⟨ys, rfl⟩ : ∃ ys', ys = a :: ys' := ⟨ys.tail, List.eq_cons_of_mem_head? ha⟩
  induction xs with
  | nil => cases hz
  | cons x xs ih =>
    cases xs with
    | nil =>
      obtain rfl := Option.some.inj hz
      rfl
    | cons x' xs =>
      have hrest := ih hz
      rw [List.cons_append] at hrest
      simp only [List.cons_append, spaced, hrest, List.append_assoc]

/-- Texts are written one after the other, with what separates them from each other and from what stands
before them; and the breaks due behind them are those that boxes end with there. -/
structure Lays (around : List Ring) (ls : List Leaf) (f : Writer → Writer) : Prop where
  none : ls = [] → ∀ w, f w = w
  first : ∀ z ∈ ls.getLast?, (f .start).Wrote (spaced ls) (closing around z)
  next : ∀ a ∈ ls.head?, ∀ z ∈ ls.getLast?, ∀ w content b, w.Wrote content b →
    (f w).Wrote (content ++ (b.join (opening around a)).chars ++ spaced ls) (closing around z)

namespace Lays

variable {ls xs ys : List Leaf} {f g : Writer → Writer}

theorem nil : Lays around [] fun w => w :=
  ⟨fun _ _ => rfl, nofun, nofun⟩

theorem text {s : List Char} (hline : '\n' ∉ s) (hs : s ≠ []) :
    Lays around [⟨s, around⟩] fun w => w.text s := by
  constructor
  · exact nofun
  · intro z hz
    obtain rfl : ⟨s, around⟩ = z := Option.some.inj hz
    rw [closing_self]
    exact Writer.wrote_start hline hs
  · intro a ha z hz w content b hw
    obtain rfl : ⟨s, around⟩ = a := Option.some.inj ha
    obtain rfl : ⟨s, around⟩ = z := Option.some.inj hz
    rw [closing_self, opening_self, Break.join_none]
    exact hw.text hline hs

theorem append (hf : Lays around xs f) (hg : Lays around ys g)
    (hx : ∀ l ∈ xs, around ⊆ l.rings) (hy : ∀ l ∈ ys, around ⊆ l.rings)
    (hapart : ∀ l ∈ xs, ∀ l' ∈ ys, ∀ x ∈ l.rings, x ∈ l'.rings → x ∈ around) :
    Lays around (xs ++ ys) fun w => g (f w) := by
  rcases List.eq_nil_or_concat xs with rfl | ⟨xs', z, rfl⟩
  · simpa only [List.nil_append, hf.none rfl] using hg
  · cases ys with
    | nil => simpa only [List.append_nil, hg.none rfl] using hf
    | cons a ys' =>
      have hz : z ∈ (xs'.concat z).getLast? := by simp
      have ha : a ∈ (a :: ys').head? := rfl
      have hzmem : z ∈ xs'.concat z := by simp
      have hspaced := spaced_append hz ha
      rw [between_eq (hx z hzmem) (hy a List.mem_cons_self)
        (hapart z hzmem a List.mem_cons_self)] at hspaced
      constructor
      · intro h
        simp at h
      · intro y hy
        rw [List.getLast?_append_of_ne_nil _ (List.cons_ne_nil _ _)] at hy
        rw [hspaced]
        exact hg.next a ha y hy _ _ _ (hf.first z hz)
      · intro x hx y hy w content b hw
        rw [List.getLast?_append_of_ne_nil _ (List.cons_ne_nil _ _)] at hy
        have hx : x ∈ (xs'.concat z).head? := by
          rwa [List.head?_append_of_ne_nil] at hx
          simp
        rw [hspaced, ← List.append_assoc, ← List.append_assoc]
        exact hg.next a ha y hy _ _ _ (hf.next x hx z hz w content b hw)

/-- A box around texts asks for its breaks before the first and after the last of them. -/
theorem box (h : Lays (ring :: around) ls f) (hls : ls ≠ []) (hin : ∀ l ∈ ls, ring ∈ l.rings)
    (hnew : ring ∉ around) :
    Lays around ls fun w => (f (w.request ring.kind.before)).request ring.kind.after := by
  constructor
  · exact fun he => absurd he hls
  · intro z hz
    rw [closing_ring (hin z (List.mem_of_getLast? hz)) hnew, Writer.request_start]
    exact (h.first z hz).request _
  · intro a ha z hz w content b hw
    rw [closing_ring (hin z (List.mem_of_getLast? hz)) hnew,
      opening_ring (hin a (List.mem_of_head? ha)) hnew, ← Break.join_assoc]
    exact (h.next a ha z hz _ _ _ (hw.request _)).request _

end Lays

end Rings

/-! The boxes around the texts of a tree. -/

mutual

theorem leavesAt_eq_nil (place : List Nat) (around : List Ring) (r : Rose Item) :
    leavesAt place around r = [] ↔ clean r = none := by
  match r with
  | .node (.text s) _ =>
    rw [leavesAt, clean]
    split <;> simp
  | .node (.reserved _) _ => exact ⟨fun _ => rfl, fun _ => rfl⟩
  | .node (.box kind border) children =>
    rw [leavesAt, clean, leavesFrom_eq_nil]
    split <;> simp_all

theorem leavesFrom_eq_nil (place : List Nat) (i : Nat) (around : List Ring) (rs : List (Rose Item)) :
    leavesFrom place i around rs = [] ↔ cleanAll rs = [] := by
  match rs with
  | [] => exact ⟨fun _ => rfl, fun _ => rfl⟩
  | r :: rs =>
    rw [leavesFrom, cleanAll_cons, List.append_eq_nil_iff, List.append_eq_nil_iff, leavesAt_eq_nil,
      leavesFrom_eq_nil, Option.toList_eq_nil_iff]

end

mutual

theorem around_subset {place : List Nat} {around : List Ring} {l : Leaf} (r : Rose Item)
    (h : l ∈ leavesAt place around r) : around ⊆ l.rings := by
  match r with
  | .node (.text s) _ =>
    rw [leavesAt] at h
    split at h
    · cases h
    · exact List.mem_singleton.mp h ▸ List.Subset.refl _
  | .node (.reserved _) _ => cases h
  | .node (.box kind border) children =>
    exact (List.cons_subset.mp (cons_subset_from children h)).2

theorem cons_subset_from {place : List Nat} {i : Nat} {around : List Ring} {l : Leaf}
    (rs : List (Rose Item)) (h : l ∈ leavesFrom place i around rs) : around ⊆ l.rings := by
  match rs with
  | [] => cases h
  | r :: rs =>
    rcases List.mem_append.mp h with h | h
    · exact around_subset r h
    · exact cons_subset_from rs h

end

mutual

/-- Boxes around a text are around its part of the tree or belong to it. -/
theorem rings_at {place : List Nat} {around : List Ring} {l : Leaf} (r : Rose Item)
    (h : l ∈ leavesAt place around r) {x : Ring} (hx : x ∈ l.rings) : x ∈ around ∨ place <:+ x.place := by
  match r with
  | .node (.text s) _ =>
    rw [leavesAt] at h
    split at h
    · cases h
    · obtain rfl := List.mem_singleton.mp h
      exact .inl hx
  | .node (.reserved _) _ => cases h
  | .node (.box kind border) children =>
    rcases rings_from children h hx with hx | ⟨j, _, hj⟩
    · rcases List.mem_cons.mp hx with rfl | hx
      · exact .inr (List.suffix_refl _)
      · exact .inl hx
    · exact .inr ((List.suffix_cons j place).trans hj)

theorem rings_from {place : List Nat} {i : Nat} {around : List Ring} {l : Leaf} (rs : List (Rose Item))
    (h : l ∈ leavesFrom place i around rs) {x : Ring} (hx : x ∈ l.rings) :
    x ∈ around ∨ ∃ j, i ≤ j ∧ j :: place <:+ x.place := by
  match rs with
  | [] => cases h
  | r :: rs =>
    rcases List.mem_append.mp h with h | h
    · exact (rings_at r h hx).imp_right fun hx => ⟨i, Nat.le_refl _, hx⟩
    · exact (rings_from rs h hx).imp_right fun ⟨j, hij, hj⟩ => ⟨j, Nat.le_of_succ_le hij, hj⟩

end

/-- Neighbours among the children of a box have no boxes in common but those around. -/
theorem rings_apart {place : List Nat} {i : Nat} {around : List Ring} {l l' : Leaf} {r : Rose Item}
    {rs : List (Rose Item)} (h : l ∈ leavesAt (i :: place) around r)
    (h' : l' ∈ leavesFrom place (i + 1) around rs) {x : Ring} (hx : x ∈ l.rings) (hx' : x ∈ l'.rings) :
    x ∈ around := by
  rcases rings_at r h hx with hx | hi
  · exact hx
  · rcases rings_from rs h' hx' with hx' | ⟨j, hij, hj⟩
    · exact hx'
    · have hsame : i :: place = j :: place :=
        (List.suffix_of_suffix_length_le hi hj (by simp)).eq_of_length (by simp)
      have := List.head_eq_of_cons_eq hsame
      omega

mutual

/-- What is left of a plain tree is written as its texts. -/
theorem lays_at {place : List Nat} {around : List Ring} (r : Rose Item) (hplain : Plain r)
    (haround : ∀ x ∈ around, x.place.length < place.length) :
    Lays around (leavesAt place around r) fun w => emitAll w (clean r).toList := by
  match r with
  | .node (.text s) _ =>
    rw [leavesAt, clean]
    by_cases hs : s.isEmpty
    · simpa [hs, emitAll] using Lays.nil
    · have hne : s.toList ≠ [] := by simpa using hs
      simpa [hs, emitAll, emit] using Lays.text hplain hne
  | .node (.reserved _) _ => exact Lays.nil
  | .node (.box kind border) children =>
    obtain ⟨hkind, rfl, hchildren⟩ := hplain
    have hwithin : ∀ x ∈ (⟨place, kind⟩ :: around : List Ring), x.place.length < place.length + 1 := by
      intro x hx
      rcases List.mem_cons.mp hx with rfl | hx
      · exact Nat.lt_succ_self _
      · exact Nat.lt_succ_of_lt (haround x hx)
    have hlays := lays_from children hchildren 0 hwithin
    have hnew : (⟨place, kind⟩ : Ring) ∉ around := fun h => Nat.lt_irrefl _ (haround _ h)
    rw [leavesAt]
    rw [clean]
    cases hclean : cleanAll children with
    | nil =>
      rw [(leavesFrom_eq_nil place 0 _ children).mpr hclean]
      exact Lays.nil
    | cons l ls =>
      have hls := (leavesFrom_eq_nil place 0 (⟨place, kind⟩ :: around) children).not.mpr
        (hclean ▸ List.cons_ne_nil l ls)
      have hbox := hlays.box hls
        (fun l hl => cons_subset_from children hl List.mem_cons_self) hnew
      simp only [Option.toList_some, emitAll, emit_wrap hkind, emit_box hkind]
      rw [hclean] at hbox
      exact hbox

theorem lays_from {place : List Nat} {around : List Ring} (rs : List (Rose Item)) (hplain : AllPlain rs)
    (i : Nat) (haround : ∀ x ∈ around, x.place.length < place.length + 1) :
    Lays around (leavesFrom place i around rs) fun w => emitAll w (cleanAll rs) := by
  match rs with
  | [] => exact Lays.nil
  | r :: rs =>
    simp only [cleanAll_cons, emitAll_append]
    exact (lays_at r hplain.1 haround).append (lays_from rs hplain.2 (i + 1) haround)
      (fun l hl => around_subset r hl) (fun l hl => cons_subset_from rs hl)
      fun l hl l' hl' x hx hx' => rings_apart hl hl' hx hx'

end

/-- The lines of a plain tree, with line ends between them, are its texts with what separates neighbours; and
there are no lines without a text. -/
theorem lines_separated {r : Rose Item} (h : Plain r) :
    ['\n'].intercalate (lines r) = spaced (leaves r) ∧ (lines r = [] ↔ leaves r = []) := by
  have hlays : Lays [] (leaves r) fun w => emitAll w (clean r).toList := lays_at r h nofun
  have hnone : leaves r = [] ↔ clean r = none := leavesAt_eq_nil [] [] r
  rw [lines]
  cases hclean : clean r with
  | none =>
    rw [hnone.mpr hclean]
    exact ⟨rfl, iff_of_true rfl rfl⟩
  | some l =>
    have hne : leaves r ≠ [] := fun he => by simp [hnone.mp he] at hclean
    have hwrote := hlays.first _ (List.getLast?_eq_some_getLast hne)
    rw [hclean] at hwrote
    obtain ⟨hjoined, hlines⟩ := hwrote.finish
    exact ⟨hjoined, iff_of_false hlines hne⟩

/-- A block with two lines, of which the second holds an inline box, with an empty block and a place, and
with a text in a block of its own. -/
def mixedTree : Rose Item :=
  .node (.box .block none) [
    .node (.box .line none) [leaf "a"],
    .node (.box .line none) [leaf "b", .node (.box .inline none) [leaf "c"]],
    .node (.box .block none) [leaf ""],
    .node (.reserved false) [],
    .node (.box .block none) [leaf "d"]]

theorem lines_separated_of_mixed :
    Plain mixedTree ∧
      (['\n'].intercalate (lines mixedTree) = spaced (leaves mixedTree) ∧
        (lines mixedTree = [] ↔ leaves mixedTree = [])) ∧
      spaced (leaves mixedTree) = "a\nbc\n\nd".toList := by
  have hplain : Plain mixedTree := by
    simp [mixedTree, leaf, Plain, AllPlain]
  exact ⟨hplain, lines_separated hplain, by decide +kernel⟩

end Montage.Box
