import Mathlib
import Montage.Proofs.Box.Filling

/-!
Borders are rectangles. Main statement: where the width of joined texts is the sum of their widths, a border
around some lines has a row for each line, in order, and one for each edge, and every row is as wide as the
widest line and the widest piece of each side together. An edge is a frame's, or a pattern of characters that
take columns; the empty pattern draws an empty row, which is not so wide.
-/

namespace Montage.Text

/-- Texts of such characters join nothing: side by side they are as wide as both. -/
def Additive (C : Char → Prop) : Prop :=
  ∀ s t, (∀ c ∈ s, C c) → (∀ c ∈ t, C c) → width (s ++ t) = width s + width t

/-- Characters that ask nothing of the one before them, each by itself, form texts without joins. -/
theorem additive_of_before {C : Char → Prop} (columns : Char → Nat)
    (h : ∀ c, C c → before c {} = ((columns c : Int), {})) : Additive C := by
  have hmeasure : ∀ s, (∀ c ∈ s, C c) → measure s = ((((s.map columns).sum : Nat) : Int), {}) := by
    intro s hs
    induction s with
    | nil => rfl
    | cons c s ih =>
      obtain ⟨hc, hs⟩ := List.forall_mem_cons.mp hs
      rw [measure_cons, ih hs, h c hc, List.map_cons, List.sum_cons, Nat.cast_add]
  have hwidth : ∀ s, (∀ c ∈ s, C c) → width s = (s.map columns).sum := by
    intro s hs
    rw [width, hmeasure s hs, Int.toNat_natCast]
  intro s t hs ht
  rw [hwidth s hs, hwidth t ht, hwidth (s ++ t) (List.forall_mem_append.mpr ⟨hs, ht⟩), List.map_append,
    List.sum_append]

end Montage.Text

namespace Montage.Box

open Text (width)

variable {C : Char → Prop} {s t pattern : List Char} {lines : List (List Char)} {n : Nat}

/-! Columns of a single character. -/

theorem charWidth_of_cells {c : Char} (h : 0 < cells c) : Text.charWidth c = some (cells c) := by
  cases hwidth : Text.charWidth c with
  | none => simp [cells, hwidth] at h
  | some k => simp [cells, hwidth]

/-- Up to the no-break space, what is not a control takes one column. -/
theorem cells_of_latin {c : Char} (h : 0 < cells c) (hlow : c.toNat ≤ 0xA0) : cells c = 1 := by
  have hwidth := charWidth_of_cells h
  have hcontrol : Text.isControl c = false := by
    by_contra hcontrol
    simp [Text.charWidth, hcontrol] at hwidth
  by_cases hascii : c.toNat < 127
  · simpa [Text.charWidth, hcontrol, hascii] using hwidth.symm
  · have hblank : c = '\u00A0' := by
      simp only [Text.isControl, Text.between, Bool.or_eq_false_iff, Bool.and_eq_false_iff,
        decide_eq_false_iff_not] at hcontrol
      exact Char.toNat_inj.mp (show c.toNat = 0xA0 by omega)
    rw [hblank]
    decide +kernel

theorem before_of_cells {c : Char} (h : 0 < cells c) : (Text.before c {}).1 = cells c := by
  have hnot : ∀ d, cells d = 0 → (c == d) = false := by
    intro d hd
    rw [beq_eq_false_iff_ne]
    rintro rfl
    omega
  have hfeed := hnot '\n' (by decide)
  have hsign : (Text.Sign.ordinary == Text.Sign.lineFeed) = false := by decide
  by_cases hlow : c.toNat ≤ 0xA0
  · simp [Text.before, Text.beforeUncoloured, hfeed, hsign, hlow, cells_of_latin h hlow]
  · -- the selectors take no column themselves
    have hcolour := hnot Text.colourSelector (by decide)
    have hplain := hnot Text.plainSelector (by decide)
    have hwide := hnot Text.wideSelector (by decide)
    simp [Text.before, Text.beforeUncoloured, hfeed, hsign, hlow, hcolour, hplain, hwide,
      Text.beforeSign, Text.Sign.crossesSelector, Text.ligature?, Text.pictograph?, Text.alone,
      charWidth_of_cells h]

/-- A character that takes columns in a pattern takes as many as a text. -/
theorem width_singleton {c : Char} (h : 0 < cells c) : width [c] = cells c := by
  rw [width, Text.measure_cons]
  change ((Text.before c {}).1 + 0).toNat = cells c
  rw [before_of_cells h, Int.add_zero, Int.toNat_natCast]

theorem cells_blank : cells ' ' = 1 := by
  decide

/-! Texts without joins. -/

/-- They are as wide as their characters. -/
theorem width_eq_sum (hC : Text.Additive C) (h : ∀ c ∈ s, C c ∧ 0 < cells c) :
    width s = (s.map cells).sum := by
  induction s with
  | nil => rfl
  | cons c s ih =>
    obtain ⟨⟨hc, hcells⟩, hs⟩ := List.forall_mem_cons.mp h
    have hjoin := hC [c] s (by simpa using hc) fun d hd => (hs d hd).1
    rw [List.singleton_append, width_singleton hcells, ih hs] at hjoin
    rw [hjoin, List.map_cons, List.sum_cons]

theorem mem_spaces {c : Char} (h : c ∈ spaces n) : c = ' ' :=
  List.eq_of_mem_replicate h

theorem width_spaces (hC : Text.Additive C) (hblank : C ' ') (n : Nat) : width (spaces n) = n := by
  have hspaces : ∀ c ∈ spaces n, C c ∧ 0 < cells c := by
    intro c hc
    rw [mem_spaces hc, cells_blank]
    exact ⟨hblank, Nat.one_pos⟩
  rw [width_eq_sum hC hspaces, Filling.sum_cells_spaces]

theorem forall_mem_pad (hblank : C ' ') (hs : ∀ c ∈ s, C c) (n : Nat) : ∀ c ∈ pad s n, C c := by
  intro c hc
  rcases List.mem_append.mp hc with hc | hc
  · exact hs c hc
  · rwa [mem_spaces hc]

/-- A text that fits is padded to all the columns. -/
theorem width_pad (hC : Text.Additive C) (hblank : C ' ') (hs : ∀ c ∈ s, C c) (hfits : width s ≤ n) :
    width (pad s n) = n := by
  have hspaces : ∀ c ∈ spaces (n - width s), C c := fun c hc => by rwa [mem_spaces hc]
  rw [pad, hC s _ hs hspaces, width_spaces hC hblank]
  exact Nat.add_sub_cancel' hfits

/-! The widest of some lines. -/

theorem le_foldl_width (lines : List (List Char)) (w : Nat) :
    w ≤ lines.foldl (fun w l => max w (width l)) w := by
  induction lines generalizing w with
  | nil => exact Nat.le_refl w
  | cons l lines ih => exact Nat.le_trans (Nat.le_max_left w (width l)) (ih _)

/-- No line is wider. -/
theorem width_le_maxWidth (h : s ∈ lines) : width s ≤ maxWidth lines := by
  suffices hfold : ∀ w, width s ≤ lines.foldl (fun w l => max w (width l)) w from hfold 0
  induction lines with
  | nil => simp at h
  | cons l lines ih =>
    intro w
    rcases List.mem_cons.mp h with rfl | h
    · exact Nat.le_trans (Nat.le_max_right w (width s)) (le_foldl_width lines _)
    · exact ih h _

/-! Edges. -/

namespace Filling

variable {total : Nat} {f : Filling} {out : List Char}

/-- What comes next and what is drawn are such characters. -/
structure Within (C : Char → Prop) (f : Filling) : Prop where
  rest : ∀ c ∈ f.rest, C c
  drawn : ∀ c ∈ f.drawn, C c

theorem Within.step (h : f.Within C) (hblank : C ' ') (hpattern : ∀ c ∈ pattern, C c) (total : Nat) :
    (∃ f', f.step pattern total = .inl f' ∧ f'.Within C) ∨
      ∃ out, f.step pattern total = .inr out ∧ ∀ c ∈ out, C c := by
  obtain ⟨rest, drawn, filled⟩ := f
  obtain ⟨hrest, hdrawn⟩ := h
  cases rest with
  | nil => exact .inl ⟨_, step_nil drawn filled, hpattern, hdrawn⟩
  | cons c rest =>
    obtain ⟨hc, hrest⟩ := List.forall_mem_cons.mp hrest
    rcases step_cons pattern total c rest drawn filled with ⟨-, h⟩ | ⟨-, h⟩ | ⟨-, h⟩
    · refine .inr ⟨_, h, List.forall_mem_append.mpr ⟨by simpa using hdrawn, fun d hd => ?_⟩⟩
      rwa [mem_spaces hd]
    · exact .inr ⟨_, h, by simpa [hc, or_imp, forall_and] using hdrawn⟩
    · exact .inl ⟨_, h, hrest, List.forall_mem_cons.mpr ⟨hc, hdrawn⟩⟩

/-- Nothing is drawn but characters of the pattern and blanks. -/
theorem Within.ends (h : f.Within C) (hblank : C ' ') (hpattern : ∀ c ∈ pattern, C c)
    (hends : Ends pattern total f out) : ∀ c ∈ out, C c :=
  hends.kept (fun _ h => h.step hblank hpattern total) h

end Filling

/-- A pattern of characters that take columns fills as many as there are. -/
theorem fillColumns_of_cells (hC : Text.Additive C) (hblank : C ' ')
    (hpattern : ∀ c ∈ pattern, C c ∧ 0 < cells c) (hsome : pattern ≠ []) (total : Nat) :
    FillEnds pattern total (fillColumns pattern total) ∧ width (fillColumns pattern total) = total := by
  obtain ⟨c, hc⟩ := List.exists_mem_of_ne_nil pattern hsome
  have hwidth : width pattern ≠ 0 := by
    rw [width_eq_sum hC hpattern]
    have hle : cells c ≤ (pattern.map cells).sum := List.single_le_sum (by simp) _ (List.mem_map_of_mem hc)
    have hpos := (hpattern c hc).2
    omega
  obtain ⟨out, hends⟩ := Filling.ends_of_cells ⟨c, hc, (hpattern c hc).2⟩ (Nat.zero_le total) pattern []
  have hout : fillColumns pattern total = out := by
    simpa [fillColumns, hwidth] using hends.repeated
  have hwithin : ∀ c ∈ out, C c ∧ 0 < cells c := by
    refine Filling.Within.ends ⟨hpattern, by simp⟩ ⟨hblank, ?_⟩ hpattern hends
    rw [cells_blank]
    exact Nat.one_pos
  rw [hout]
  refine ⟨by simpa [FillEnds, hwidth] using hends, ?_⟩
  rw [width_eq_sum hC hwithin, Filling.Counted.ends ⟨rfl, Nat.zero_le _⟩ hends]

/-- The edge of a frame fills all columns, if it has some for its corners. -/
theorem width_frameEdge (hC : Text.Additive C) (hcorner : C '+') (hdash : C '-') {content left right : Nat}
    (hroom : 2 ≤ content + left + right) :
    width (frameEdge content left right) = content + left + right := by
  have hcells : cells '+' = 1 ∧ cells '-' = 1 := by decide
  have hchars : ∀ c ∈ frameEdge content left right, C c ∧ 0 < cells c := by
    intro c hc
    simp only [frameEdge, List.mem_cons, List.mem_append, List.mem_replicate, List.not_mem_nil,
      or_false] at hc
    rcases hc with rfl | ⟨-, rfl⟩ | rfl
    · exact ⟨hcorner, by omega⟩
    · exact ⟨hdash, by omega⟩
    · exact ⟨hcorner, by omega⟩
  rw [width_eq_sum hC hchars]
  simp only [frameEdge, List.map_cons, List.map_append, List.map_replicate, List.map_nil, List.sum_cons,
    List.sum_append, List.sum_replicate, List.sum_nil, hcells, smul_eq_mul]
  omega

/-! The rectangle. -/

/-- What stands beside one of so many lines. -/
def pieceAt (side : Option Side) (index total : Nat) : List Char :=
  (side.map fun s => s.at index total).getD []

/-- Columns of a border around some lines. -/
def Border.columns (b : Border) (content : List (List Char)) : Nat :=
  maxWidth content + maxWidth (sidePieces b.left content.length) +
    maxWidth (sidePieces b.right content.length)

/-- The rows between the edges: the padded left side, the padded line and the padded right side. -/
def Border.rows (b : Border) (content : List (List Char)) : List (List Char) :=
  content.mapIdx fun index line =>
    pad (pieceAt b.left index content.length) (maxWidth (sidePieces b.left content.length)) ++
      pad line (maxWidth content) ++
      pad (pieceAt b.right index content.length) (maxWidth (sidePieces b.right content.length))

/-- The row of an edge of a border around some lines. -/
def Border.edgeRow (b : Border) (content : List (List Char)) (e : Edge) : List Char :=
  e.across (maxWidth content) (maxWidth (sidePieces b.left content.length))
    (maxWidth (sidePieces b.right content.length))

/-- An edge whose row is as wide as the others: a pattern of some characters that take columns, or the edge
of a frame. -/
def Border.Spanned (C : Char → Prop) (b : Border) (e : Edge) : Prop :=
  (∃ pattern, e = .fill pattern ∧ pattern ≠ [] ∧ ∀ c ∈ pattern, C c ∧ 0 < cells c) ∨
    (b = .frame ∧ e = .perWidth frameEdge ∧ C '+' ∧ C '-')

theorem edgeRow_fill (b : Border) (content : List (List Char)) (pattern : List Char) :
    b.edgeRow content (.fill pattern) = fillColumns pattern (b.columns content) := rfl

theorem sidePieces_eq (side : Option Side) (total : Nat) :
    sidePieces side total = (List.range total).map (pieceAt side · total) := rfl

theorem pieceAt_mem {side : Option Side} {index total : Nat} (h : index < total) :
    pieceAt side index total ∈ sidePieces side total :=
  List.mem_map.mpr ⟨index, List.mem_range.mpr h, rfl⟩

/-- Around some lines, the edges stand above and below the rows. -/
theorem apply_eq_rows {content : List (List Char)} (h : content ≠ []) (b : Border) :
    b.apply content =
      (b.top.map (b.edgeRow content)).toList ++ b.rows content ++
        (b.bottom.map (b.edgeRow content)).toList := by
  have hrows : ((sidePieces b.left content.length).zip
      (content.zip (sidePieces b.right content.length))).map (fun piece =>
        pad piece.1 (maxWidth (sidePieces b.left content.length)) ++ pad piece.2.1 (maxWidth content) ++
          pad piece.2.2 (maxWidth (sidePieces b.right content.length))) = b.rows content := by
    apply List.ext_getElem
    · simp [Border.rows, sidePieces]
    · intro i hi _
      simp [Border.rows, sidePieces_eq]
  have hsome : content.isEmpty = false := by simpa using h
  simp only [Border.apply, hsome, Bool.false_eq_true, if_false, hrows]
  rfl

section

variable {b : Border} {content : List (List Char)}

theorem width_of_rows (hC : Text.Additive C) (hblank : C ' ') (hlines : ∀ l ∈ content, ∀ c ∈ l, C c)
    (hsides : ∀ side ∈ [b.left, b.right], ∀ i < content.length,
      ∀ c ∈ pieceAt side i content.length, C c) :
    ∀ row ∈ b.rows content, width row = b.columns content := by
  intro row hrow
  obtain ⟨i, hi, rfl⟩ := List.mem_mapIdx.mp hrow
  have hleft := hsides b.left (by simp) i hi
  have hright := hsides b.right (by simp) i hi
  have hline : ∀ c ∈ content[i], C c := hlines _ (List.getElem_mem hi)
  have hpad := @forall_mem_pad C
  rw [hC _ _ (List.forall_mem_append.mpr ⟨hpad hblank hleft _, hpad hblank hline _⟩)
      (hpad hblank hright _),
    hC _ _ (hpad hblank hleft _) (hpad hblank hline _),
    width_pad hC hblank hleft (width_le_maxWidth (pieceAt_mem hi)),
    width_pad hC hblank hline (width_le_maxWidth (List.getElem_mem hi)),
    width_pad hC hblank hright (width_le_maxWidth (pieceAt_mem hi)), Border.columns]
  omega

/-- Around some lines, a frame has room for its corners. -/
theorem two_le_columns_frame (h : content ≠ []) : 2 ≤ Border.frame.columns content := by
  have hpiece : pieceAt Border.frame.left 0 content.length ∈ sidePieces Border.frame.left content.length :=
    pieceAt_mem (List.length_pos_iff.mpr h)
  have hwidth : width (pieceAt Border.frame.left 0 content.length) = 2 := by
    change width ['|', ' '] = 2
    decide
  have hle := width_le_maxWidth hpiece
  rw [Border.columns]
  omega

theorem width_edgeRow (hC : Text.Additive C) (hblank : C ' ') (hcontent : content ≠ []) {e : Edge}
    (h : b.Spanned C e) : width (b.edgeRow content e) = b.columns content := by
  rcases h with ⟨pattern, rfl, hsome, hpattern⟩ | ⟨rfl, rfl, hcorner, hdash⟩
  · exact (fillColumns_of_cells hC hblank hpattern hsome _).2
  · exact width_frameEdge hC hcorner hdash (two_le_columns_frame hcontent)

/-- A border around some lines draws a row for each of them, in order, and one for each edge, and all rows
are as wide as the widest line and the widest piece of each side together. Its patterns come to an end. -/
theorem apply_rectangle (hC : Text.Additive C) (hblank : C ' ') (hcontent : content ≠ [])
    (hlines : ∀ l ∈ content, ∀ c ∈ l, C c)
    (hsides : ∀ side ∈ [b.left, b.right], ∀ i < content.length,
      ∀ c ∈ pieceAt side i content.length, C c)
    (hedges : ∀ edge ∈ [b.top, b.bottom], ∀ e, edge = some e → b.Spanned C e) :
    b.apply content =
        (b.top.map (b.edgeRow content)).toList ++ b.rows content ++
          (b.bottom.map (b.edgeRow content)).toList ∧
      (∀ row ∈ b.apply content, width row = b.columns content) ∧
      ∀ pattern, some (.fill pattern) ∈ [b.top, b.bottom] →
        FillEnds pattern (b.columns content) (b.edgeRow content (.fill pattern)) := by
  have hrows := apply_eq_rows hcontent b
  have hedge : ∀ edge ∈ [b.top, b.bottom], ∀ row ∈ (edge.map (b.edgeRow content)).toList,
      width row = b.columns content := by
    intro edge hedge row hrow
    obtain ⟨e, he, rfl⟩ := Option.map_eq_some_iff.mp (Option.mem_toList.mp hrow)
    exact width_edgeRow hC hblank hcontent (hedges edge hedge e he)
  refine ⟨hrows, ?_, ?_⟩
  · intro row hrow
    rw [hrows, List.append_assoc] at hrow
    rcases List.mem_append.mp hrow with htop | hrow
    · exact hedge b.top (by simp) row htop
    · rcases List.mem_append.mp hrow with hmiddle | hbottom
      · exact width_of_rows hC hblank hlines hsides row hmiddle
      · exact hedge b.bottom (by simp) row hbottom
  · intro pattern hfill
    rcases hedges _ hfill _ rfl with ⟨p, hp, hsome, hpattern⟩ | ⟨-, hp, -⟩
    · cases hp
      exact (fillColumns_of_cells hC hblank hpattern hsome _).1
    · cases hp

end

/-- Printable ASCII and one character of two columns. -/
def IsPlainSign (c : Char) : Prop :=
  (32 ≤ c.toNat ∧ c.toNat < 127) ∨ c = '世'

theorem additive_plainSign : Text.Additive IsPlainSign := by
  apply Text.additive_of_before fun c => if c.toNat < 127 then 1 else 2
  rintro c (⟨lo, hi⟩ | rfl)
  · simp [Text.before_of_ascii lo hi, hi]
  · have hbefore : Text.before '世' {} = (2, {}) := by decide +kernel
    simp [hbefore]

/-- A pointer at the first line, and an edge of a wide and a narrow character that does not fit evenly. -/
def pointedBorder : Border where
  left := some (.bullet ['>', ' '] [])
  right := some (.text ['|', '|'])
  top := some (.fill ['世', '-'])

theorem apply_rectangle_of_pointed :
    (∀ row ∈ pointedBorder.apply [['世', 'a'], ['a'], []], width row = 7) ∧
      pointedBorder.apply [['世', 'a'], ['a'], []] =
        fillColumns ['世', '-'] 7 :: ["> 世a||", "  a  ||", "     ||"].map String.toList := by
  have hsides : ∀ side ∈ [pointedBorder.left, pointedBorder.right], ∀ i < 3,
      ∀ c ∈ pieceAt side i 3, IsPlainSign c := by
    intro side hside i _
    simp only [pointedBorder, List.mem_cons, List.not_mem_nil, or_false] at hside
    rcases hside with rfl | rfl
    · rcases Nat.eq_zero_or_pos i with rfl | hi
      · simp [pieceAt, Side.at, Side.bullet, IsPlainSign]
      · simp [pieceAt, Side.at, Side.bullet, Nat.ne_of_gt hi]
    · simp [pieceAt, Side.at, IsPlainSign]
  have hcells : cells '世' = 2 ∧ cells '-' = 1 := by decide +kernel
  have hedges : ∀ edge ∈ [pointedBorder.top, pointedBorder.bottom], ∀ e, edge = some e →
      pointedBorder.Spanned IsPlainSign e := by
    rintro edge hedge e rfl
    have he : e = .fill ['世', '-'] := by simpa [pointedBorder] using hedge
    exact .inl ⟨['世', '-'], he, by simp, by simp [IsPlainSign, hcells]⟩
  have hlines : ∀ l ∈ [['世', 'a'], ['a'], []], ∀ c ∈ l, IsPlainSign c := by simp [IsPlainSign]
  obtain ⟨happly, hwidth, -⟩ := apply_rectangle (b := pointedBorder) additive_plainSign
    (by simp [IsPlainSign]) (List.cons_ne_nil _ _) hlines hsides hedges
  have hcolumns : pointedBorder.columns [['世', 'a'], ['a'], []] = 7 := by decide +kernel
  have hrows : pointedBorder.rows [['世', 'a'], ['a'], []] =
      ["> 世a||", "  a  ||", "     ||"].map String.toList := by
    decide +kernel
  have hedge : pointedBorder.edgeRow [['世', 'a'], ['a'], []] (.fill ['世', '-']) =
      fillColumns ['世', '-'] 7 := by
    rw [edgeRow_fill, hcolumns]
  refine ⟨fun row hrow => (hwidth row hrow).trans hcolumns, ?_⟩
  have htop : pointedBorder.top = some (.fill ['世', '-']) := rfl
  have hbottom : pointedBorder.bottom = none := rfl
  rw [happly, hrows, htop, hbottom, Option.map_some, hedge]
  rfl

/-- The empty pattern has none but characters that take columns, and draws an empty row above a line. -/
theorem apply_emptyPattern_not_rectangle :
    Text.Additive IsPlainSign ∧ (∀ c ∈ ([] : List Char), IsPlainSign c ∧ 0 < cells c) ∧ IsPlainSign 'a' ∧
      ({ top := some (.fill []) } : Border).apply [['a']] = [[], ['a']] ∧
      ¬ ∃ columns, ∀ row ∈ ({ top := some (.fill []) } : Border).apply [['a']], width row = columns := by
  have happly : ({ top := some (.fill []) } : Border).apply [['a']] = [[], ['a']] := by
    have hrows : ({ top := some (.fill []) } : Border).rows [['a']] = [['a']] := by decide +kernel
    have hwidth : width [] = 0 := rfl
    rw [apply_eq_rows (by simp), hrows]
    simp [Border.edgeRow, Edge.across, fillColumns, hwidth]
  refine ⟨additive_plainSign, by simp, by simp [IsPlainSign], happly, ?_⟩
  rintro ⟨columns, h⟩
  rw [happly] at h
  have hempty : width [] = columns := h [] (by simp)
  have hline : width ['a'] = columns := h ['a'] (by simp)
  rw [← hempty] at hline
  exact absurd hline (by decide)

end Montage.Box
