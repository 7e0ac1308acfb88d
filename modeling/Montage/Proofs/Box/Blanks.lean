import Montage.Proofs.Box.Bullets
import Montage.Proofs.Box.Wrappers

/-!
Boxes with a border around nothing to be seen. Such a box writes nothing, but still asks for the break that
its kind asks for. Main statement: it is as if it were not there, wherever something else stands in the box
around it, just if its kind asks for no break.
-/

namespace Montage.Box

/-! Places in a tree. -/

/-- A box around a place, with what stands in it before and behind the place. -/
structure Enclosure where
  kind : Kind
  border : Option Border
  before : List (Rose Item)
  behind : List (Rose Item)

/-- Whether what is asked for in a box reaches the writer outside: it does unless the box is a rectangle. -/
def isOpen (kind : Kind) (border : Option Border) : Bool :=
  border.isNone && kind ≠ .inlineBlock

/-- What a box writes, by what is written in it. -/
def drawBox (kind : Kind) (border : Option Border) (inside : Writer → Writer) (w : Writer) : Writer :=
  if isOpen kind border then (inside (w.request kind.before)).request kind.after
  else
    let rectangle := bordered border (inside .start).finish
    if kind = .block then ((w.request .blank).rows rectangle).request .blank
    else (w.place rectangle).request kind.after

namespace Enclosure

/-- The box with some trees at the place. -/
def around (e : Enclosure) (rs : List (Rose Item)) : Rose Item :=
  .node (.box e.kind e.border) (e.before ++ rs ++ e.behind)

/-- Whether nothing is left of what else stands in the box. -/
def isEmpty (e : Enclosure) : Bool :=
  (prunedAll e.before ++ prunedAll e.behind).isEmpty

/-- What the box writes, by what is written at the place. -/
def draw (e : Enclosure) (piece : Writer → Writer) : Writer → Writer :=
  drawBox e.kind e.border fun w => emitAll (piece (emitAll w (prunedAll e.before))) (prunedAll e.behind)

/-- The break that the box asks for if nothing but a break is asked for in it. -/
def asks (e : Enclosure) (b : Break) : Break :=
  (if isOpen e.kind e.border then b else .none).join e.kind.after

end Enclosure

/-- Some trees with boxes around them, from the inside out. -/
def within (es : List Enclosure) (rs : List (Rose Item)) : List (Rose Item) :=
  es.foldl (fun rs e => [e.around rs]) rs

/-- A tree with some trees at a place, by the boxes between the place and the root, from the inside out. -/
def placed (es : List Enclosure) (root : Enclosure) (rs : List (Rose Item)) : Rose Item :=
  root.around (within es rs)

/-- What a tree writes, by what is written at a place in it. -/
def drawn (es : List Enclosure) (piece : Writer → Writer) : Writer → Writer :=
  es.foldl (fun piece e => e.draw piece) piece

/-- The boxes around a place that hold nothing else, and go with what stands there. -/
def alone (es : List Enclosure) : List Enclosure :=
  es.takeWhile Enclosure.isEmpty

/-- The boxes around a place from the first one on that holds something else. -/
def shared (es : List Enclosure) : List Enclosure :=
  es.dropWhile Enclosure.isEmpty

/-! What boxes write. -/

theorem prunedAll_append (rs rs' : List (Rose Item)) : prunedAll (rs ++ rs') = prunedAll rs ++ prunedAll rs' := by
  induction rs with
  | nil => rfl
  | cons r rs ih => rw [List.cons_append, prunedAll, prunedAll, ih, List.append_assoc]

theorem Writer.request_join (w : Writer) (a b : Break) : (w.request a).request b = w.request (a.join b) := by
  obtain ⟨above, current, pending⟩ := w
  cases h : Writer.hasContent ⟨above, current, pending⟩ with
  | false => simp [Writer.request, h]
  | true =>
    have hany : ∀ p, Writer.hasContent ⟨above, current, p⟩ = true := fun _ => h
    cases pending <;> cases a <;> cases b <;> simp [Writer.request, hany, Break.rank, Break.join]

theorem emit_eq_drawBox (w : Writer) (kind : Kind) (border : Option Border) (ls : List Layout) :
    emit w (.box kind border ls) = drawBox kind border (fun w => emitAll w ls) w := by
  cases kind <;> cases border <;> simp [emit, drawBox, isOpen, Kind.before, Kind.after]

section Boxes

variable {kind : Kind} {border : Option Border} {e : Enclosure} {es : List Enclosure}
  {kids rs : List (Rose Item)} {b : Break} {inside : Writer → Writer}

theorem prunedAll_box (h : prunedAll kids ≠ []) :
    prunedAll [.node (.box kind border) kids] = [.box kind border (prunedAll kids)] := by
  rw [prunedAll, prunedAll, pruned]
  split
  · exact absurd ‹_› h
  · rfl

/-- A box with nothing to be seen in it writes nothing, and asks for the break of its kind. -/
theorem drawBox_blank (hopen : isOpen kind border = false) (h : (inside .start).finish = []) (w : Writer) :
    drawBox kind border inside w = w.request kind.after := by
  have hrows : bordered border (inside .start).finish = [] := by
    rw [h]
    cases border <;> rfl
  rw [drawBox, if_neg (by simp [hopen]), hrows]
  split_ifs with hkind
  · subst hkind
    exact w.request_join .blank .blank
  · rfl

/-- A break that is asked for in a box with nothing else in it. -/
theorem draw_request (h : e.isEmpty = true) (b : Break) : e.draw (·.request b) = (·.request (e.asks b)) := by
  funext w
  obtain ⟨hbefore, hbehind⟩ := List.append_eq_nil_iff.mp (List.isEmpty_iff.mp h)
  simp only [Enclosure.draw, hbefore, hbehind, emitAll]
  cases hopen : isOpen e.kind e.border with
  | true =>
    rw [drawBox, if_pos hopen, Writer.request_join, Writer.request_join, Enclosure.asks, if_pos hopen]
    cases e.kind <;> simp [Kind.before, Kind.after]
  | false =>
    rw [drawBox_blank hopen rfl, Enclosure.asks, if_neg (by simp [hopen]), Break.none_join]

theorem drawn_request (es : List Enclosure) (b : Break) :
    drawn es (·.request b) = drawn (shared es) (·.request ((alone es).foldl (fun b e => e.asks b) b)) := by
  induction es generalizing b with
  | nil => rfl
  | cons e es ih =>
    cases h : e.isEmpty with
    | true =>
      simp only [drawn, List.foldl_cons, draw_request h, shared, alone, List.dropWhile_cons, List.takeWhile_cons,
        h, ↓reduceIte]
      exact ih (e.asks b)
    | false => simp [shared, alone, h]

theorem pruned_around (e : Enclosure) (rs : List (Rose Item)) :
    prunedAll [e.around rs] = [] ↔ e.isEmpty = true ∧ prunedAll rs = [] := by
  have hkids : prunedAll (e.before ++ rs ++ e.behind) = [] ↔ e.isEmpty = true ∧ prunedAll rs = [] := by
    simp [prunedAll_append, Enclosure.isEmpty, and_comm, and_left_comm]
  rw [← hkids]
  constructor
  · intro h
    by_contra hne
    rw [Enclosure.around, prunedAll_box hne] at h
    cases h
  · intro h
    rw [Enclosure.around, prunedAll, prunedAll, pruned, h]
    rfl

theorem emitAll_around (h : prunedAll [e.around rs] ≠ []) :
    (fun w => emitAll w (prunedAll [e.around rs])) = e.draw fun w => emitAll w (prunedAll rs) := by
  have hne : prunedAll (e.before ++ rs ++ e.behind) ≠ [] := by
    intro hnil
    apply h
    rw [Enclosure.around, prunedAll, prunedAll, pruned, hnil]
    rfl
  funext w
  rw [Enclosure.around, prunedAll_box hne, emitAll, emitAll, emit_eq_drawBox]
  simp only [Enclosure.draw, prunedAll_append, emitAll_append]

theorem prunedAll_placed (es : List Enclosure) (root : Enclosure) (rs : List (Rose Item)) :
    prunedAll [placed es root rs] = prunedAll (within (es ++ [root]) rs) := by
  rw [within, List.foldl_append]
  rfl

/-- What stands at a place is written there, if anything is left of it. -/
theorem emitAll_within (es : List Enclosure) (h : prunedAll rs ≠ []) :
    (fun w => emitAll w (prunedAll (within es rs))) = drawn es fun w => emitAll w (prunedAll rs) := by
  induction es generalizing rs with
  | nil => rfl
  | cons e es ih =>
    have hne : prunedAll [e.around rs] ≠ [] := fun hnil => h ((pruned_around e rs).mp hnil).2
    rw [within, List.foldl_cons, ← within, ih hne, emitAll_around hne]
    rfl

/-- If nothing is left of what stands at a place, nothing is left of the boxes that hold nothing else. -/
theorem emitAll_within_nil (es : List Enclosure) (h : prunedAll rs = []) :
    (fun w => emitAll w (prunedAll (within es rs))) = drawn (shared es) id := by
  induction es generalizing rs with
  | nil =>
    rw [within, List.foldl_nil, h]
    rfl
  | cons e es ih =>
    cases hempty : e.isEmpty with
    | true =>
      rw [within, List.foldl_cons, ← within, ih ((pruned_around e rs).mpr ⟨hempty, h⟩), shared, shared,
        List.dropWhile_cons_of_pos hempty]
    | false =>
      have hne : prunedAll [e.around rs] ≠ [] := by simp [pruned_around, hempty]
      have hid : (fun w => emitAll w (prunedAll rs)) = id := by
        rw [h]
        rfl
      rw [within, List.foldl_cons, ← within, emitAll_within es hne, emitAll_around hne, hid, shared,
        List.dropWhile_cons_of_neg (by simp [hempty])]
      rfl

end Boxes

/-! Borders around blank content. -/

/-- A box with a border. -/
def framed (kind : Kind) (border : Border) (children : List (Rose Item)) : Rose Item :=
  .node (.box kind (some border)) children

/-- The break that a framed box without rows still asks for, by the boxes around that hold nothing else. It
asks for none if nothing at all is left of its content, since it is dropped then. -/
def remnant (kind : Kind) (children : List (Rose Item)) (shells : List Enclosure) : Break :=
  if prunedAll children = [] then .none else shells.foldl (fun b e => e.asks b) kind.after

theorem lines_of_footed {r : Rose Item} (h : Footed r) : lines r = (emitAll .start (prunedAll [r])).finish := by
  have hclean : lines r = (emitAll .start (clean r).toList).finish := by
    rw [lines]
    cases clean r <;> rfl
  rw [hclean, (redraws_clean r h).written, prunedAll, prunedAll, List.append_nil]

mutual

theorem footed_of_pruned (r : Rose Item) (h : pruned r = none) : Footed r := by
  match r with
  | .node (.text _) _ => trivial
  | .node (.reserved _) _ => trivial
  | .node (.box _ border) children =>
    have hnil : prunedAll children = [] := by
      rw [pruned] at h
      split at h
      · assumption
      · cases h
    refine ⟨fun b _ => ?_, allFooted_of_prunedAll children hnil⟩
    rw [hnil]
    exact nofun

/-- Borders around nothing draw nothing. -/
theorem allFooted_of_prunedAll (rs : List (Rose Item)) (h : prunedAll rs = []) : AllFooted rs := by
  match rs with
  | [] => trivial
  | r :: rs =>
    rw [prunedAll, List.append_eq_nil_iff] at h
    exact ⟨footed_of_pruned r (by simpa using h.1), allFooted_of_prunedAll rs h.2⟩

end

theorem allFooted_append {rs rs' : List (Rose Item)} (h : AllFooted rs) (h' : AllFooted rs') :
    AllFooted (rs ++ rs') := by
  induction rs with
  | nil => exact h'
  | cons r rs ih => exact ⟨h.1, ih h.2⟩

/-- Trees that write nothing, and draw no empty rows. -/
structure Traceless (rs : List (Rose Item)) : Prop where
  footed : AllFooted rs
  written : emitAll .start (prunedAll rs) = .start

section Blank

variable {kind : Kind} {border : Border} {e : Enclosure} {children rs : List (Rose Item)}

theorem Traceless.around (h : Traceless rs) (he : e.isEmpty = true) : Traceless [e.around rs] := by
  obtain ⟨hbefore, hbehind⟩ := List.append_eq_nil_iff.mp (List.isEmpty_iff.mp he)
  have hkids : prunedAll (e.before ++ rs ++ e.behind) = prunedAll rs := by
    simp [prunedAll_append, hbefore, hbehind]
  constructor
  · refine ⟨⟨fun b _ => ?_, ?_⟩, trivial⟩
    · rw [hkids, h.written]
      exact nofun
    · exact allFooted_append (allFooted_append (allFooted_of_prunedAll _ hbefore) h.footed)
        (allFooted_of_prunedAll _ hbehind)
  · by_cases hnil : prunedAll [e.around rs] = []
    · rw [hnil]
      rfl
    · have hdraw := congrFun (emitAll_around hnil) .start
      simp only [Enclosure.draw, hbefore, hbehind, emitAll] at hdraw
      rw [hdraw]
      cases hopen : isOpen e.kind e.border with
      | true => rw [drawBox, if_pos hopen, Writer.request_start, h.written, Writer.request_start]
      | false => rw [drawBox_blank hopen (by rw [h.written]; rfl), Writer.request_start]

theorem Traceless.within {shells : List Enclosure} (h : Traceless rs)
    (hshells : ∀ e ∈ shells, e.isEmpty = true) : Traceless (within shells rs) := by
  induction shells generalizing rs with
  | nil => exact h
  | cons e shells ih =>
    obtain ⟨he, hshells⟩ := List.forall_mem_cons.mp hshells
    exact ih (h.around he) hshells

theorem rows_of_blank (hfoot : AllFooted children) (hblank : lines (.node (.box .inline none) children) = []) :
    (emitAll .start (prunedAll children)).finish = [] := by
  rwa [lines_box (by simp), (redraws_cleanAll children hfoot).written] at hblank

theorem prunedAll_framed (h : prunedAll children = []) : prunedAll [framed kind border children] = [] := by
  rw [framed, prunedAll, prunedAll, pruned, h]
  rfl

/-- Blank content with a border around writes a break, if anything is left of it. -/
theorem emitAll_framed (hfoot : AllFooted children) (hblank : lines (.node (.box .inline none) children) = [])
    (hne : prunedAll children ≠ []) :
    (fun w => emitAll w (prunedAll [framed kind border children])) = (·.request kind.after) := by
  funext w
  rw [framed, prunedAll_box hne, emitAll, emitAll, emit_eq_drawBox]
  exact drawBox_blank (by simp [isOpen]) (rows_of_blank hfoot hblank) w

theorem traceless_framed (hfoot : AllFooted children)
    (hblank : lines (.node (.box .inline none) children) = []) : Traceless [framed kind border children] := by
  constructor
  · refine ⟨⟨fun b _ => ?_, hfoot⟩, trivial⟩
    rw [rows_of_blank hfoot hblank]
    exact nofun
  · by_cases hnil : prunedAll children = []
    · rw [prunedAll_framed hnil]
      rfl
    · exact congrFun (emitAll_framed hfoot hblank hnil) .start

/-- All that is left of blank content with a border is the break that is asked for in its place. -/
theorem drawn_framed (hfoot : AllFooted children) (hblank : lines (.node (.box .inline none) children) = [])
    (es : List Enclosure) :
    (fun w => emitAll w (prunedAll (within es [framed kind border children]))) =
      drawn (shared es) (·.request (remnant kind children (alone es))) := by
  by_cases hnil : prunedAll children = []
  · rw [emitAll_within_nil es (prunedAll_framed hnil), remnant, if_pos hnil]
    simp only [Writer.request_none]
    rfl
  · have hframed : prunedAll [framed kind border children] ≠ [] := by
      rw [framed, prunedAll_box hnil]
      exact List.cons_ne_nil _ _
    rw [emitAll_within es hframed, emitAll_framed hfoot hblank hnil, drawn_request, remnant, if_neg hnil]

theorem lines_placed {es : List Enclosure} {root : Enclosure} (h : Footed (placed es root rs)) :
    lines (placed es root rs) = (emitAll .start (prunedAll (within (es ++ [root]) rs))).finish := by
  rw [lines_of_footed h, prunedAll_placed]

theorem lines_placed_framed {es : List Enclosure} {root : Enclosure} (hfoot : AllFooted children)
    (hblank : lines (.node (.box .inline none) children) = [])
    (h : Footed (placed es root [framed kind border children])) :
    lines (placed es root [framed kind border children]) =
      (drawn (shared (es ++ [root])) (·.request (remnant kind children (alone (es ++ [root])))) .start).finish := by
  rw [lines_placed h, ← drawn_framed hfoot hblank]

theorem lines_placed_nil {es : List Enclosure} {root : Enclosure} (h : Footed (placed es root [])) :
    lines (placed es root []) = (drawn (shared (es ++ [root])) id .start).finish := by
  have hnil : prunedAll [] = [] := rfl
  rw [lines_placed h, ← emitAll_within_nil _ hnil]

/-- A box of two texts, with a place between them. -/
def pair : Enclosure :=
  ⟨.inline, none, [leaf "a"], [leaf "b"]⟩

theorem split_pair {shells : List Enclosure} (h : ∀ e ∈ shells, e.isEmpty = true) :
    alone (shells ++ [pair]) = shells ∧ shared (shells ++ [pair]) = [pair] := by
  have hpair : pair.isEmpty = false := by decide +kernel
  rw [alone, shared, List.takeWhile_append_of_pos h, List.dropWhile_append_of_pos h]
  simp [hpair]

theorem footed_pair (h : Traceless rs) {shells : List Enclosure}
    (hshells : ∀ e ∈ shells, e.isEmpty = true) : Footed (placed shells pair rs) :=
  ⟨nofun, allFooted_append (allFooted_append ⟨trivial, trivial⟩ (h.within hshells).footed)
    ⟨trivial, trivial⟩⟩

/-- Only without a break between them do two texts stand on one line. -/
theorem eq_none_of_pair {b : Break}
    (h : (drawn [pair] (·.request b) .start).finish = (drawn [pair] id .start).finish) : b = .none := by
  revert h
  cases b <;> decide +kernel

/-- A box with a border whose content gives no rows gives no lines itself. In a larger tree all that is left
of it is that its break is asked for in its place, and it is as if it were not there, with the boxes around it
that hold nothing else, in all trees just if these ask for no break: as a block asks for a blank line, and
a line for a line end. -/
theorem blank_box_absent_iff (hfoot : AllFooted children)
    (hblank : lines (.node (.box .inline none) children) = []) :
    lines (framed kind border children) = [] ∧
      (∀ es root, Footed (placed es root [framed kind border children]) → Footed (placed es root []) →
        lines (placed es root [framed kind border children]) =
            (drawn (shared (es ++ [root])) (·.request (remnant kind children (alone (es ++ [root])))) .start).finish ∧
          lines (placed es root []) = (drawn (shared (es ++ [root])) id .start).finish) ∧
      ∀ shells : List Enclosure, (∀ e ∈ shells, e.isEmpty = true) →
        ((∀ es root, alone (es ++ [root]) = shells →
            Footed (placed es root [framed kind border children]) → Footed (placed es root []) →
            lines (placed es root [framed kind border children]) = lines (placed es root [])) ↔
          remnant kind children shells = .none) := by
  have htraceless : Traceless [framed kind border children] := traceless_framed hfoot hblank
  refine ⟨?_, fun es root hwith hwithout => ⟨lines_placed_framed hfoot hblank hwith, lines_placed_nil hwithout⟩,
    fun shells hshells => ⟨fun h => ?_, fun hnone es root halone hwith hwithout => ?_⟩⟩
  · rw [lines_of_footed htraceless.footed.1, htraceless.written]
    rfl
  · -- two texts around the place tell every break from none
    obtain ⟨halone, hshared⟩ := split_pair hshells
    have hnothing : Traceless [] := ⟨trivial, rfl⟩
    have hwith := footed_pair htraceless hshells
    have hwithout := footed_pair hnothing hshells
    have hsame := h shells pair halone hwith hwithout
    rw [lines_placed_framed hfoot hblank hwith, lines_placed_nil hwithout, halone, hshared] at hsame
    exact eq_none_of_pair hsame
  · rw [lines_placed_framed hfoot hblank hwith, lines_placed_nil hwithout, halone, hnone]
    simp only [Writer.request_none]
    rfl

end Blank

/-- A frame around a line end, between two texts. The blank line that its block asks for is left. -/
theorem blank_line_of_framed_newline :
    lines (.node (.box .inline none) [leaf "\n"]) = [] ∧
      remnant .block [leaf "\n"] [] = .blank ∧
      lines (placed [] pair [framed .block .frame [leaf "\n"]]) =
        (drawn [pair] (·.request .blank) .start).finish ∧
      lines (placed [] pair [framed .block .frame [leaf "\n"]]) = [['a'], [], ['b']] ∧
      lines (placed [] pair []) = [['a', 'b']] := by
  have hfoot : AllFooted [leaf "\n"] := ⟨trivial, trivial⟩
  have hblank : lines (.node (.box .inline none) [leaf "\n"]) = [] := by decide +kernel
  have hframe : Border.frame.foot? (emitAll .start (prunedAll [leaf "\n"])).finish ≠ some [] := by
    decide +kernel
  have hwith : Footed (placed [] pair [framed .block .frame [leaf "\n"]]) := by
    simpa [placed, within, Enclosure.around, pair, framed, leaf, Footed, AllFooted] using hframe
  have hwithout : Footed (placed [] pair []) := by
    simp [placed, within, Enclosure.around, pair, leaf, Footed, AllFooted]
  obtain ⟨-, hplaced, -⟩ := blank_box_absent_iff hfoot hblank
  exact ⟨hblank, by decide +kernel, (hplaced [] pair hwith hwithout).1, by decide +kernel, by decide +kernel⟩

end Montage.Box
