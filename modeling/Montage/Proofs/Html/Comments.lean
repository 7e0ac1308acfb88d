import Montage.Proofs.Html.Reading

/-!
Comments in a written document. A comment is written as it is, so that it is over where its text says so.
Main statement: to erase from a written document all that stands between the marks of comments is to leave out
its comment nodes, just if in every comment each end mark is at once followed by a beginning.
-/

namespace Montage.Html

/-! Erasing comments from a text. -/

def commentStart : List Char :=
  ['<', '!', '-', '-']

def commentEnd : List Char :=
  ['-', '-', '>']

/-- What stands behind the next end of a comment. -/
def behindEnd : List Char → Option (List Char)
  | [] => none
  | c :: cs => ((c :: cs).dropPrefix? commentEnd).or (behindEnd cs)

/-- What stands behind the comment that a text begins with. -/
def behindComment (s : List Char) : Option (List Char) :=
  (s.dropPrefix? commentStart).bind behindEnd

section Erasing

variable {s u rest : List Char} {c : Char}

theorem dropPrefix?_eq {p : List Char} : s.dropPrefix? p = some rest ↔ s = p ++ rest := by
  simp [List.dropPrefix?_eq_some_iff]

/-- A text that is over with the first end mark in it. -/
theorem behindEnd_append (h : ¬ commentEnd <:+: u) (rest : List Char) :
    behindEnd (u ++ commentEnd ++ rest) = some rest := by
  induction u with
  | nil =>
    have hdrop : ('-' :: '-' :: '>' :: rest).dropPrefix? commentEnd = some rest := dropPrefix?_eq.mpr rfl
    show behindEnd ('-' :: '-' :: '>' :: rest) = some rest
    rw [behindEnd, hdrop, Option.some_or]
  | cons c u ih =>
    obtain ⟨hstart, hinfix⟩ := not_or.mp (List.infix_cons_iff.not.mp h)
    have hnone : (c :: (u ++ commentEnd ++ rest)).dropPrefix? commentEnd = none := by
      rw [Option.eq_none_iff_forall_ne_some]
      intro r hr
      rw [dropPrefix?_eq] at hr
      -- two characters before an end mark are not the beginning of another
      match u, hr with
      | [], hr => simp [commentEnd] at hr
      | [d], hr => simp [commentEnd] at hr
      | d :: e :: u, hr =>
        apply hstart
        simp only [commentEnd] at hr ⊢
        simp_all
    simp only [List.cons_append, behindEnd]
    rw [hnone, Option.none_or]
    exact ih hinfix

theorem eq_of_behindEnd (h : behindEnd s = some rest) :
    ∃ u, s = u ++ commentEnd ++ rest ∧ ¬ commentEnd <:+: u := by
  induction s with
  | nil => cases h
  | cons c s ih =>
    rw [behindEnd] at h
    cases hdrop : (c :: s).dropPrefix? commentEnd with
    | some r =>
      rw [hdrop, Option.some_or] at h
      cases h
      exact ⟨[], dropPrefix?_eq.mp hdrop, by decide +kernel⟩
    | none =>
      rw [hdrop, Option.none_or] at h
      obtain ⟨u, rfl, hu⟩ := ih h
      refine ⟨c :: u, rfl, fun hinfix => ?_⟩
      rcases List.infix_cons_iff.mp hinfix with ⟨r, hr⟩ | hinfix
      · have hsplit : c :: (u ++ commentEnd ++ rest) = commentEnd ++ (r ++ (commentEnd ++ rest)) := by
          rw [← List.append_assoc commentEnd, hr]
          simp
        rw [dropPrefix?_eq.mpr hsplit] at hdrop
        cases hdrop
      · exact hu hinfix

theorem exists_behindEnd (h : commentEnd <:+: s) : ∃ rest, behindEnd s = some rest := by
  induction s with
  | nil => exact absurd h (by decide +kernel)
  | cons c s ih =>
    rw [behindEnd]
    rcases List.infix_cons_iff.mp h with ⟨r, hr⟩ | hinfix
    · rw [dropPrefix?_eq.mpr hr.symm]
      exact ⟨_, rfl⟩
    · obtain ⟨rest, hrest⟩ := ih hinfix
      rw [hrest]
      cases (c :: s).dropPrefix? commentEnd <;> exact ⟨_, rfl⟩

theorem length_of_behindComment (h : behindComment s = some rest) : rest.length < s.length := by
  obtain ⟨r, hdrop, hend⟩ := Option.bind_eq_some_iff.mp h
  rw [dropPrefix?_eq] at hdrop
  obtain ⟨u, rfl, -⟩ := eq_of_behindEnd hend
  subst hdrop
  simp only [commentStart, commentEnd, List.length_append]
  simp
  omega

/-- A text without its comments. One that has no end is none. -/
def erased (s : List Char) : List Char :=
  match s with
  | [] => []
  | c :: cs =>
    match _h : behindComment (c :: cs) with
    | some rest => erased rest
    | none => c :: erased cs
termination_by s.length
decreasing_by
  · exact length_of_behindComment _h
  · exact Nat.lt_succ_self _

example : erased "a<!--b-->c<!-->-->d-->".toList = "acd-->".toList := by
  decide +kernel

theorem erased_of_some (h : behindComment s = some rest) : erased s = erased rest := by
  cases s with
  | nil => cases h
  | cons c s =>
    rw [erased]
    split
    · rename_i r hr
      rw [h] at hr
      cases hr
      rfl
    · rename_i hnone
      rw [h] at hnone
      cases hnone

theorem erased_of_none (h : behindComment (c :: s) = none) : erased (c :: s) = c :: erased s := by
  rw [erased]
  split
  · rename_i hsome
    rw [h] at hsome
    cases hsome
  · rfl

theorem exists_behindComment (h : erased s = []) (hne : s ≠ []) : ∃ rest, behindComment s = some rest := by
  obtain ⟨c, s, rfl⟩ := List.exists_cons_of_ne_nil hne
  cases hbehind : behindComment (c :: s) with
  | none =>
    rw [erased_of_none hbehind] at h
    cases h
  | some rest => exact ⟨rest, rfl⟩

theorem behindComment_eq (h : ¬ commentEnd <:+: u) (rest : List Char) :
    behindComment (commentStart ++ u ++ commentEnd ++ rest) = some rest := by
  have hdrop : (commentStart ++ u ++ commentEnd ++ rest).dropPrefix? commentStart =
      some (u ++ commentEnd ++ rest) := by
    rw [dropPrefix?_eq]
    simp
  rw [behindComment, hdrop, Option.bind_some, behindEnd_append h]

theorem behindComment_eq_none (h : ¬ commentStart <+: s) : behindComment s = none := by
  have hdrop : s.dropPrefix? commentStart = none := by
    rw [Option.eq_none_iff_forall_ne_some]
    intro r hr
    exact h ⟨r, (dropPrefix?_eq.mp hr).symm⟩
  rw [behindComment, hdrop, Option.bind_none]

end Erasing

/-! Parts of a text that stay, and parts that go. -/

/-- A text of which nothing is erased, whatever stands behind it. -/
def Stays (a : List Char) : Prop :=
  ∀ rest, erased (a ++ rest) = a ++ erased rest

/-- A text that is erased, and nothing else, whatever stands behind it. -/
def Goes (a : List Char) : Prop :=
  ∀ rest, erased (a ++ rest) = erased rest

section Parts

variable {a b t : List Char} {c : Char}

theorem Stays.append (ha : Stays a) (hb : Stays b) : Stays (a ++ b) := by
  intro rest
  rw [List.append_assoc, ha, hb, List.append_assoc]

theorem Goes.append (ha : Goes a) (hb : Goes b) : Goes (a ++ b) := by
  intro rest
  rw [List.append_assoc, ha, hb]

/-- Nothing is erased of a text without beginnings of comments that ends with a character of none. -/
theorem stays_concat (h : ¬ commentStart <:+: a) (hc : c ∉ commentStart) : Stays (a ++ [c]) := by
  intro rest
  induction a with
  | nil =>
    refine erased_of_none (behindComment_eq_none fun ⟨r, hr⟩ => ?_)
    obtain rfl : '<' = c := (List.cons.inj hr).1
    exact hc List.mem_cons_self
  | cons d a ih =>
    obtain ⟨hstart, hinfix⟩ := not_or.mp (List.infix_cons_iff.not.mp h)
    have hnone : behindComment (d :: (a ++ [c] ++ rest)) = none := by
      refine behindComment_eq_none fun ⟨r, hr⟩ => ?_
      have hsplit : commentStart ++ r = (d :: a) ++ (c :: rest) := by simpa using hr
      rcases List.append_eq_append_iff.mp hsplit with ⟨x, hx, -⟩ | ⟨x, hx, hrest⟩
      · exact hstart ⟨x, hx.symm⟩
      · cases x with
        | nil => exact hstart ⟨[], by simpa using hx⟩
        | cons e x =>
          obtain rfl : c = e := (List.cons.inj hrest).1
          exact hc (by simp [hx])
    rw [List.cons_append, List.cons_append, erased_of_none hnone, ih hinfix]
    rfl

theorem stays_of_not_mem (h : '<' ∉ a) : Stays a := by
  intro rest
  induction a with
  | nil => rfl
  | cons d a ih =>
    obtain ⟨hd, ha⟩ := not_or.mp (List.mem_cons.not.mp h)
    have hnone : behindComment (d :: (a ++ rest)) = none :=
      behindComment_eq_none fun ⟨r, hr⟩ => hd (List.cons.inj hr).1
    rw [List.cons_append, erased_of_none hnone, ih ha]
    rfl

/-- A text in which each end of a comment is at once followed by the beginning of another. -/
inductive Sealed : List Char → Prop
  | last {t : List Char} (h : ¬ commentEnd <:+: t) : Sealed t
  | more {u t : List Char} (h : ¬ commentEnd <:+: u) (ht : Sealed t) :
      Sealed (u ++ commentEnd ++ commentStart ++ t)

def commentText (t : List Char) : List Char :=
  commentStart ++ t ++ commentEnd

theorem goes_of_sealed (h : Sealed t) : Goes (commentText t) := by
  induction h with
  | last h => exact fun rest => erased_of_some (behindComment_eq h rest)
  | @more u t h _ ih =>
    have hfirst : Goes (commentStart ++ u ++ commentEnd) := fun rest => erased_of_some (behindComment_eq h rest)
    have hsplit : commentText (u ++ commentEnd ++ commentStart ++ t) =
        commentStart ++ u ++ commentEnd ++ commentText t := by
      simp [commentText]
    rw [hsplit]
    exact hfirst.append ih

/-- If nothing is left of a written comment, its text is sealed. -/
theorem sealed_of_erased (t : List Char) (h : erased (commentText t) = []) : Sealed t := by
  by_cases hend : commentEnd <:+: t
  · obtain ⟨v, hv⟩ := exists_behindEnd hend
    obtain ⟨u, rfl, hu⟩ := eq_of_behindEnd hv
    have hrest : erased (v ++ commentEnd) = [] := by
      have hcomment := behindComment_eq hu (v ++ commentEnd)
      rw [← erased_of_some hcomment, ← h, commentText]
      simp
    -- what stands behind the first end begins with a comment, and that one is over before the last end
    obtain ⟨rest, hbehind⟩ := exists_behindComment hrest (List.append_ne_nil_of_right_ne_nil v (by simp [commentEnd]))
    obtain ⟨w, hdrop, hw⟩ := Option.bind_eq_some_iff.mp hbehind
    obtain ⟨x, hx, -⟩ := eq_of_behindEnd hw
    obtain ⟨t', rfl⟩ : ∃ t', v = commentStart ++ t' := by
      rcases List.append_eq_append_iff.mp (dropPrefix?_eq.mp hdrop) with ⟨y, hy, hends⟩ | ⟨t', ht', -⟩
      · have hlength := congrArg List.length hends
        rw [hx] at hlength
        simp only [List.length_append] at hlength
        obtain rfl : y = [] := List.eq_nil_of_length_eq_zero (by omega)
        exact ⟨[], by rw [hy]; simp⟩
      · exact ⟨t', ht'⟩
    rw [← List.append_assoc]
    exact .more hu (sealed_of_erased t' hrest)
  · exact .last hend
termination_by t.length
decreasing_by
  subst_vars
  simp only [List.length_append]
  simp [commentEnd]
  omega

end Parts

/-! Comments of documents. -/

mutual

/-- The comments that are written with a document. -/
def comments : Rose Item → List String
  | .node (.comment s) _ => [s]
  | .node (.text _) _ => []
  | .node .fragment children => allComments children
  | .node (.element ..) children => allComments children

def allComments : List (Rose Item) → List String
  | [] => []
  | r :: rs => comments r ++ allComments rs

end

mutual

/-- A tree without its comment nodes; nothing if it is one. -/
def uncommented : Rose Item → List (Rose Item)
  | .node (.comment _) _ => []
  | .node item children => [.node item (allUncommented children)]

def allUncommented : List (Rose Item) → List (Rose Item)
  | [] => []
  | r :: rs => uncommented r ++ allUncommented rs

end

mutual

/-- No tag and no name of an attribute has the beginning of a comment in it. -/
def Named : Rose Item → Prop
  | .node (.element tag _ attributes) children =>
    ¬ commentStart <:+: '<' :: tag.toList ∧ (∀ a ∈ attributes, ¬ commentStart <:+: a.1.toList) ∧ AllNamed children
  | .node .fragment children => AllNamed children
  | _ => True

def AllNamed : List (Rose Item) → Prop
  | [] => True
  | r :: rs => Named r ∧ AllNamed rs

end

section Documents

variable {a : List Char} {as : Fields String}

theorem stays_escape (s : List Char) : Stays (escape s) :=
  stays_of_not_mem fun h => (plain_of_mem_escape h).1 rfl

/-- Attributes stay, as does what stands before them without a beginning of a comment. -/
theorem stays_attributes (ha : ¬ commentStart <:+: a) (has : ∀ x ∈ as, ¬ commentStart <:+: x.1.toList) :
    Stays (a ++ (attributesText as ++ ['>'])) := by
  induction as generalizing a with
  | nil => exact stays_concat ha (by decide)
  | cons x as ih =>
    obtain ⟨hname, hrest⟩ := List.forall_mem_cons.mp has
    have hvalue : Stays ('"' :: (escape x.2.toList ++ ['"'])) := by
      refine stays_of_not_mem fun h => ?_
      rcases List.mem_cons.mp h with h | h
      · cases h
      · rcases List.mem_append.mp h with h | h
        · exact (plain_of_mem_escape h).1 rfl
        · exact absurd h (by decide)
    have hrest : Stays ([] ++ (attributesText as ++ ['>'])) := ih (by decide) hrest
    have hsplit : a ++ (attributesText (x :: as) ++ ['>']) =
        a ++ [' '] ++ (x.1.toList ++ ['=']) ++ ('"' :: (escape x.2.toList ++ ['"'])) ++
          ([] ++ (attributesText as ++ ['>'])) := by
      simp [attributesText, attributeText]
    rw [hsplit]
    exact (((stays_concat ha (by decide)).append (stays_concat hname (by decide))).append hvalue).append hrest

theorem stays_openTag {tag : String} {classes : List String} (htag : ¬ commentStart <:+: '<' :: tag.toList)
    (has : ∀ x ∈ as, ¬ commentStart <:+: x.1.toList) : Stays (openTag tag classes as) := by
  rw [openTag_eq]
  refine stays_attributes (a := '<' :: tag.toList) htag fun x hx => ?_
  rcases List.mem_append.mp hx with hx | hx
  · obtain ⟨c, -, rfl⟩ := List.mem_map.mp hx
    show ¬ commentStart <:+: "class".toList
    decide +kernel
  · exact has x hx

theorem stays_closeTag {tag : String} (htag : ¬ commentStart <:+: '<' :: tag.toList) : Stays (closeTag tag) := by
  refine stays_concat (a := '<' :: '/' :: tag.toList) (fun h => ?_) (by decide)
  rcases List.infix_cons_iff.mp h with ⟨r, hr⟩ | h
  · cases hr
  · rcases List.infix_cons_iff.mp h with ⟨r, hr⟩ | h
    · cases hr
    · exact htag (List.infix_cons h)

theorem writeAll_append (rs rs' : List (Rose Item)) : writeAll (rs ++ rs') = writeAll rs ++ writeAll rs' := by
  induction rs with
  | nil => rfl
  | cons r rs ih => rw [List.cons_append, writeAll, writeAll, ih, List.append_assoc]

mutual

/-- Of a document whose comments are sealed all is erased but what is written without them. -/
theorem erased_write (r : Rose Item) (hnamed : Named r) (hsealed : ∀ t ∈ comments r, Sealed t.toList)
    (rest : List Char) : erased (write r ++ rest) = writeAll (uncommented r) ++ erased rest := by
  match r with
  | .node (.text s) _ =>
    simp only [uncommented, writeAll, List.append_nil]
    exact stays_escape s.toList rest
  | .node (.comment s) _ => exact goes_of_sealed (hsealed s List.mem_cons_self) rest
  | .node .fragment children =>
    simp only [uncommented, writeAll, List.append_nil]
    exact erased_writeAll children hnamed hsealed rest
  | .node (.element tag classes as) children =>
    obtain ⟨htag, has, hchildren⟩ := hnamed
    have hopen : Stays (openTag tag classes as) := stays_openTag htag has
    have hclose := stays_closeTag htag
    simp only [uncommented, writeAll, List.append_nil, write]
    rw [List.append_assoc, List.append_assoc, hopen, erased_writeAll children hchildren hsealed, hclose,
      ← List.append_assoc, ← List.append_assoc]

theorem erased_writeAll (rs : List (Rose Item)) (hnamed : AllNamed rs)
    (hsealed : ∀ t ∈ allComments rs, Sealed t.toList) (rest : List Char) :
    erased (writeAll rs ++ rest) = writeAll (allUncommented rs) ++ erased rest := by
  match rs with
  | [] => rfl
  | r :: rs =>
    obtain ⟨hfirst, hrest⟩ := List.forall_mem_append.mp hsealed
    rw [writeAll, allUncommented, writeAll_append, List.append_assoc, erased_write r hnamed.1 hfirst,
      erased_writeAll rs hnamed.2 hrest, List.append_assoc]

end

/-- Erasing comments from written documents leaves what is written of them without their comment nodes just if
in the texts of comments each end mark is at once followed by a beginning, whatever else the texts are. -/
theorem comments_inert_iff {p : String → Prop} :
    (∀ r, Named r → (∀ t ∈ comments r, p t) → erased (write r) = writeAll (uncommented r)) ↔
      ∀ t, p t → Sealed t.toList := by
  constructor
  · intro h t ht
    have hgone := h (.node (.comment t) []) trivial fun t' ht' => List.mem_singleton.mp ht' ▸ ht
    exact sealed_of_erased t.toList hgone
  · intro h r hnamed hcomments
    have hwrite := erased_write r hnamed (fun t ht => h t (hcomments t ht)) []
    rwa [List.append_nil, erased, List.append_nil] at hwrite

end Documents

/-- A document with comments in it, and a text and a class that are no comments. -/
def remarks : Rose Item :=
  .node (.element "body" [] []) [
    .node (.comment "view") [],
    .node (.text "<!--a-->") [],
    .node .fragment [.node (.comment "--><!-- > --") [], .node (.element "b" ["-->"] []) []]]

/-- Between sealed comments all stays. A text with a mere end mark ends its comment, and what follows is
markup. -/
theorem comments_inert_iff_of_remarks :
    erased (write remarks) = writeAll (uncommented remarks) ∧
      erased (write remarks) = "<body>&lt;!--a--&gt;<b class=\"--&gt;\"></b></body>".toList ∧
      (¬ ∀ r, Named r → (∀ t ∈ comments r, t = "--><b>") → erased (write r) = writeAll (uncommented r)) ∧
      erased (write (.node (.comment "--><b>") [])) = "<b>-->".toList := by
  have hnamed : Named remarks := by
    simp only [remarks, Named, AllNamed]
    decide +kernel
  have hsealed : ∀ t ∈ comments remarks, Sealed t.toList := by
    have hview : Sealed "view".toList := .last (by decide +kernel)
    have hmore : Sealed "--><!-- > --".toList :=
      .more (u := []) (t := " > --".toList) (by decide +kernel) (.last (by decide +kernel))
    intro t ht
    have hmem : t = "view" ∨ t = "--><!-- > --" := by
      simpa [remarks, comments, allComments] using ht
    rcases hmem with rfl | rfl
    · exact hview
    · exact hmore
  have hopened : erased (write (.node (.comment "--><b>") [])) = "<b>-->".toList := by decide +kernel
  refine ⟨comments_inert_iff.mpr (fun _ h => h) remarks hnamed hsealed, by decide +kernel, fun h => ?_, hopened⟩
  have hgone := goes_of_sealed (comments_inert_iff.mp h "--><b>" rfl) []
  rw [List.append_nil] at hgone
  rw [show erased (commentText "--><b>".toList) = "<b>-->".toList from hopened, erased] at hgone
  exact absurd hgone (by decide +kernel)

end Montage.Html
