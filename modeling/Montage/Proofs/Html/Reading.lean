import Mathlib.Data.List.Basic
import Montage.Html.Item

/-!
What can be read off a written document. Main statement: two documents without comments, with names that are
words of letters, digits and hyphens, are written alike just if they have the same contents; whatever stands
in texts, classes and attribute values, none of it is read as markup.
-/

namespace Montage.Html

/-! What a document is about. -/

/-- A text, or an element with what stands in it. -/
inductive Node where
  | text (s : List Char)
  | element (tag : String) (classes : Option String) (attributes : Fields String) (children : List Node)

/-- Text joins the text behind it, and no text is nothing. -/
def textBefore (s : List Char) : List Node → List Node
  | .text s' :: ns => .text (s ++ s') :: ns
  | ns => if s.isEmpty then ns else .text s :: ns

/-- Classes separated by spaces, if there are any. -/
def joined (classes : List String) : Option String :=
  if classes.isEmpty then none else some (String.intercalate " " classes)

mutual

/-- The nodes of a tree and those behind it. Fragments give way to their children, and comments are left
out. -/
def nodesBefore (ns : List Node) : Rose Item → List Node
  | .node (.text s) _ => textBefore s.toList ns
  | .node (.comment _) _ => ns
  | .node .fragment children => allBefore ns children
  | .node (.element tag classes attributes) children =>
    .element tag (joined classes) attributes (allBefore [] children) :: ns

def allBefore (ns : List Node) : List (Rose Item) → List Node
  | [] => ns
  | r :: rs => nodesBefore (allBefore ns rs) r

end

/-- What a document shows: its elements and texts, with fragments spliced in, without empty texts and with
neighbouring texts joined. -/
def contents (r : Rose Item) : List Node :=
  nodesBefore [] r

/-- A word of letters, digits and hyphens that begins with a letter. -/
def isName (s : String) : Bool :=
  match s.toList with
  | [] => false
  | c :: cs => c.isAlpha && cs.all fun d => d.isAlphanum || d == '-'

mutual

/-- A document without comments in which tags and attributes have names, and no attribute takes the name of
the classes. -/
def Readable : Rose Item → Prop
  | .node (.text _) _ => True
  | .node (.comment _) _ => False
  | .node .fragment children => AllReadable children
  | .node (.element tag _ attributes) children =>
    isName tag ∧ (∀ a ∈ attributes, isName a.1 ∧ a.1 ≠ "class") ∧ AllReadable children

def AllReadable : List (Rose Item) → Prop
  | [] => True
  | r :: rs => Readable r ∧ AllReadable rs

end

/-! Characters that end what stands before them. -/

section Spans

variable {p : Char → Prop} {a a' b b' : List Char}

/-- A text that does not go on with such characters. -/
def Stops (p : Char → Prop) (b : List Char) : Prop :=
  ∀ c ∈ b.head?, ¬p c

/-- Where a run of characters ends can be seen. -/
theorem span_unique (ha : ∀ c ∈ a, p c) (ha' : ∀ c ∈ a', p c) (hb : Stops p b) (hb' : Stops p b')
    (h : a ++ b = a' ++ b') : a = a' ∧ b = b' := by
  induction a generalizing a' with
  | nil =>
    cases a' with
    | nil => exact ⟨rfl, h⟩
    | cons c a' =>
      rw [List.nil_append] at h
      subst h
      exact absurd (ha' c List.mem_cons_self) (hb c rfl)
  | cons c a ih =>
    cases a' with
    | nil =>
      rw [List.nil_append] at h
      subst h
      exact absurd (ha c List.mem_cons_self) (hb' c rfl)
    | cons c' a' =>
      obtain ⟨rfl, htail⟩ := List.cons.inj h
      obtain ⟨rfl, hrest⟩ := ih (fun d hd => ha d (List.mem_cons_of_mem _ hd))
        (fun d hd => ha' d (List.mem_cons_of_mem _ hd)) htail
      exact ⟨rfl, hrest⟩

end Spans

/-! Escaped texts. -/

/-- No character is written as the beginning of another. -/
theorem escapeChar_unique {c c' : Char} {b b' : List Char}
    (h : escapeChar c ++ b = escapeChar c' ++ b') : c = c' ∧ b = b' := by
  simp only [escapeChar] at h
  split_ifs at h <;> simp at h <;> grind

theorem escapeChar_ne_nil (c : Char) : escapeChar c ≠ [] := by
  simp only [escapeChar]
  split_ifs <;> simp

theorem escape_injective {s s' : List Char} (h : escape s = escape s') : s = s' := by
  induction s generalizing s' with
  | nil =>
    cases s' with
    | nil => rfl
    | cons c s' =>
      exact absurd (List.append_eq_nil_iff.mp h.symm).1 (escapeChar_ne_nil c)
  | cons c s ih =>
    cases s' with
    | nil => exact absurd (List.append_eq_nil_iff.mp h).1 (escapeChar_ne_nil c)
    | cons c' s' =>
      obtain ⟨rfl, hrest⟩ := escapeChar_unique h
      rw [ih hrest]

/-- Neither the beginning of a tag nor the end of a value is found in an escaped text. -/
theorem plain_of_mem_escape {s : List Char} {c : Char} (h : c ∈ escape s) : c ≠ '<' ∧ c ≠ '"' := by
  obtain ⟨d, _, hc⟩ := List.mem_flatMap.mp h
  simp only [escapeChar] at hc
  split_ifs at hc <;> simp_all
  all_goals rcases hc with rfl | rfl | rfl | rfl | rfl | rfl <;> decide

/-! Attributes. -/

def isNameChar (c : Char) : Prop :=
  (c.isAlphanum || c == '-') = true

theorem nameChar_of_name {s : String} (h : isName s) : ∀ c ∈ s.toList, isNameChar c := by
  intro c hc
  rw [isName] at h
  split at h
  · rename_i hnil
    rw [hnil] at hc
    cases hc
  · rename_i d ds heq
    rw [heq] at hc
    simp only [Bool.and_eq_true, List.all_eq_true] at h
    rcases List.mem_cons.mp hc with rfl | hc
    · simp [isNameChar, Char.isAlphanum, h.1]
    · exact h.2 c hc

/-- A name begins with neither the mark of a closing tag nor that of another tag. -/
theorem head_of_name {s : String} (h : isName s) : ∃ c cs, s.toList = c :: cs ∧ c ≠ '/' := by
  rw [isName] at h
  split at h
  · cases h
  · rename_i c cs heq
    refine ⟨c, cs, heq, ?_⟩
    rintro rfl
    simp at h

def attributesText (as : Fields String) : List Char :=
  as.flatMap fun a => attributeText a.1 a.2.toList

variable {as as' : Fields String} {b b' : List Char}

/-- Behind the attributes of a tag it can be seen what they were. -/
theorem attributes_unique (has : ∀ a ∈ as, isName a.1) (has' : ∀ a ∈ as', isName a.1)
    (h : attributesText as ++ '>' :: b = attributesText as' ++ '>' :: b') : as = as' ∧ b = b' := by
  induction as generalizing as' with
  | nil =>
    cases as' with
    | nil => exact ⟨rfl, (List.cons.inj h).2⟩
    | cons a' as' => exact absurd (List.cons.inj h).1 (by decide)
  | cons a as ih =>
    cases as' with
    | nil => exact absurd (List.cons.inj h).1 (by decide)
    | cons a' as' =>
      have hname := has a List.mem_cons_self
      have hname' := has' a' List.mem_cons_self
      simp only [attributesText, List.flatMap_cons, attributeText, List.cons_append,
        List.append_assoc, List.cons.injEq, true_and, List.nil_append] at h
      obtain ⟨hn, hvalue⟩ := span_unique (p := isNameChar) (nameChar_of_name hname)
        (nameChar_of_name hname') (by simp [Stops, isNameChar]) (by simp [Stops, isNameChar]) h
      simp only [List.cons.injEq, true_and] at hvalue
      obtain ⟨hv, hrest⟩ := span_unique (p := (· ≠ '"')) (fun c hc => (plain_of_mem_escape hc).2)
        (fun c hc => (plain_of_mem_escape hc).2) (by simp [Stops]) (by simp [Stops]) hvalue
      obtain ⟨rfl, hb⟩ := ih (fun a ha => has a (List.mem_cons_of_mem _ ha))
        (fun a ha => has' a (List.mem_cons_of_mem _ ha)) (List.cons.inj hrest).2
      have ha : a = a' := Prod.ext (String.toList_inj.mp hn) (String.toList_inj.mp (escape_injective hv))
      exact ⟨congrArg (· :: as) ha, hb⟩

theorem stops_attributesText (as : Fields String) (b : List Char) :
    Stops isNameChar (attributesText as ++ '>' :: b) := by
  cases as <;> simp [Stops, isNameChar, attributesText, attributeText]

/-- The attributes as they are written: the classes first. -/
def withClasses (classes : Option String) (as : Fields String) : Fields String :=
  classes.toList.map (fun c => ("class", c)) ++ as

theorem name_of_withClasses {classes : Option String} (has : ∀ a ∈ as, isName a.1) :
    ∀ a ∈ withClasses classes as, isName a.1 := by
  intro a ha
  rcases List.mem_append.mp ha with ha | ha
  · obtain ⟨c, _, rfl⟩ := List.mem_map.mp ha
    show isName "class" = true
    decide +kernel
  · exact has a ha

theorem withClasses_unique {c c' : Option String} (has : ∀ a ∈ as, a.1 ≠ "class")
    (has' : ∀ a ∈ as', a.1 ≠ "class") (h : withClasses c as = withClasses c' as') :
    c = c' ∧ as = as' := by
  cases c with
  | none =>
    cases c' with
    | none => exact ⟨rfl, h⟩
    | some c' =>
      obtain rfl : as = ("class", c') :: as' := h
      exact absurd rfl (has _ List.mem_cons_self)
  | some c =>
    cases c' with
    | none =>
      obtain rfl : ("class", c) :: as = as' := h
      exact absurd rfl (has' _ List.mem_cons_self)
    | some c' =>
      obtain ⟨hc, has⟩ := List.cons.inj h
      exact ⟨congrArg some (Prod.ext_iff.mp hc).2, has⟩

theorem openTag_eq (tag : String) (classes : List String) (as : Fields String) :
    openTag tag classes as =
      '<' :: (tag.toList ++ (attributesText (withClasses (joined classes) as) ++ ['>'])) := by
  rw [openTag, classText, joined]
  split <;> simp [withClasses, attributesText]

/-! Contents as they are written. -/

namespace Node

mutual

def written : Node → List Char
  | .text s => escape s
  | .element tag classes attributes children =>
    '<' :: (tag.toList ++ (attributesText (withClasses classes attributes) ++ '>' :: (allWritten children ++
      closeTag tag)))

def allWritten : List Node → List Char
  | [] => []
  | n :: ns => written n ++ allWritten ns

end

def isText : Node → Bool
  | .text _ => true
  | .element .. => false

mutual

/-- Elements have names, texts are not empty, and no text stands before another. -/
def Neat : Node → Prop
  | .text s => s ≠ []
  | .element tag _ attributes children =>
    isName tag ∧ (∀ a ∈ attributes, isName a.1 ∧ a.1 ≠ "class") ∧ AllNeat children

def AllNeat : List Node → Prop
  | [] => True
  | n :: ns => Neat n ∧ AllNeat ns ∧ (n.isText → ∀ m ∈ ns.head?, ¬m.isText)

end

variable {n n' : Node} {ns ns' : List Node} {b b' : List Char}

/-- A text that is over, or goes on with a closing tag. -/
def Ends (b : List Char) : Prop :=
  b = [] ∨ ∃ b', b = '<' :: '/' :: b'

theorem ends_closeTag (tag : String) (b : List Char) : Ends (closeTag tag ++ b) :=
  .inr ⟨_, rfl⟩

theorem head_written (h : n.Neat) (b : List Char) :
    ∃ c cs, n.written ++ b = c :: cs ∧ (n.isText → c ≠ '<') ∧ ¬Ends (c :: cs) := by
  cases n with
  | text s =>
    cases hs : escape s with
    | nil => exact absurd (escape_injective (show escape s = escape [] from hs)) h
    | cons c cs =>
      have hc := (plain_of_mem_escape (hs ▸ List.mem_cons_self : c ∈ escape s)).1
      refine ⟨c, cs ++ b, by rw [written, hs]; rfl, fun _ => hc, ?_⟩
      rintro (h | ⟨_, h⟩)
      · cases h
      · exact hc (List.cons.inj h).1
  | element tag classes attributes children =>
    obtain ⟨c, cs, hname, hc⟩ := head_of_name h.1
    refine ⟨'<', _, rfl, nofun, ?_⟩
    rw [hname]
    rintro (h | ⟨_, h⟩)
    · cases h
    · exact hc (List.cons.inj (List.cons.inj h).2).1

/-- Behind a text comes a tag or nothing. -/
theorem stops_allWritten (h : AllNeat ns) (hnot : ∀ m ∈ ns.head?, ¬m.isText) (hb : Ends b) :
    Stops (· ≠ '<') (allWritten ns ++ b) := by
  cases ns with
  | nil =>
    rcases hb with rfl | ⟨_, rfl⟩ <;> simp [Stops, allWritten]
  | cons n ns =>
    cases n with
    | text s => exact absurd rfl (hnot _ rfl)
    | element tag classes attributes children => simp [Stops, allWritten, written]

mutual

/-- Where a node ends can be seen, and which node it was. -/
theorem written_unique (n : Node) {n' : Node} {b b' : List Char} (h : n.Neat) (h' : n'.Neat)
    (hb : n.isText → Stops (· ≠ '<') b) (hb' : n'.isText → Stops (· ≠ '<') b')
    (he : n.written ++ b = n'.written ++ b') : n = n' ∧ b = b' := by
  match n, n' with
  | .text s, .text s' =>
    obtain ⟨hs, hrest⟩ := span_unique (p := (· ≠ '<')) (fun c hc => (plain_of_mem_escape hc).1)
      (fun c hc => (plain_of_mem_escape hc).1) (hb rfl) (hb' rfl) he
    exact ⟨congrArg _ (escape_injective hs), hrest⟩
  | .text s, .element tag classes attributes children =>
    obtain ⟨c, cs, hc, hne, -⟩ := head_written h b
    rw [hc] at he
    exact absurd (List.cons.inj he).1 (hne rfl)
  | .element tag classes attributes children, .text s =>
    obtain ⟨c, cs, hc, hne, -⟩ := head_written h' b'
    rw [hc] at he
    exact absurd (List.cons.inj he).1.symm (hne rfl)
  | .element tag classes as children, .element tag' classes' as' children' =>
    obtain ⟨htag, has, hchildren⟩ := h
    obtain ⟨htag', has', hchildren'⟩ := h'
    simp only [written, List.cons_append, List.append_assoc, List.cons.injEq, true_and] at he
    obtain ⟨hname, hopened⟩ := span_unique (nameChar_of_name htag) (nameChar_of_name htag')
      (stops_attributesText _ _) (stops_attributesText _ _) he
    obtain rfl := String.toList_inj.mp hname
    obtain ⟨hall, hinner⟩ := attributes_unique (name_of_withClasses fun a ha => (has a ha).1)
      (name_of_withClasses fun a ha => (has' a ha).1) hopened
    obtain ⟨rfl, rfl⟩ := withClasses_unique (fun a ha => (has a ha).2) (fun a ha => (has' a ha).2) hall
    obtain ⟨rfl, hclosed⟩ := allWritten_unique children hchildren hchildren' (ends_closeTag tag b)
      (ends_closeTag tag b') hinner
    exact ⟨rfl, List.append_cancel_left hclosed⟩

theorem allWritten_unique (ns : List Node) {ns' : List Node} {b b' : List Char} (h : AllNeat ns)
    (h' : AllNeat ns') (hb : Ends b) (hb' : Ends b') (he : allWritten ns ++ b = allWritten ns' ++ b') :
    ns = ns' ∧ b = b' := by
  match ns, ns' with
  | [], [] => exact ⟨rfl, he⟩
  | [], n' :: ns' =>
    obtain ⟨c, cs, hc, -, hends⟩ := head_written h'.1 (allWritten ns' ++ b')
    rw [allWritten, allWritten, List.append_assoc, hc] at he
    exact absurd (he ▸ hb) hends
  | n :: ns, [] =>
    obtain ⟨c, cs, hc, -, hends⟩ := head_written h.1 (allWritten ns ++ b)
    rw [allWritten, allWritten, List.append_assoc, hc] at he
    exact absurd (he ▸ hb') hends
  | n :: ns, n' :: ns' =>
    rw [allWritten, allWritten, List.append_assoc, List.append_assoc] at he
    obtain ⟨rfl, hrest⟩ := written_unique n h.1 h'.1 (fun ht => stops_allWritten h.2.1 (h.2.2 ht) hb)
      (fun ht => stops_allWritten h'.2.1 (h'.2.2 ht) hb') he
    obtain ⟨rfl, hb⟩ := allWritten_unique ns h.2.1 h'.2.1 hb hb' hrest
    exact ⟨rfl, hb⟩

end

end Node

/-! The contents of a document. -/

section Contents

open Node

variable {s : List Char} {ns : List Node}

theorem write_textBefore (s : List Char) (ns : List Node) :
    allWritten (textBefore s ns) = escape s ++ allWritten ns := by
  cases ns with
  | nil => cases s <;> rfl
  | cons n ns =>
    cases n with
    | text s' =>
      rw [textBefore, allWritten, Node.written, allWritten, Node.written, escape, List.flatMap_append,
        List.append_assoc]
      rfl
    | element tag classes as children => cases s <;> rfl

theorem neat_textBefore (h : AllNeat ns) : AllNeat (textBefore s ns) := by
  cases ns with
  | nil =>
    cases s with
    | nil => exact h
    | cons c s => exact ⟨List.cons_ne_nil _ _, h, fun _ => nofun⟩
  | cons n ns =>
    cases n with
    | text s' => exact ⟨List.append_ne_nil_of_right_ne_nil _ h.1, h.2⟩
    | element tag classes as children =>
      cases s with
      | nil => exact h
      | cons c s =>
        refine ⟨List.cons_ne_nil _ _, h, fun _ m hm => ?_⟩
        obtain rfl := Option.some.inj hm
        exact nofun

mutual

/-- A document is written as its contents are. -/
theorem write_nodesBefore (r : Rose Item) (h : Readable r) (ns : List Node) :
    allWritten (nodesBefore ns r) = write r ++ allWritten ns := by
  match r with
  | .node (.text s) _ => exact write_textBefore s.toList ns
  | .node .fragment children => exact write_allBefore children h ns
  | .node (.element tag classes as) children =>
    have hchildren := write_allBefore children h.2.2 []
    rw [nodesBefore, allWritten, Node.written, hchildren, write, openTag_eq]
    simp [allWritten]

theorem write_allBefore (rs : List (Rose Item)) (h : AllReadable rs) (ns : List Node) :
    allWritten (allBefore ns rs) = writeAll rs ++ allWritten ns := by
  match rs with
  | [] => rfl
  | r :: rs =>
    rw [allBefore, write_nodesBefore r h.1, write_allBefore rs h.2, writeAll, List.append_assoc]

end

mutual

theorem neat_nodesBefore (r : Rose Item) {ns : List Node} (h : Readable r) (hns : AllNeat ns) :
    AllNeat (nodesBefore ns r) := by
  match r with
  | .node (.text s) _ => exact neat_textBefore hns
  | .node .fragment children => exact neat_allBefore children h hns
  | .node (.element tag classes as) children =>
    exact ⟨⟨h.1, h.2.1, neat_allBefore children h.2.2 trivial⟩, hns, nofun⟩

theorem neat_allBefore (rs : List (Rose Item)) {ns : List Node} (h : AllReadable rs) (hns : AllNeat ns) :
    AllNeat (allBefore ns rs) := by
  match rs with
  | [] => exact hns
  | r :: rs => exact neat_nodesBefore r h.1 (neat_allBefore rs h.2 hns)

end

variable {r r' : Rose Item}

theorem write_contents (h : Readable r) : allWritten (contents r) = write r :=
  (write_nodesBefore r h []).trans (List.append_nil _)

theorem neat_contents (h : Readable r) : AllNeat (contents r) :=
  neat_nodesBefore r h (show AllNeat [] from trivial)

theorem contents_unique (h : Readable r) (h' : Readable r') (he : write r = write r') :
    contents r = contents r' := by
  rw [← write_contents h, ← write_contents h'] at he
  exact (allWritten_unique _ (neat_contents h) (neat_contents h') (.inl rfl) (.inl rfl)
    (congrArg (· ++ []) he)).1

/-- Two documents are written alike just if they have the same contents, and so the contents can be read
off what is written. -/
theorem write_readable :
    (∀ r r', Readable r → Readable r' → (write r = write r' ↔ contents r = contents r')) ∧
      ∃ read : List Char → List Node, ∀ r, Readable r → read (write r) = contents r := by
  have hunique : ∀ r r', Readable r → Readable r' →
      (write r = write r' ↔ contents r = contents r') := by
    intro r r' h h'
    refine ⟨contents_unique h h', fun he => ?_⟩
    rw [← write_contents h, ← write_contents h', he]
  refine ⟨hunique, ?_⟩
  classical
  refine ⟨fun w => if hw : ∃ r, Readable r ∧ write r = w then contents hw.choose else [],
    fun r h => ?_⟩
  have hw : ∃ r', Readable r' ∧ write r' = write r := ⟨r, h, rfl⟩
  exact (dif_pos hw).trans ((hunique _ _ hw.choose_spec.1 h).mp hw.choose_spec.2)

/-- Markup in a text and in a value, a text in three parts of which one is empty, a fragment, and two
classes. -/
def quotedTree : Rose Item :=
  .node .fragment [
    .node (.element "my-tag" ["a", "b"] [("title", "<b class=\"x\">&amp;")]) [
      .node (.text "</my-tag>") [],
      .node (.text "") [],
      .node .fragment [.node (.text "&lt;") []]]]

/-- The same without fragments, with one text and with the classes in one. -/
def mergedTree : Rose Item :=
  .node (.element "my-tag" ["a b"] [("title", "<b class=\"x\">&amp;")]) [
    .node (.text "</my-tag>&lt;") []]

theorem contents_of_quoted :
    Readable quotedTree ∧ Readable mergedTree ∧ write quotedTree = write mergedTree ∧
      contents quotedTree = contents mergedTree := by
  have hnames : isName "my-tag" ∧
      ∀ a ∈ [("title", "<b class=\"x\">&amp;")], isName a.1 ∧ a.1 ≠ "class" := by
    decide +kernel
  have h : Readable quotedTree :=
    ⟨⟨hnames.1, hnames.2, trivial, trivial, ⟨trivial, trivial⟩, trivial⟩, trivial⟩
  have h' : Readable mergedTree := ⟨hnames.1, hnames.2, trivial, trivial⟩
  have hwrite : write quotedTree = write mergedTree := by decide +kernel
  exact ⟨h, h', hwrite, (write_readable.1 _ _ h h').mp hwrite⟩

end Contents

end Montage.Html
