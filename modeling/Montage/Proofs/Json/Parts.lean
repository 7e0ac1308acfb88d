import Mathlib.Data.Set.Finite.List
import Mathlib.Data.Set.Finite.Lattice
import Montage.Proofs.Json.Numerals

/-!
What values are made of. The atoms of a value are its texts, the names of its fields and its numbers. Main
statements: values of bounded weight over finitely many atoms are finitely many, and a value that is read
has no text longer than what it is read from.
-/

namespace Montage.Json

inductive Atom where
  | text (s : String)
  | number (n : Number)

namespace Value

mutual

/-- How many values there are in a value, itself among them. -/
def weight : Value → Nat
  | .arr items => weightOfItems items + 1
  | .obj fields => weightOfFields fields + 1
  | _ => 1

def weightOfItems : List Value → Nat
  | [] => 0
  | v :: r => v.weight + weightOfItems r

def weightOfFields : List (String × Value) → Nat
  | [] => 0
  | (_, v) :: r => v.weight + weightOfFields r

end

mutual

def atoms : Value → List Atom
  | .num n => [.number n]
  | .str s => [.text s]
  | .arr items => atomsOfItems items
  | .obj fields => atomsOfFields fields
  | _ => []

def atomsOfItems : List Value → List Atom
  | [] => []
  | v :: r => v.atoms ++ atomsOfItems r

def atomsOfFields : List (String × Value) → List Atom
  | [] => []
  | (key, v) :: r => .text key :: (v.atoms ++ atomsOfFields r)

end

variable {u v w : Value} {items : List Value} {fields : List (String × Value)} {n : Nat}

theorem weight_pos (v : Value) : 0 < v.weight := by
  cases v <;> simp [weight]

theorem weight_item_le (h : v ∈ items) : v.weight ≤ weightOfItems items := by
  induction items with
  | nil => cases h
  | cons x items ih =>
    rw [weightOfItems]
    rcases List.mem_cons.mp h with rfl | h
    · exact Nat.le_add_right ..
    · exact Nat.le_add_left_of_le (ih h)

theorem weight_field_le {f : String × Value} (h : f ∈ fields) :
    f.2.weight ≤ weightOfFields fields := by
  induction fields with
  | nil => cases h
  | cons x fields ih =>
    rw [weightOfFields]
    rcases List.mem_cons.mp h with rfl | h
    · exact Nat.le_add_right ..
    · exact Nat.le_add_left_of_le (ih h)

theorem atoms_item (h : v ∈ items) : v.atoms ⊆ atomsOfItems items := by
  induction items with
  | nil => cases h
  | cons x items ih =>
    rw [atomsOfItems]
    rcases List.mem_cons.mp h with rfl | h
    · exact List.subset_append_left ..
    · exact List.subset_append_of_subset_right _ (ih h)

theorem atoms_field {f : String × Value} (h : f ∈ fields) : f.2.atoms ⊆ atomsOfFields fields := by
  induction fields with
  | nil => cases h
  | cons x fields ih =>
    rw [atomsOfFields]
    rcases List.mem_cons.mp h with rfl | h
    · exact fun _ ha => List.mem_cons_of_mem _ (List.mem_append_left _ ha)
    · exact fun _ ha => List.mem_cons_of_mem _ (List.mem_append_right _ (ih h ha))

/-! Parts of values. -/

/-- A value is made of no more than is in another. -/
structure PartOf (u v : Value) : Prop where
  weight : u.weight ≤ v.weight
  atoms : u.atoms ⊆ v.atoms

namespace PartOf

theorem refl (v : Value) : v.PartOf v :=
  ⟨Nat.le_refl _, fun _ h => h⟩

theorem trans (h : u.PartOf v) (h' : v.PartOf w) : u.PartOf w :=
  ⟨Nat.le_trans h.weight h'.weight, fun _ ha => h'.atoms (h.atoms ha)⟩

theorem null (v : Value) : Value.null.PartOf v :=
  ⟨weight_pos v, nofun⟩

theorem item (h : v ∈ items) : v.PartOf (.arr items) :=
  ⟨Nat.le_succ_of_le (weight_item_le h), atoms_item h⟩

theorem field {f : String × Value} (h : f ∈ fields) : f.2.PartOf (.obj fields) :=
  ⟨Nat.le_succ_of_le (weight_field_le h), atoms_field h⟩

end PartOf

theorem length_le_weight (items : List Value) : items.length ≤ weightOfItems items := by
  induction items with
  | nil => exact Nat.le_refl 0
  | cons v items ih =>
    have := weight_pos v
    simp only [List.length_cons, weightOfItems]
    omega

theorem length_le_weightOfFields (fields : List (String × Value)) :
    fields.length ≤ weightOfFields fields := by
  induction fields with
  | nil => exact Nat.le_refl 0
  | cons f fields ih =>
    have := weight_pos f.2
    simp only [List.length_cons, weightOfFields]
    omega

theorem text_mem_atoms {f : String × Value} (h : f ∈ fields) : .text f.1 ∈ atomsOfFields fields := by
  induction fields with
  | nil => cases h
  | cons g fields ih =>
    rw [atomsOfFields]
    rcases List.mem_cons.mp h with rfl | h
    · exact List.mem_cons_self
    · exact List.mem_cons_of_mem _ (List.mem_append_right _ (ih h))

/-- A field that is put among others adds no more than itself. -/
theorem weightOfFields_insert_le (fields : Fields Value) (key : String) (v : Value) :
    weightOfFields (Fields.insert fields key v) ≤ v.weight + weightOfFields fields := by
  induction fields with
  | nil => exact Nat.le_refl _
  | cons f fields ih =>
    simp only [Fields.insert]
    split
    · simp only [weightOfFields]
      omega
    · split
      · simp only [weightOfFields]
        omega
      · simp only [weightOfFields]
        omega

theorem atomsOfFields_insert (fields : Fields Value) (key : String) (v : Value) :
    atomsOfFields (Fields.insert fields key v) ⊆ .text key :: (v.atoms ++ atomsOfFields fields) := by
  induction fields with
  | nil => exact fun _ h => h
  | cons f fields ih =>
    simp only [Fields.insert]
    split
    · intro a ha
      simp only [atomsOfFields, List.mem_cons, List.mem_append] at ha ⊢
      tauto
    · split
      · exact fun _ h => h
      · intro a ha
        simp only [atomsOfFields, List.mem_cons, List.mem_append] at ha ⊢
        rcases ha with ha | ha | ha
        · exact .inr (.inr (.inl ha))
        · exact .inr (.inr (.inr (.inl ha)))
        · have := ih ha
          simp only [List.mem_cons, List.mem_append] at this
          tauto

/-- Fields that are put in order are made of the same. -/
theorem atomsOfFields_ofList (fields : List (String × Value)) :
    atomsOfFields (Fields.ofList fields) ⊆ atomsOfFields fields := by
  have hfold : ∀ acc : Fields Value, atomsOfFields (fields.foldl (fun acc f =>
      Fields.insert acc f.1 f.2) acc) ⊆ atomsOfFields acc ++ atomsOfFields fields := by
    induction fields with
    | nil => exact fun acc a ha => List.mem_append_left _ ha
    | cons f fields ih =>
      intro acc a ha
      rcases List.mem_append.mp (ih _ ha) with ha | ha
      · have := atomsOfFields_insert _ _ _ ha
        simp only [atomsOfFields, List.mem_cons, List.mem_append] at this ⊢
        tauto
      · simp only [atomsOfFields, List.mem_cons, List.mem_append]
        tauto
  exact hfold []

end Value

/-- Of what values may be made: so much in all, and these atoms. -/
structure Stock where
  weight : Nat
  atoms : Set Atom

namespace Stock

/-- A value can be made of a stock. -/
structure Makes (k : Stock) (v : Value) : Prop where
  weight : v.weight ≤ k.weight
  atoms : ∀ a ∈ v.atoms, a ∈ k.atoms

variable {k : Stock} {u v : Value}

theorem Makes.part (h : k.Makes v) (hpart : u.PartOf v) : k.Makes u :=
  ⟨Nat.le_trans hpart.weight h.weight, fun a ha => h.atoms a (hpart.atoms ha)⟩

/-- Lists of bounded length over finitely many things are finitely many. -/
theorem finite_lists {β : Type} {xs : Set β} (h : xs.Finite) (n : Nat) :
    {l : List β | l.length ≤ n ∧ ∀ x ∈ l, x ∈ xs}.Finite := by
  have := h.to_subtype
  refine ((List.finite_length_le xs n).image (List.map Subtype.val)).subset ?_
  rintro l ⟨hlength, hall⟩
  exact ⟨l.attachWith (· ∈ xs) hall, by simpa using hlength, by simp⟩

/-- Of a stock with finitely many atoms, finitely many values can be made. -/
theorem finite_makes (h : k.atoms.Finite) : {v | k.Makes v}.Finite := by
  obtain ⟨n, atoms⟩ := k
  replace h : atoms.Finite := h
  induction n with
  | zero => exact Set.finite_empty.subset fun v hv => absurd hv.weight (Nat.not_le.mpr v.weight_pos)
  | succ n ih =>
    have htexts : {s | Atom.text s ∈ atoms}.Finite := h.preimage fun _ _ _ _ => Atom.text.inj
    have hnumbers : {m | Atom.number m ∈ atoms}.Finite := h.preimage fun _ _ _ _ => Atom.number.inj
    have hitems := (finite_lists ih n).image Value.arr
    have hfields := (finite_lists (htexts.prod ih) n).image Value.obj
    have hleaves := (((Set.finite_singleton Value.null).union (Set.finite_range Value.bool)).union
      (hnumbers.image Value.num)).union (htexts.image Value.str)
    refine ((hleaves.union hitems).union hfields).subset fun v hv => ?_
    cases v with
    | null => simp
    | bool b => simp
    | num m => simpa using hv.atoms _ List.mem_cons_self
    | str s => simpa using hv.atoms _ List.mem_cons_self
    | arr items =>
      have hweight : Value.weightOfItems items ≤ n := Nat.le_of_succ_le_succ hv.weight
      refine .inl (.inr ⟨items, ⟨Nat.le_trans (Value.length_le_weight items) hweight, ?_⟩, rfl⟩)
      exact fun v hmem => ⟨Nat.le_trans (Value.weight_item_le hmem) hweight,
        fun a ha => hv.atoms a ((Value.PartOf.item hmem).atoms ha)⟩
    | obj fields =>
      have hweight : Value.weightOfFields fields ≤ n := Nat.le_of_succ_le_succ hv.weight
      refine .inr ⟨fields, ⟨Nat.le_trans (Value.length_le_weightOfFields fields) hweight, ?_⟩, rfl⟩
      exact fun f hmem => ⟨hv.atoms _ (Value.text_mem_atoms hmem),
        Nat.le_trans (Value.weight_field_le hmem) hweight,
        fun a ha => hv.atoms a ((Value.PartOf.field hmem).atoms ha)⟩

end Stock

/-! What reading leaves. -/

/-- What is left of a text when characters of a kind are taken off. -/
def Leaves (p : Char → Prop) (s rest : List Char) : Prop :=
  ∃ taken, s = taken ++ rest ∧ ∀ c ∈ taken, p c

namespace Leaves

variable {p : Char → Prop} {s t rest : List Char}

theorem refl (s : List Char) : Leaves p s s :=
  ⟨[], rfl, List.forall_mem_nil _⟩

theorem cons {c : Char} (hc : p c) (h : Leaves p s rest) : Leaves p (c :: s) rest := by
  obtain ⟨taken, rfl, htaken⟩ := h
  exact ⟨c :: taken, rfl, List.forall_mem_cons.mpr ⟨hc, htaken⟩⟩

theorem trans (h : Leaves p s t) (h' : Leaves p t rest) : Leaves p s rest := by
  obtain ⟨taken, rfl, htaken⟩ := h
  obtain ⟨taken', rfl, htaken'⟩ := h'
  exact ⟨taken ++ taken', (List.append_assoc ..).symm, List.forall_mem_append.mpr ⟨htaken, htaken'⟩⟩

theorem suffix (h : Leaves p s rest) : rest <:+ s := by
  obtain ⟨taken, rfl, -⟩ := h
  exact List.suffix_append taken rest

theorem dropWhile {q : Char → Bool} (hq : ∀ c, q c → p c) (s : List Char) : Leaves p s (s.dropWhile q) :=
  ⟨s.takeWhile q, List.takeWhile_append_dropWhile.symm,
    fun c hc => hq c (List.all_eq_true.mp List.all_takeWhile c hc)⟩

theorem word {word : List Char} (h : Value.dropWord word s = some rest) (hp : ∀ c ∈ word, p c) : Leaves p s rest := by
  unfold Value.dropWord at h
  split at h
  · rename_i hprefix
    obtain ⟨t, rfl⟩ := List.isPrefixOf_iff_prefix.mp hprefix
    rw [← Option.some.inj h, List.drop_left]
    exact ⟨word, rfl, hp⟩
  · cases h

end Leaves

namespace Number

variable {negative : Bool} {sig : Nat} {power : Int} {s rest : List Char} {n : Number}

theorem leaves_digits (s : List Char) : Leaves (isPlain ·) s (s.dropWhile Char.isDigit) :=
  .dropWhile (fun _ => isPlain_of_isDigit) s

theorem absorb_leaves (sig count : Nat) (s : List Char) : Leaves (isPlain ·) s (absorb sig count s).2.2 := by
  induction s generalizing sig count with
  | nil => exact .refl []
  | cons c s ih =>
    rw [absorb]
    split
    · rename_i hc
      exact (ih _ _).cons (isPlain_of_isDigit (Bool.and_eq_true_iff.mp hc).1)
    · exact .refl _

theorem absorbExponent_leaves {m k : Nat} (h : absorbExponent m s = some (k, rest)) :
    Leaves (isPlain ·) s rest := by
  induction s generalizing m with
  | nil =>
    cases h
    exact .refl []
  | cons c s ih =>
    simp only [absorbExponent] at h
    split at h
    · rename_i hc
      split at h
      · exact (ih h).cons (isPlain_of_isDigit hc)
      · cases h
    · cases h
      exact .refl _

theorem readExponent_leaves (h : readExponent negative sig power s = some (n, rest)) :
    Leaves (isPlain ·) s rest := by
  unfold readExponent at h
  split at h
  rename_i down digits hsign
  have hdigits : Leaves (isPlain ·) s digits := by
    split at hsign
    · cases hsign
      exact (Leaves.refl _).cons rfl
    · cases hsign
      exact (Leaves.refl _).cons rfl
    · cases hsign
      exact .refl s
  split at h
  · cases h
  · split at h
    · rename_i habsorb
      obtain ⟨m, _, hm⟩ := Option.map_eq_some_iff.mp h
      cases hm
      exact hdigits.trans (absorbExponent_leaves habsorb)
    · split at h
      · cases h
      · cases h
        exact hdigits.trans (leaves_digits digits)

theorem readTail_leaves (h : readTail negative sig power s = some (n, rest)) :
    Leaves (isPlain ·) s rest := by
  unfold readTail at h
  split at h
  · rename_i c s
    split at h
    · rename_i hc
      have hplain : isPlain c := by
        simp only [Bool.or_eq_true, beq_iff_eq] at hc
        rcases hc with rfl | rfl <;> rfl
      exact (readExponent_leaves h).cons hplain
    · obtain ⟨m, _, hm⟩ := Option.map_eq_some_iff.mp h
      cases hm
      exact .refl _
  · obtain ⟨m, _, hm⟩ := Option.map_eq_some_iff.mp h
    cases hm
    exact .refl []

theorem readFraction_leaves (h : readFraction negative sig power s = some (n, rest)) :
    Leaves (isPlain ·) s rest := by
  have hdigits := absorb_leaves sig 0 s
  unfold readFraction at h
  simp only at h
  split at h
  · exact hdigits.trans ((leaves_digits _).trans (readTail_leaves h))
  · split at h
    · cases h
    · exact hdigits.trans (readTail_leaves h)

theorem readRest_leaves {extra : Nat} (h : readRest negative sig extra s = some (n, rest)) :
    Leaves (isPlain ·) s rest := by
  unfold readRest at h
  split at h
  · exact (readFraction_leaves h).cons rfl
  · split at h
    · exact readTail_leaves h
    · cases h
      exact .refl _
  · split at h
    · exact readTail_leaves h
    · cases h
      exact .refl []

theorem drop_takeWhile (p : Char → Bool) (s : List Char) :
    s.drop (s.takeWhile p).length = s.dropWhile p :=
  calc
    _ = (s.takeWhile p ++ s.dropWhile p).drop (s.takeWhile p).length := by
      rw [List.takeWhile_append_dropWhile]
    _ = _ := List.drop_left

/-- What is taken off a text as a number is written with plain characters. -/
theorem read_leaves (h : read negative s = some (n, rest)) : Leaves (isPlain ·) s rest := by
  unfold read at h
  split at h
  · split at h
    · cases h
    · exact (readRest_leaves h).cons rfl
  · split at h
    · cases h
    · have hextra := readRest_leaves h
      rw [drop_takeWhile] at hextra
      exact (absorb_leaves 0 0 s).trans ((leaves_digits _).trans hextra)

end Number

/-- A quoted string is no longer than what it is written with. -/
theorem length_readBody {s : List Char} {offset : Nat} {b : Found (List Char)}
    (h : readBody s offset = .ok b) : b.value.length + b.rest.length ≤ s.length := by
  induction hlength : s.length using Nat.strong_induction_on generalizing s offset b with
  | _ n ih =>
    cases s with
    | nil =>
      rw [readBody] at h
      cases h
    | cons c r =>
      rw [List.length_cons] at hlength
      rw [readBody] at h
      split at h
      · cases h
        simp only [List.length_nil]
        omega
      · split at h
        · split at h
          · cases h
          · rename_i f hf
            split at h
            · cases h
            · rename_i b' hb'
              cases h
              have hescape := length_readEscape hf
              have hbody := ih f.rest.length (by omega) hb' rfl
              simp only [List.length_cons]
              omega
        · split at h
          · cases h
          · split at h
            · cases h
            · rename_i b' hb'
              cases h
              have hbody := ih r.length (by omega) hb' rfl
              simp only [List.length_cons]
              omega

theorem length_skipSpace_le (s : List Char) : (skipSpace s).length ≤ s.length :=
  (List.dropWhile_suffix isSpace).length_le

/-- An atom that is a text is no longer than this. -/
def Atom.Within (n : Nat) : Atom → Prop
  | .text s => s.length ≤ n
  | .number _ => True

theorem Atom.Within.mono {a : Atom} {m n : Nat} (h : a.Within m) (hle : m ≤ n) : a.Within n := by
  cases a with
  | text s => exact Nat.le_trans h hle
  | number m => trivial

/-- What is read from a text has no longer atoms, and leaves no longer rest. -/
structure Reads (s : List Char) (atoms : List Atom) (rest : List Char) : Prop where
  rest : rest.length ≤ s.length
  atoms : ∀ a ∈ atoms, a.Within s.length

namespace Reads

variable {s s' r r' : List Char} {as bs : List Atom}

theorem later (h : Reads s' as r) (hle : s'.length ≤ s.length) : Reads s as r :=
  ⟨Nat.le_trans h.rest hle, fun a ha => (h.atoms a ha).mono hle⟩

theorem append (h : Reads s as r) (h' : Reads s' bs r') (hle : s'.length ≤ s.length) :
    Reads s (as ++ bs) r' :=
  ⟨Nat.le_trans h'.rest hle, List.forall_mem_append.mpr ⟨h.atoms, (h'.later hle).atoms⟩⟩

/-- What has no texts. -/
theorem plain (hle : r.length ≤ s.length) (h : ∀ a ∈ as, ∃ n, a = .number n) : Reads s as r := by
  refine ⟨hle, fun a ha => ?_⟩
  obtain ⟨n, rfl⟩ := h a ha
  trivial

/-- A string after its opening quote. -/
theorem body {b : Found (List Char)} {offset : Nat} (h : readBody s offset = .ok b) :
    Reads s [.text (String.ofList b.value)] b.rest := by
  have hlength := length_readBody h
  refine ⟨by omega, List.forall_mem_singleton.mpr ?_⟩
  rw [Atom.Within, String.length_ofList]
  omega

theorem number {negative : Bool} {v : Value} (hle : s'.length ≤ s.length)
    (h : (Number.read negative s').map (fun p => (Value.num p.1, p.2)) = some (v, r)) :
    Reads s v.atoms r := by
  obtain ⟨⟨n, r'⟩, hr, hp⟩ := Option.map_eq_some_iff.mp h
  cases hp
  exact .plain (Nat.le_trans (Number.read_leaves hr).suffix.length_le hle)
    (List.forall_mem_singleton.mpr ⟨n, rfl⟩)

theorem word {text : List Char} {u v : Value} (hu : u.atoms = []) (hle : s'.length ≤ s.length)
    (h : (Value.dropWord text s').map (fun r => (u, r)) = some (v, r)) : Reads s v.atoms r := by
  obtain ⟨r', hr, hp⟩ := Option.map_eq_some_iff.mp h
  cases hp
  exact .plain (Nat.le_trans (Leaves.word hr fun _ hc => hc).suffix.length_le hle) (hu ▸ nofun)

end Reads

namespace Value

/-- With so much fuel, values are read so, and so are the elements of an array and the fields of an
object. -/
structure ReadSo (fuel : Nat) : Prop where
  value : ∀ {depth s v r}, readValue fuel depth s = some (v, r) → Reads s v.atoms r
  items : ∀ {depth s items r}, readItems fuel depth s = some (items, r) → Reads s (atomsOfItems items) r
  fields : ∀ {depth s fields r}, readFields fuel depth s = some (fields, r) →
    Reads s (atomsOfFields fields) r

namespace ReadSo

variable {fuel depth : Nat} {s r : List Char} {v : Value} {items : List Value}
  {fields : List (String × Value)} (h : ReadSo fuel)
include h

theorem value_succ (hread : readValue (fuel + 1) depth s = some (v, r)) : Reads s v.atoms r := by
  simp only [readValue] at hread
  split at hread
  · cases hread
  · rename_i c s' hs'
    have hcut : (c :: s').length ≤ s.length := hs' ▸ length_skipSpace_le s
    have hspace : s'.length < s.length := hcut
    have hlater := length_skipSpace_le s'
    split at hread
    · split at hread
      · rename_i b hb
        cases hread
        exact (Reads.body hb).later (Nat.le_of_succ_le hspace)
      · cases hread
    · split at hread
      · split at hread
        · cases hread
        · split at hread
          · rename_i r' hr'
            rw [hr', List.length_cons] at hlater
            cases hread
            exact .plain (by omega) nofun
          · obtain ⟨⟨items, r'⟩, hitems, hp⟩ := Option.map_eq_some_iff.mp hread
            cases hp
            exact (h.items hitems).later (by omega)
      · split at hread
        · split at hread
          · cases hread
          · split at hread
            · rename_i r' hr'
              rw [hr', List.length_cons] at hlater
              cases hread
              exact .plain (by omega) nofun
            · obtain ⟨⟨fields, r'⟩, hfields, hp⟩ := Option.map_eq_some_iff.mp hread
              cases hp
              have hfields := (h.fields hfields).later (s := s) (by omega)
              exact ⟨hfields.rest, fun a ha => hfields.atoms a (atomsOfFields_ofList _ ha)⟩
        · split at hread
          · exact Reads.number (by omega) hread
          · split at hread
            · exact Reads.number hcut hread
            · split at hread
              · exact Reads.word rfl hcut hread
              · split at hread
                · exact Reads.word rfl hcut hread
                · split at hread
                  · exact Reads.word rfl hcut hread
                  · cases hread

theorem items_succ (hread : readItems (fuel + 1) depth s = some (items, r)) :
    Reads s (atomsOfItems items) r := by
  simp only [readItems] at hread
  split at hread
  · cases hread
  · rename_i v s' hv
    have hspace := length_skipSpace_le s'
    have hvalue := h.value hv
    split at hread
    · rename_i s'' hs''
      rw [hs'', List.length_cons] at hspace
      obtain ⟨⟨items', r'⟩, hitems, hp⟩ := Option.map_eq_some_iff.mp hread
      cases hp
      exact hvalue.append (h.items hitems) (Nat.le_trans (Nat.le_of_succ_le hspace) hvalue.rest)
    · rename_i s'' hs''
      rw [hs'', List.length_cons] at hspace
      cases hread
      exact hvalue.append (.plain (Nat.le_refl _) nofun)
        (Nat.le_trans (Nat.le_of_succ_le hspace) hvalue.rest)
    · cases hread

theorem fields_succ (hread : readFields (fuel + 1) depth s = some (fields, r)) :
    Reads s (atomsOfFields fields) r := by
  have hspace := length_skipSpace_le s
  simp only [readFields] at hread
  split at hread
  · rename_i s₁ hs₁
    rw [hs₁, List.length_cons] at hspace
    split at hread
    · cases hread
    · rename_i b hb
      have hname := Reads.body hb
      have hspace' := length_skipSpace_le b.rest
      split at hread
      · rename_i s₂ hs₂
        rw [hs₂, List.length_cons] at hspace'
        split at hread
        · cases hread
        · rename_i v s₃ hv
          have hvalue := h.value hv
          have hspace'' := length_skipSpace_le s₃
          have hafter : s₂.length ≤ s₁.length := by
            have := hname.rest
            omega
          split at hread
          · rename_i s₄ hs₄
            rw [hs₄, List.length_cons] at hspace''
            obtain ⟨⟨fields', r'⟩, hfields, hp⟩ := Option.map_eq_some_iff.mp hread
            cases hp
            have hrest := hvalue.append (h.fields hfields)
              (Nat.le_trans (Nat.le_of_succ_le hspace'') hvalue.rest)
            exact (hname.append hrest hafter).later (Nat.le_of_succ_le hspace)
          · rename_i s₄ hs₄
            rw [hs₄, List.length_cons] at hspace''
            cases hread
            have hrest : Reads s₂ (v.atoms ++ []) _ := hvalue.append (.plain (Nat.le_refl _) nofun)
              (Nat.le_trans (Nat.le_of_succ_le hspace'') hvalue.rest)
            exact (hname.append hrest hafter).later (Nat.le_of_succ_le hspace)
          · cases hread
      · cases hread
  · cases hread

end ReadSo

theorem readSo (fuel : Nat) : ReadSo fuel := by
  induction fuel with
  | zero => exact ⟨nofun, nofun, nofun⟩
  | succ fuel ih => exact ⟨ih.value_succ, ih.items_succ, ih.fields_succ⟩

/-- No text in a value is longer than the text that it is read from. -/
theorem within_of_read {s : List Char} {v : Value} (h : read s = some v) :
    ∀ a ∈ v.atoms, a.Within s.length := by
  unfold read at h
  split at h
  · rename_i hread
    split at h
    · cases h
      exact ((readSo _).value hread).atoms
    · cases h
  · cases h

end Value

end Montage.Json
