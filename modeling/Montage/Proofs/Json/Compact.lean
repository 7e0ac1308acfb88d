import Montage.Proofs.Config.Rereading
import Montage.Proofs.Json.Numerals
import Montage.Proofs.Json.Quoting

/-!
Reading data that was written. Main statements: where a value is written, what is read is the value with its
numbers read and its fields put in order, and an object that is read back has fields that are.
-/

namespace Montage.Json

namespace Value

mutual

/-- What is read where a value is written. Values that nest too deep are not read. -/
def reread (depth : Nat) : Value → Option Value
  | .null => some .null
  | .bool b => some (.bool b)
  | .num n => n.reread.map .num
  | .str s => some (.str s)
  | .arr items => if depth ≤ 1 then none else (rereadItems (depth - 1) items).map .arr
  | .obj fields =>
    if depth ≤ 1 then none
    else (rereadFields (depth - 1) fields).map fun fields => .obj (Fields.ofList fields)

def rereadItems (depth : Nat) : List Value → Option (List Value)
  | [] => some []
  | v :: items => (reread depth v).bind fun v => (rereadItems depth items).map (v :: ·)

def rereadFields (depth : Nat) : List (String × Value) → Option (List (String × Value))
  | [] => some []
  | (k, v) :: fields => (reread depth v).bind fun v => (rereadFields depth fields).map ((k, v) :: ·)

end

variable {fuel depth : Nat} {v : Value} {items : List Value} {fields : List (String × Value)}
  {s t rest : List Char}

/-! What values begin with. -/

/-- The first characters of written values. -/
def Opens (c : Char) : Prop :=
  c ∈ ['"', '[', '\x7b', '-', 'n', 't', 'f'] ∨ c.isDigit

theorem compactChars_opens (v : Value) : ∃ c s, v.compactChars = c :: s ∧ Opens c := by
  cases v with
  | null => exact ⟨_, _, rfl, .inl (by decide)⟩
  | bool b => cases b <;> exact ⟨_, _, rfl, .inl (by decide)⟩
  | str s => exact ⟨_, _, rfl, .inl (by decide)⟩
  | arr items => exact ⟨_, _, rfl, .inl (by decide)⟩
  | obj fields => exact ⟨_, _, rfl, .inl (by decide)⟩
  | num n =>
    rw [compactChars]
    obtain ⟨s, hs, htext | htext⟩ := n.text_cases
    · cases hs with
      | parts hdigit =>
        rw [htext]
        exact ⟨_, _, rfl, .inr hdigit⟩
    · exact ⟨_, _, htext, .inl (by decide)⟩

instance : DecidablePred Opens :=
  fun _ => inferInstanceAs (Decidable (_ ∨ _))

theorem Opens.ne {c d : Char} (hc : Opens c) (hd : ¬ Opens d) : c ≠ d := by
  rintro rfl
  exact hd hc

theorem Opens.isSpace {c : Char} (h : Opens c) : isSpace c = false := by
  simp only [Json.isSpace, Bool.or_eq_false_iff, beq_eq_false_iff_ne]
  exact ⟨⟨⟨h.ne (by decide), h.ne (by decide)⟩, h.ne (by decide)⟩, h.ne (by decide)⟩

theorem skipSpace_cons {c : Char} (h : isSpace c = false) : skipSpace (c :: s) = c :: s := by
  rw [skipSpace, List.dropWhile_cons_of_neg (by simp [h])]

theorem skipSpace_compactChars (v : Value) (rest : List Char) :
    skipSpace (v.compactChars ++ rest) = v.compactChars ++ rest := by
  obtain ⟨c, s, hv, hc⟩ := v.compactChars_opens
  rw [hv, List.cons_append, skipSpace_cons hc.isSpace]

/-! Reading one value. -/

theorem readValue_string (x : String) :
    readValue (fuel + 1) depth (quotedString x ++ rest) = some (.str x, rest) := by
  obtain ⟨m, hm⟩ := readBody_written x.toList rest 0
  have htext : quotedString x ++ rest = '"' :: (x.toList.flatMap escapeChar ++ '"' :: rest) := by
    simp [quotedString, quoted]
  rw [htext, readValue, skipSpace_cons rfl]
  simp only [↓reduceIte, hm, String.ofList_toList]

theorem readValue_number (n : Number) (h : Closes rest) :
    readValue (fuel + 1) depth (n.text ++ rest) = n.reread.map fun n => (.num n, rest) := by
  have hspace := skipSpace_compactChars (.num n) rest
  rw [compactChars] at hspace
  rw [readValue, hspace]
  obtain ⟨s, hs, ⟨htext, hreread⟩ | ⟨htext, hreread⟩⟩ := n.reread_cases
  · have hread : Number.read false (s ++ rest) = _ := Number.read_numeral hs h
    obtain ⟨c, t, rfl, hc⟩ := hs.head
    have hother : ∀ d : Char, d.isDigit = false → c ≠ d := by
      rintro d hd rfl
      rw [hc] at hd
      cases hd
    rw [List.cons_append] at hread
    rw [htext, List.cons_append, hreread]
    simp only [hother '"' rfl, hother '[' rfl, hother '\x7b' rfl, hother '-' rfl, hc, ↓reduceIte, hread,
      Option.map_map]
    rfl
  · rw [htext, List.cons_append, hreread]
    simp only [Char.reduceEq, ↓reduceIte, Number.read_numeral hs h, Option.map_map]
    rfl

/-- What stands in an array begins like its first element. -/
theorem readValue_array {c : Char} (hc : Opens c) (s : List Char) :
    readValue (fuel + 1) depth ('[' :: c :: s) =
      if depth ≤ 1 then none
      else (readItems fuel (depth - 1) (c :: s)).map fun p => (.arr p.1, p.2) := by
  have hclosing : c ≠ ']' := hc.ne (by decide)
  rw [readValue, skipSpace_cons rfl]
  simp only [Char.reduceEq, ↓reduceIte, skipSpace_cons hc.isSpace]
  split
  · rfl
  · split
    · simp_all
    · rfl

theorem readValue_object (s : List Char) :
    readValue (fuel + 1) depth ('\x7b' :: '"' :: s) =
      if depth ≤ 1 then none
      else (readFields fuel (depth - 1) ('"' :: s)).map fun p => (.obj (Fields.ofList p.1), p.2) := by
  rw [readValue, skipSpace_cons rfl]
  rfl

/-! Reading elements and fields. -/

/-- Reading one value, when enough fuel is left for it. -/
def ReadsValue (fuel depth : Nat) (v : Value) : Prop :=
  ∀ {rest}, Closes rest → readValue fuel depth (v.compactChars ++ rest) = (reread depth v).map (·, rest)

theorem readItems_last (h : ReadsValue fuel depth v) :
    readItems (fuel + 1) depth (v.compactChars ++ ']' :: rest) =
      (rereadItems depth [v]).map (·, rest) := by
  rw [readItems, h (closes_bracket rest)]
  cases hv : reread depth v with
  | none => simp [rereadItems, hv]
  | some u => simp [rereadItems, hv, skipSpace_cons (c := ']') rfl]

theorem readItems_more (h : ReadsValue fuel depth v)
    (hitems : readItems fuel depth s = (rereadItems depth items).map (·, rest)) :
    readItems (fuel + 1) depth (v.compactChars ++ ',' :: s) =
      (rereadItems depth (v :: items)).map (·, rest) := by
  rw [readItems, h (closes_comma _)]
  cases hv : reread depth v with
  | none => simp [rereadItems, hv]
  | some u =>
    simp only [Option.map_some, skipSpace_cons (c := ',') rfl, hitems, rereadItems, hv, Option.map_map,
      Option.bind_some]
    rfl

/-- A field up to its value. -/
theorem readFields_name (k : String) (s : List Char) :
    readFields (fuel + 1) depth (quotedString k ++ ':' :: s) =
      (readValue fuel depth s).bind fun p =>
        match skipSpace p.2 with
        | ',' :: r => (readFields fuel depth r).map fun q => ((k, p.1) :: q.1, q.2)
        | '\x7d' :: r => some ([(k, p.1)], r)
        | _ => none := by
  obtain ⟨m, hm⟩ := readBody_written k.toList (':' :: s) 0
  have htext : quotedString k ++ ':' :: s = '"' :: (k.toList.flatMap escapeChar ++ '"' :: ':' :: s) := by
    simp [quotedString, quoted]
  rw [htext, readFields, skipSpace_cons rfl]
  simp only [hm, String.ofList_toList, skipSpace_cons (c := ':') rfl]
  cases readValue fuel depth s <;> rfl

theorem readFields_last (h : ReadsValue fuel depth v) (k : String) :
    readFields (fuel + 1) depth (quotedString k ++ ':' :: (v.compactChars ++ '\x7d' :: rest)) =
      (rereadFields depth [(k, v)]).map (·, rest) := by
  rw [readFields_name, h (closes_brace rest)]
  cases hv : reread depth v with
  | none => simp [rereadFields, hv]
  | some u => simp [rereadFields, hv, skipSpace_cons (c := '\x7d') rfl]

theorem readFields_more (h : ReadsValue fuel depth v) (k : String)
    (hfields : readFields fuel depth s = (rereadFields depth fields).map (·, rest)) :
    readFields (fuel + 1) depth (quotedString k ++ ':' :: (v.compactChars ++ ',' :: s)) =
      (rereadFields depth ((k, v) :: fields)).map (·, rest) := by
  rw [readFields_name, h (closes_comma _)]
  cases hv : reread depth v with
  | none => simp [rereadFields, hv]
  | some u =>
    simp only [Option.map_some, skipSpace_cons (c := ',') rfl, hfields, rereadFields, hv, Option.map_map,
      Option.bind_some]
    rfl

mutual

theorem readValue_compactChars {fuel depth : Nat} {rest : List Char} (v : Value) (h : Closes rest)
    (hfuel : 2 * v.compactChars.length ≤ fuel) :
    readValue fuel depth (v.compactChars ++ rest) = (reread depth v).map (·, rest) := by
  obtain ⟨fuel, rfl⟩ : ∃ n, fuel = n + 1 := by
    obtain ⟨c, s, hv, -⟩ := v.compactChars_opens
    rw [hv, List.length_cons] at hfuel
    exact ⟨fuel - 1, by omega⟩
  match v with
  | .null => rfl
  | .bool true => rfl
  | .bool false => rfl
  | .num n =>
    rw [compactChars, readValue_number n h, reread, Option.map_map]
    rfl
  | .str x => exact readValue_string x
  | .arr [] =>
    rw [reread]
    by_cases hdepth : depth ≤ 1
    · simp [compactChars, compactItems, readValue, skipSpace_cons, isSpace, hdepth]
    · simp [compactChars, compactItems, readValue, skipSpace_cons, isSpace, hdepth, rereadItems]
  | .arr (x :: items) =>
    obtain ⟨c, s, hx, hc⟩ := x.compactChars_opens
    have htext : compactItems (x :: items) ++ ']' :: rest = c :: (s ++ compactMore items ++ ']' :: rest) := by
      simp [compactItems, hx]
    simp only [compactChars, List.length_cons, List.length_append, List.length_nil] at hfuel
    have hitems : readItems fuel (depth - 1) (compactItems (x :: items) ++ ']' :: rest) = _ :=
      readItems_compactItems (x :: items) (by simp) (by omega)
    rw [htext] at hitems
    rw [compactChars, List.cons_append, List.append_assoc, List.singleton_append, htext,
      readValue_array hc, reread, hitems]
    split
    · rfl
    · simp only [Option.map_map]
      rfl
  | .obj [] =>
    rw [reread]
    by_cases hdepth : depth ≤ 1
    · simp [compactChars, compactFields, readValue, skipSpace_cons, isSpace, hdepth]
    · simp [compactChars, compactFields, readValue, skipSpace_cons, isSpace, hdepth, rereadFields, Fields.ofList]
  | .obj (f :: fields) =>
    obtain ⟨s, htext⟩ : ∃ s, compactFields (f :: fields) ++ '\x7d' :: rest = '"' :: s :=
      ⟨_, by simp only [compactFields, quotedString, quoted, List.cons_append]; rfl⟩
    simp only [compactChars, List.length_cons, List.length_append, List.length_nil] at hfuel
    have hfields : readFields fuel (depth - 1) (compactFields (f :: fields) ++ '\x7d' :: rest) = _ :=
      readFields_compactFields (f :: fields) (by simp) (by omega)
    rw [htext] at hfields
    rw [compactChars, List.cons_append, List.append_assoc, List.singleton_append, htext,
      readValue_object, reread, hfields]
    split
    · rfl
    · simp only [Option.map_map]
      rfl

theorem readItems_compactItems {fuel depth : Nat} {rest : List Char} (items : List Value) (hne : items ≠ [])
    (hfuel : 2 * (compactItems items).length + 1 ≤ fuel) :
    readItems fuel depth (compactItems items ++ ']' :: rest) =
      (rereadItems depth items).map (·, rest) := by
  obtain ⟨fuel, rfl⟩ : ∃ n, fuel = n + 1 := ⟨fuel - 1, by omega⟩
  match items with
  | [] => exact absurd rfl hne
  | [v] =>
    simp only [compactItems, compactMore, List.append_nil] at hfuel ⊢
    have hv : ReadsValue fuel depth v := fun h => readValue_compactChars v h (by omega)
    exact readItems_last hv
  | v :: w :: items =>
    have hmore : compactItems (v :: w :: items) = v.compactChars ++ ',' :: compactItems (w :: items) := rfl
    rw [hmore] at hfuel ⊢
    simp only [List.length_append, List.length_cons] at hfuel
    rw [List.append_assoc, List.cons_append]
    have hv : ReadsValue fuel depth v := fun h => readValue_compactChars v h (by omega)
    exact readItems_more hv (readItems_compactItems (w :: items) (by simp) (by omega))

theorem readFields_compactFields {fuel depth : Nat} {rest : List Char} (fields : List (String × Value))
    (hne : fields ≠ []) (hfuel : 2 * (compactFields fields).length + 1 ≤ fuel) :
    readFields fuel depth (compactFields fields ++ '\x7d' :: rest) =
      (rereadFields depth fields).map (·, rest) := by
  obtain ⟨fuel, rfl⟩ : ∃ n, fuel = n + 1 := ⟨fuel - 1, by omega⟩
  match fields with
  | [] => exact absurd rfl hne
  | [(k, v)] =>
    simp only [compactFields, compactMoreFields, List.append_nil, List.length_append,
      List.length_cons] at hfuel ⊢
    rw [List.append_assoc, List.cons_append]
    have hv : ReadsValue fuel depth v := fun h => readValue_compactChars v h (by omega)
    exact readFields_last hv k
  | (k, v) :: f :: fields =>
    have hmore : compactFields ((k, v) :: f :: fields) =
        quotedString k ++ ':' :: (v.compactChars ++ ',' :: compactFields (f :: fields)) := rfl
    rw [hmore] at hfuel ⊢
    simp only [List.length_append, List.length_cons] at hfuel
    simp only [List.append_assoc, List.cons_append]
    have hv : ReadsValue fuel depth v := fun h => readValue_compactChars v h (by omega)
    exact readFields_more hv k (readFields_compactFields (f :: fields) (by simp) (by omega))

end

/-- A value that is written is read with its numbers read again, and otherwise as it is. -/
theorem read_compactChars (v : Value) : read v.compactChars = reread depthBound v := by
  have hread : readValue (2 * v.compactChars.length + 2) depthBound (v.compactChars ++ []) = _ :=
    readValue_compactChars v closes_nil (by omega)
  rw [List.append_nil] at hread
  rw [read, hread]
  cases reread depthBound v <;> rfl

/-! What is read back has parts that are. -/

mutual

theorem reread_mono {d d' : Nat} {v u : Value} (hd : d ≤ d') (h : reread d v = some u) :
    reread d' v = some u := by
  match v with
  | .null | .bool _ | .num _ | .str _ => exact h
  | .arr items =>
    simp only [reread] at h ⊢
    split at h
    · cases h
    · obtain ⟨items', hitems, hu⟩ := Option.map_eq_some_iff.mp h
      rw [if_neg (by omega), rereadItems_mono (Nat.sub_le_sub_right hd 1) hitems, ← hu]
      rfl
  | .obj fields =>
    simp only [reread] at h ⊢
    split at h
    · cases h
    · obtain ⟨fields', hfields, hu⟩ := Option.map_eq_some_iff.mp h
      rw [if_neg (by omega), rereadFields_mono (Nat.sub_le_sub_right hd 1) hfields, ← hu]
      rfl

theorem rereadItems_mono {d d' : Nat} {items items' : List Value} (hd : d ≤ d')
    (h : rereadItems d items = some items') : rereadItems d' items = some items' := by
  match items with
  | [] => exact h
  | v :: items =>
    obtain ⟨u, hv, h⟩ := Option.bind_eq_some_iff.mp h
    obtain ⟨us, hitems, hu⟩ := Option.map_eq_some_iff.mp h
    rw [rereadItems, reread_mono hd hv, Option.bind_some, rereadItems_mono hd hitems, ← hu]
    rfl

theorem rereadFields_mono {d d' : Nat} {fields fields' : List (String × Value)} (hd : d ≤ d')
    (h : rereadFields d fields = some fields') : rereadFields d' fields = some fields' := by
  match fields with
  | [] => exact h
  | (k, v) :: fields =>
    obtain ⟨u, hv, h⟩ := Option.bind_eq_some_iff.mp h
    obtain ⟨us, hfields, hu⟩ := Option.map_eq_some_iff.mp h
    rw [rereadFields, reread_mono hd hv, Option.bind_some, rereadFields_mono hd hfields, ← hu]
    rfl

end

theorem rereadFields_names {fields' : List (String × Value)} (h : rereadFields depth fields = some fields') :
    fields'.map Prod.fst = fields.map Prod.fst := by
  induction fields generalizing fields' with
  | nil =>
    cases h
    rfl
  | cons f fields ih =>
    obtain ⟨u, hv, h⟩ := Option.bind_eq_some_iff.mp h
    obtain ⟨us, hfields, rfl⟩ := Option.map_eq_some_iff.mp h
    rw [List.map_cons, List.map_cons, ih hfields]

theorem reread_field (h : rereadFields depth fields = some fields) :
    ∀ f ∈ fields, reread depth f.2 = some f.2 := by
  induction fields with
  | nil => exact nofun
  | cons f fields ih =>
    obtain ⟨u, hv, h⟩ := Option.bind_eq_some_iff.mp h
    obtain ⟨us, hfields, hu⟩ := Option.map_eq_some_iff.mp h
    obtain ⟨hf, rfl⟩ := List.cons_eq_cons.mp hu
    have hsame : u = f.2 := congrArg Prod.snd hf
    exact List.forall_mem_cons.mpr ⟨hsame ▸ hv, ih hfields⟩

/-- Fields in order stay as they are when they are put in order. -/
theorem ofList_of_sorted {fields : List (String × Value)} (h : Fields.Sorted fields) :
    Fields.ofList fields = fields :=
  (Fields.sorted_ofList fields).ext h (Fields.get?_ofList h.nodup)

/-- Each field of an object that is read back is read back. -/
theorem read_field (h : read (obj fields).compactChars = some (obj fields)) :
    ∀ f ∈ fields, read f.2.compactChars = some f.2 := by
  intro f hf
  rw [read_compactChars, reread, if_neg (by decide)] at h
  obtain ⟨fields', hfields, hobj⟩ := Option.map_eq_some_iff.mp h
  have hlist : Fields.ofList fields' = fields := Value.obj.inj hobj
  have hsorted : Fields.Sorted fields' := by
    have hnames : (fields'.map Prod.fst).Pairwise (· < ·) := by
      rw [rereadFields_names hfields, ← hlist]
      exact List.pairwise_map.mpr (Fields.sorted_ofList fields')
    exact List.pairwise_map.mp hnames
  have hsame : fields' = fields := (ofList_of_sorted hsorted).symm.trans hlist
  rw [hsame] at hfields
  rw [read_compactChars]
  exact reread_mono (by decide) (reread_field hfields f hf)

end Value

end Montage.Json
