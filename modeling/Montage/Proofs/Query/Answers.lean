import Montage.Proofs.Config.Data
import Montage.Proofs.Json.Parts
import Montage.Query.Expression

/-!
What the answers to queries are made of. Main statements: an expression comes to a part of the data or of
the context, to a truth value, or to what is written in it; and the fields of an object literal have
sources that are shorter than the literal.
-/

namespace Montage

open Json (Value)
open Json.Value

/-! Paths. -/

namespace Path

theorem weightOfItems_append (items items' : List Value) :
    weightOfItems (items ++ items') = weightOfItems items + weightOfItems items' := by
  induction items with
  | nil => exact (Nat.zero_add _).symm
  | cons v items ih => rw [List.cons_append, weightOfItems, weightOfItems, ih, Nat.add_assoc]

theorem atomsOfItems_append (items items' : List Value) :
    atomsOfItems (items ++ items') = atomsOfItems items ++ atomsOfItems items' := by
  induction items with
  | nil => rfl
  | cons v items ih => rw [List.cons_append, atomsOfItems, atomsOfItems, ih, List.append_assoc]

mutual

theorem partOf_property (name : String) (v : Value) : (property name v).PartOf v := by
  match v with
  | .obj fields =>
    rw [property]
    cases hget : Fields.get? fields name with
    | none => exact .null _
    | some u =>
      obtain ⟨f, hf, rfl⟩ := Fields.mem_of_get? hget
      exact .field hf
  | .arr items =>
    obtain ⟨hweight, hatoms⟩ := partOf_properties name items
    exact ⟨Nat.succ_le_succ hweight, hatoms⟩
  | .null | .bool _ | .num _ | .str _ => exact .null _

theorem partOf_properties (name : String) (items : List Value) :
    weightOfItems (properties name items) ≤ weightOfItems items ∧
      atomsOfItems (properties name items) ⊆ atomsOfItems items := by
  match items with
  | [] => exact ⟨Nat.le_refl _, fun _ h => h⟩
  | v :: items =>
    obtain ⟨hweight, hatoms⟩ := partOf_properties name items
    have hv := partOf_property name v
    simp only [properties, weightOfItems, atomsOfItems]
    split
    · exact ⟨Nat.le_add_left_of_le hweight, List.subset_append_of_subset_right _ hatoms⟩
    · rename_i found hfound
      rw [hfound] at hv
      have hfoundweight : weightOfItems found + 1 ≤ v.weight := hv.weight
      rw [weightOfItems_append, atomsOfItems_append]
      exact ⟨by omega, List.append_subset.mpr ⟨List.subset_append_of_subset_left _ hv.atoms,
        List.subset_append_of_subset_right _ hatoms⟩⟩
    · simp only [weightOfItems, atomsOfItems]
      have := hv.weight
      exact ⟨by omega, List.append_subset.mpr ⟨List.subset_append_of_subset_left _ hv.atoms,
        List.subset_append_of_subset_right _ hatoms⟩⟩

end

theorem partOf_element (v : Value) (i : Nat) : (v.element i).PartOf v := by
  unfold element
  split
  · rename_i items
    cases hget : items[i]? with
    | none => exact .null _
    | some u => exact .item (List.mem_of_getElem? hget)
  · exact .null _

theorem partOf_apply (g : Segment) (v : Value) : (g.apply v).PartOf v := by
  have hindexes : ∀ (is : List Nat) (v : Value), (is.foldl element v).PartOf v := by
    intro is
    induction is with
    | nil => exact .refl
    | cons i is ih => exact fun v => (ih _).trans (partOf_element v i)
  refine (hindexes g.indexes _).trans ?_
  split
  · exact .refl v
  · exact partOf_property g.name v

/-- A path leads to a part of its root. -/
theorem partOf_resolve {path : List Char} {root v : Value} (h : resolve path root = .ok v) :
    v.PartOf root := by
  have hfollow : ∀ {segments : List (List Char)} {root : Value},
      follow segments root = .ok v → v.PartOf root := by
    intro segments
    induction segments with
    | nil =>
      intro root h
      exact Except.ok.inj h ▸ .refl root
    | cons s segments ih =>
      intro root h
      simp only [follow] at h
      split at h
      · cases h
      · exact (ih h).trans (partOf_apply _ root)
  exact hfollow h

end Path

/-! Expressions. -/

/-- A value that a text of so many characters writes: one in single quotes, or data as it is read. -/
inductive Written (n : Nat) : Value → Prop
  | quoted {t : List Char} (short : t.length ≤ n) : Written n (.str (String.ofList t))
  | read {s : List Char} {v : Value} (short : s.length ≤ n) (read : Value.read s = some v) :
      Written n v

/-- What an expression of so many characters may come to. -/
inductive Yields (n : Nat) (data context : Value) : Value → Prop
  | data {v : Value} (part : v.PartOf data) : Yields n data context v
  | context {v : Value} (part : v.PartOf context) : Yields n data context v
  | truth (b : Bool) : Yields n data context (.bool b)
  | written {v : Value} (written : Written n v) : Yields n data context v

theorem Written.mono {m n : Nat} {v : Value} (h : Written m v) (hle : m ≤ n) : Written n v := by
  cases h with
  | quoted short => exact .quoted (Nat.le_trans short hle)
  | read short read => exact .read (Nat.le_trans short hle) read

theorem Yields.mono {m n : Nat} {data context v : Value} (h : Yields m data context v)
    (hle : m ≤ n) : Yields n data context v := by
  cases h with
  | data part => exact .data part
  | context part => exact .context part
  | truth b => exact .truth b
  | written written => exact .written (written.mono hle)

namespace Expression

theorem length_singleQuoted {s t : List Char} (h : singleQuoted? s = some t) :
    t.length ≤ s.length := by
  unfold singleQuoted? at h
  split at h
  · split at h
    · cases h
      simp only [List.length_dropLast, List.length_cons]
      omega
    · cases h
  · cases h

theorem yields_of_atom {s : List Char} {data context v : Value} (h : atom s data context = .ok v) :
    Yields s.length data context v := by
  unfold atom at h
  split at h
  · exact .data (Except.ok.inj h ▸ .refl data)
  · split at h
    · exact .context (Except.ok.inj h ▸ .refl context)
    · split at h
      · rename_i hquoted
        exact Except.ok.inj h ▸ .written (.quoted (length_singleQuoted hquoted))
      · split at h
        · rename_i hread
          exact Except.ok.inj h ▸ .written (.read (Nat.le_refl _) hread)
        · split at h
          · exact .context (Path.partOf_resolve h)
          · exact .data (Path.partOf_resolve h)
          · exact .data (Path.partOf_resolve h)

/-- An expression comes to a part of the data or of the context, to a truth value, or to what is
written in it. -/
theorem yields_of_evaluate {source : List Char} {data context v : Value}
    (h : evaluate source data context = .ok v) : Yields source.length data context v := by
  rw [evaluate] at h
  split at h
  · split at h
    · cases h
    · exact Except.ok.inj h ▸ .truth _
  · split at h
    · split at h
      · cases h
      · split at h
        · cases h
        · exact Except.ok.inj h ▸ .truth _
    · exact (yields_of_atom h).mono (Text.length_trim_le source)

/-! Object literals. -/

theorem length_of_mem_splitFrom {sep : Char} {p : Scan.Place} {s w : List Char}
    (h : w ∈ Scan.splitFrom sep p s) : w.length ≤ s.length := by
  induction s generalizing p w with
  | nil => exact List.mem_singleton.mp h ▸ Nat.le_refl _
  | cons c s ih =>
    simp only [Scan.splitFrom] at h
    split at h
    · rcases List.mem_cons.mp h with rfl | h
      · exact Nat.zero_le _
      · exact Nat.le_succ_of_le (ih h)
    · split at h
      · exact List.mem_singleton.mp h ▸ Nat.succ_le_succ (Nat.zero_le _)
      · rename_i w' ws hsplit
        rcases List.mem_cons.mp h with rfl | h
        · exact Nat.succ_le_succ (ih (hsplit ▸ List.mem_cons_self))
        · exact Nat.le_succ_of_le (ih (hsplit ▸ List.mem_cons_of_mem _ h))

theorem length_of_cutFrom {sep : Char} {p : Scan.Place} {s before rest : List Char}
    (h : Scan.cutFrom sep p s = some (before, rest)) : rest.length ≤ s.length := by
  induction s generalizing p before with
  | nil => cases h
  | cons c s ih =>
    simp only [Scan.cutFrom] at h
    split at h
    · cases h
      exact Nat.le_succ _
    · obtain ⟨⟨before', rest'⟩, hcut, hp⟩ := Option.map_eq_some_iff.mp h
      cases hp
      exact Nat.le_succ_of_le (ih hcut)

/-- The source of a field has so many characters, and a value of its own is written in it. -/
structure FieldWithin (n : Nat) (f : LiteralField) : Prop where
  source : f.source.length ≤ n
  literal : ∀ v, f.literal = some v → Written n v

theorem FieldWithin.mono {m n : Nat} {f : LiteralField} (h : FieldWithin m f) (hle : m ≤ n) :
    FieldWithin n f :=
  ⟨Nat.le_trans h.source hle, fun v hv => (h.literal v hv).mono hle⟩

theorem written_of_literal {source : List Char} {v : Value} (h : literal? source = some v) :
    Written source.length v := by
  unfold literal? at h
  split at h
  · rename_i hquoted
    exact Option.some.inj h ▸ .quoted (length_singleQuoted hquoted)
  · exact .read (Nat.le_refl _) h

theorem fieldWithin_of_readEntry {entry : List Char} {f : LiteralField}
    (h : readEntry entry = .ok f) : FieldWithin entry.length f := by
  unfold readEntry at h
  split at h
  · split at h
    · cases h
      exact ⟨Nat.le_of_eq String.length_ofList, nofun⟩
    · cases h
  · rename_i key value hcut
    split at h
    · cases h
    · simp only at h
      split at h
      · cases h
      · cases h
        have hvalue := Nat.le_trans (Text.length_trim_le value) (length_of_cutFrom hcut)
        exact ⟨Nat.le_trans (Nat.le_of_eq String.length_ofList) hvalue,
          fun v hv => (written_of_literal hv).mono hvalue⟩

theorem fieldWithin_of_readEntries {entries : List (List Char)} {fields : List LiteralField} {n : Nat}
    (hentries : ∀ e ∈ entries, e.length ≤ n) (h : readEntries entries = .ok fields) :
    ∀ f ∈ fields, FieldWithin n f := by
  induction entries generalizing fields with
  | nil =>
    cases h
    nofun
  | cons e entries ih =>
    obtain ⟨he, hrest⟩ := List.forall_mem_cons.mp hentries
    simp only [readEntries] at h
    split at h
    · exact ih hrest h
    · split at h
      · cases h
      · rename_i f hf
        split at h
        · cases h
        · rename_i fs hfs
          cases h
          have hentry := (fieldWithin_of_readEntry hf).mono (Nat.le_trans (Text.length_trim_le e) he)
          exact List.forall_mem_cons.mpr ⟨hentry, ih hrest hfs⟩

/-- The fields of an object literal stand between its braces. -/
theorem fieldWithin_of_parseLiteral {source : List Char} {fields : List LiteralField} {n : Nat}
    (hsource : source.length ≤ n + 2) (h : parseLiteral source = .ok fields) :
    ∀ f ∈ fields, FieldWithin n f := by
  unfold parseLiteral at h
  split at h
  · cases h
  · rename_i inner hinner
    refine fieldWithin_of_readEntries (fun e he => ?_) h
    have hpiece := length_of_mem_splitFrom he
    have htrim := Text.length_trim_le source
    unfold braced? at hinner
    split at hinner
    · split at hinner
      · rename_i r hs hlast
        cases hinner
        rw [hs] at htrim
        cases r with
        | nil => cases hlast
        | cons c r =>
          simp only [List.length_dropLast, List.length_cons] at hpiece htrim
          omega
      · cases hinner
    · cases hinner

end Expression

end Montage
