import Mathlib.Data.Set.Finite.Lattice
import Montage.Proofs.Query.Answers

/-!
Configs that are made of a stock of values. Main statements: for finitely many values there is a finite
stock of which they can be made, and with them all that queries written in them come to; and only finitely
many configs can be read from what is made of such a stock.
-/

namespace Montage

open Json (Value Atom Stock)

variable {F : Type}

/-- A finite stock with all texts up to a length, with the numbers of places in lists, and with all that
texts of that length write. -/
structure Json.Stock.Suffices (k : Stock) (n : Nat) : Prop where
  finite : k.atoms.Finite
  texts : ∀ s, .text s ∈ k.atoms ↔ s.length ≤ n
  places : ∀ i : Nat, i ≤ k.weight → .number (.int i) ∈ k.atoms
  written : ∀ v, Written n v → k.Makes v

theorem finite_char : Finite Char :=
  Finite.of_injective (fun c => c.val.toBitVec.toFin) fun a b h => by
    apply Char.ext
    apply UInt32.toBitVec_inj.mp
    exact BitVec.eq_of_toFin_eq h

/-- Texts of bounded length write finitely many values. -/
theorem finite_written (n : Nat) : {v | Written n v}.Finite := by
  have := finite_char
  have htexts := List.finite_length_le Char n
  refine ((htexts.image fun t => Value.str (String.ofList t)).union
    (htexts.image fun s => (Value.read s).getD .null)).subset ?_
  intro v hv
  cases hv with
  | quoted short => exact .inl ⟨_, short, rfl⟩
  | @read s _ short read => exact .inr ⟨s, short, congrArg (Option.getD · Value.null) read⟩

theorem finite_texts (n : Nat) : {s : String | s.length ≤ n}.Finite := by
  have := finite_char
  refine ((List.finite_length_le Char n).image String.ofList).subset fun s hs => ?_
  exact ⟨s.toList, Nat.le_trans (Nat.le_of_eq String.length_toList) hs, String.ofList_toList⟩

theorem exists_within (as : List Atom) (least : Nat) : ∃ n, least ≤ n ∧ ∀ a ∈ as, a.Within n := by
  induction as with
  | nil => exact ⟨least, Nat.le_refl _, nofun⟩
  | cons a as ih =>
    obtain ⟨n, hleast, hall⟩ := ih
    have ha : ∃ m, a.Within m := by
      cases a with
      | text s => exact ⟨s.length, Nat.le_refl _⟩
      | number m => exact ⟨0, trivial⟩
    obtain ⟨m, ha⟩ := ha
    exact ⟨max n m, Nat.le_trans hleast (Nat.le_max_left ..), List.forall_mem_cons.mpr
      ⟨ha.mono (Nat.le_max_right ..), fun b hb => (hall b hb).mono (Nat.le_max_left ..)⟩⟩

theorem Written.within {n : Nat} {v : Value} (h : Written n v) : ∀ a ∈ v.atoms, a.Within n := by
  cases h with
  | quoted short => exact List.forall_mem_singleton.mpr (Nat.le_trans (Nat.le_of_eq String.length_ofList) short)
  | read short read => exact fun a ha => (Value.within_of_read read a ha).mono short

/-- There is a stock that suffices for finitely many values, and it is as large as one likes. -/
theorem exists_suffices (vs : List Value) (least : Nat) :
    ∃ k n, Stock.Suffices k n ∧ (least ≤ k.weight ∧ least ≤ n) ∧ ∀ v ∈ vs, k.Makes v := by
  obtain ⟨n, hn, hshort⟩ := exists_within (vs.flatMap Value.atoms) least
  let made : Set Value := {v | v ∈ vs} ∪ {v | Written n v}
  have hmade : made.Finite := vs.finite_toSet.union (finite_written n)
  have hwithin : ∀ v ∈ made, ∀ a ∈ v.atoms, a.Within n := by
    rintro v (hv | hv) a ha
    · exact hshort a (List.mem_flatMap_of_mem hv ha)
    · exact hv.within a ha
  obtain ⟨m, hm⟩ := (hmade.image Value.weight).bddAbove
  -- All short texts, the atoms of all that is to be made, and the places in lists.
  let k : Stock := ⟨max m least, (Atom.text '' {s | s.length ≤ n} ∪ ⋃ v ∈ made, {a | a ∈ v.atoms}) ∪
    (fun i : Nat => Atom.number (.int i)) '' {i | i ≤ max m least}⟩
  have hmakes : ∀ v ∈ made, k.Makes v := fun v hv =>
    ⟨Nat.le_trans (hm ⟨v, hv, rfl⟩) (Nat.le_max_left ..),
      fun a ha => .inl (.inr (Set.mem_biUnion hv ha))⟩
  refine ⟨k, n, ⟨?_, fun s => ⟨?_, fun hs => .inl (.inl ⟨s, hs, rfl⟩)⟩, fun i hi => .inr ⟨i, hi, rfl⟩,
    fun v hv => hmakes v (.inr hv)⟩, ⟨Nat.le_max_right .., hn⟩, fun v hv => hmakes v (.inl hv)⟩
  · refine ((finite_texts n).image _ |>.union (hmade.biUnion fun v _ => v.atoms.finite_toSet)).union ?_
    exact (Set.finite_le_nat _).image _
  · rintro ((⟨s', hs', he⟩ | ha) | ⟨i, _, hi⟩)
    · cases he
      exact hs'
    · obtain ⟨v, hv, ha⟩ := Set.mem_iUnion₂.mp ha
      exact hwithin v hv _ ha
    · cases hi

namespace Json.Stock.Suffices

variable {k : Stock} {n : Nat} (h : k.Suffices n)
include h

theorem str {s : String} (hs : s.length ≤ n) : k.Makes (.str s) := by
  have hquoted : Written n (.str (String.ofList s.toList)) := .quoted (String.length_toList ▸ hs)
  rw [String.ofList_toList] at hquoted
  exact h.written _ hquoted

theorem length_le {s : String} (hs : k.Makes (.str s)) : s.length ≤ n :=
  (h.texts s).mp (hs.atoms _ List.mem_cons_self)

/-- What an expression comes to can be made if data and context can. -/
theorem yields {data context v : Value} (hv : Yields n data context v) (hdata : k.Makes data)
    (hcontext : k.Makes context) : k.Makes v := by
  cases hv with
  | data part => exact hdata.part part
  | context part => exact hcontext.part part
  | truth b => exact ⟨Nat.le_trans data.weight_pos hdata.weight, nofun⟩
  | written written => exact h.written v written

end Json.Stock.Suffices

/-! Configs that are made of a stock. -/

section Making

variable {k : Stock} {n : Nat}

/-- A query with a short text, or a value that can be made. -/
def Query.SuppliedBy (k : Stock) (n : Nat) : Query F → Prop
  | .text s => s.length ≤ n
  | .value v => k.Makes v
  | .function _ => False

/-- A prop that can be made, or a config that is read from what can be made. -/
def PropValue.SuppliedBy (k : Stock) (p : PropValue F) : Prop :=
  (∃ v, p = .json v ∧ k.Makes v) ∨ ∃ v, p = .config (.ofJson v) ∧ k.Makes v

/-- A config whose data query and props are made of a stock. -/
structure Config.SuppliedBy (k : Stock) (n : Nat) (c : Config F) : Prop where
  data : ∀ q, c.data = some q → q.SuppliedBy k n
  props : ∀ f ∈ c.props, f.2.SuppliedBy k

namespace Config

variable {c : Config F} {offending : Value}

/-- A config that has no data query and no props. -/
theorem suppliedBy_of_bare (hdata : c.data = none) (hprops : c.props = []) : c.SuppliedBy k n :=
  ⟨by simp [hdata], by simp [hprops]⟩

theorem SuppliedBy.withProp {key : String} {p : PropValue F} (h : c.SuppliedBy k n) (hp : p.SuppliedBy k) :
    (c.withProp key p).SuppliedBy k n :=
  ⟨h.data, fun _ hf => (Fields.mem_insert hf).elim (fun he => he ▸ hp) (h.props _)⟩

theorem SuppliedBy.withData {q : Query F} (h : c.SuppliedBy k n) (hq : q.SuppliedBy k n) :
    SuppliedBy k n { c with data := some q } :=
  ⟨fun _ he => Option.some.inj he ▸ hq, h.props⟩

theorem SuppliedBy.ensureView (h : c.SuppliedBy k n) : c.ensureView.SuppliedBy k n := by
  unfold Config.ensureView
  split
  · exact h
  · exact suppliedBy_of_bare rfl rfl

end Config

variable (h : k.Suffices n)
include h

theorem Query.suppliedBy_ofJson {v : Value} (hv : k.Makes v) : (Query.ofJson v : Query F).SuppliedBy k n := by
  cases v with
  | str s => exact h.length_le hv
  | _ => exact hv

/-- Fields of an object make configs of the same stock. -/
theorem Config.SuppliedBy.addFields {c : Config F} {offending : Value} {fields : List (String × Value)}
    (hc : c.SuppliedBy k n) (hfields : ∀ f ∈ fields, k.Makes f.2) :
    (addFields offending c fields).SuppliedBy k n := by
  induction fields generalizing c with
  | nil => exact hc
  | cons f fields ih =>
    obtain ⟨hf, hrest⟩ := List.forall_mem_cons.mp hfields
    obtain ⟨key, value⟩ := f
    unfold Config.addFields
    split
    · split
      · exact ih ⟨hc.data, hc.props⟩ hrest
      · exact ih hc hrest
      · exact suppliedBy_of_bare rfl rfl
    · split
      · exact ih ⟨hc.data, hc.props⟩ hrest
      · split
        · exact ih (hc.withData (Query.suppliedBy_ofJson h hf)) hrest
        · split
          · exact ih ⟨hc.data, hc.props⟩ hrest
          · split
            · exact ih ⟨hc.data, hc.props⟩ hrest
            · split
              · exact suppliedBy_of_bare rfl rfl
              · exact ih (hc.withProp (.inl ⟨value, rfl, hf⟩)) hrest

namespace Shorthand

open Expression (FieldWithin)

variable {f : LiteralField} {m : Nat}

theorem suppliedBy_fieldProp (hm : m + 1 ≤ n) (hf : FieldWithin m f) :
    (fieldProp f : PropValue F).SuppliedBy k := by
  unfold fieldProp
  split
  · rename_i v hv
    exact .inl ⟨v, rfl, h.written v ((hf.literal v hv).mono (Nat.le_of_succ_le hm))⟩
  · refine .inl ⟨_, rfl, h.str ?_⟩
    have hsource := hf.source
    have hsign : "=".length = 1 := rfl
    rw [String.length_append]
    omega

theorem suppliedBy_fieldQuery (hm : m ≤ n) (hf : FieldWithin m f) :
    (fieldQuery f : Query F).SuppliedBy k n := by
  have hsource := Nat.le_trans hf.source hm
  unfold fieldQuery
  split
  · rename_i v hv
    split
    · exact hsource
    · exact h.written v ((hf.literal v hv).mono hm)
  · exact hsource

/-- Fields of a short object literal make configs of the stock. -/
theorem suppliedBy_addFields {whole : String} {c : Config F} {fields : List LiteralField} (hm : m + 1 ≤ n)
    (hc : c.SuppliedBy k n) (hfields : ∀ f ∈ fields, FieldWithin m f) :
    (addFields whole c fields).SuppliedBy k n := by
  induction fields generalizing c with
  | nil => exact hc
  | cons f fields ih =>
    obtain ⟨hf, hrest⟩ := List.forall_mem_cons.mp hfields
    unfold addFields
    split
    · exact Config.suppliedBy_of_bare rfl rfl
    · split
      · exact ih ⟨hc.data, hc.props⟩ hrest
      · split
        · exact ih (hc.withData (suppliedBy_fieldQuery h (Nat.le_of_succ_le hm) hf)) hrest
        · split
          · exact ih ⟨hc.data, hc.props⟩ hrest
          · split
            · exact ih ⟨hc.data, hc.props⟩ hrest
            · exact ih (hc.withProp (suppliedBy_fieldProp h hm hf)) hrest

omit h in
/-- The parts of a shorthand with a separator stand beside it, and the name is not empty. -/
theorem length_parts {seen s : List Char} {p : Parts} (hp : partsFrom seen s = some p) :
    p.rest.length + 2 ≤ seen.length + s.length := by
  induction s generalizing seen with
  | nil => cases hp
  | cons c s ih =>
    simp only [partsFrom] at hp
    split at hp
    · cases hp
    · split at hp
      · rename_i hname
        split at hp
        · cases hp
        · cases hp
          cases seen with
          | nil => simp at hname
          | cons d seen =>
            simp only [List.length_cons]
            omega
      · have := ih hp
        simp only [List.length_cons] at this ⊢
        omega

/-- What a short text stands for. -/
theorem suppliedBy_read {whole : String} (hwhole : whole.length ≤ n) :
    (read Expression.engine whole : Config F).SuppliedBy k n := by
  unfold read
  split
  · exact Config.suppliedBy_of_bare rfl rfl
  · rename_i p hp
    have hlength : p.rest.length + 2 ≤ [].length + whole.toList.length := length_parts hp
    rw [List.length_nil, Nat.zero_add, String.length_toList] at hlength
    simp only
    split
    · refine Config.SuppliedBy.withData (Config.suppliedBy_of_bare rfl rfl) ?_
      rw [Query.SuppliedBy, String.length_ofList]
      omega
    · split
      · exact Config.suppliedBy_of_bare rfl rfl
      · rename_i fields hfields
        refine suppliedBy_addFields h (m := n - 1) (by omega) (Config.suppliedBy_of_bare rfl rfl) ?_
        refine Expression.fieldWithin_of_parseLiteral ?_ hfields
        rw [String.toList_ofList, List.length_cons]
        omega

end Shorthand

/-- The configs that are read from what can be made are made of the same stock. -/
theorem RawConfig.provides_suppliedBy :
    Provides Expression.engine k.Makes (Config.SuppliedBy k n : Config F → Prop) where
  text _ hs := Shorthand.suppliedBy_read h (h.length_le hs)
  object _ hfields :=
    (Config.suppliedBy_of_bare rfl rfl).addFields h fun _ hf => hfields.part (.field hf)
  invalid _ _ := Config.suppliedBy_of_bare rfl rfl
  item hitems hv := hitems.part (.item hv)

end Making

end Montage
