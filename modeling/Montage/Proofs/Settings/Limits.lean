import Montage.Proofs.Exact.Rounding
import Montage.Proofs.Json.Composition
import Montage.Proofs.Text.Trimming
import Montage.Settings.Document

/-!
Limits of lists, as numbers and as texts. Main statement: a count that is written out is the limit, wherever it is
written, and a number is the limit just if a binary floating point number holds it, or it is the greatest count.
-/

namespace Montage

open Json (Value)

/-! Counts as texts. -/

namespace Text

variable {n : Nat} {s : String}

theorem digitsValue_numeral (n : Nat) : digitsValue (numeral n) = n :=
  Nat.ofDigitChars_toDigits (by decide) (by decide)

theorem isDigit_numeral {c : Char} (hc : c ∈ numeral n) : c.isDigit :=
  Json.Number.isDigits_numeral n c hc

theorem dropPlus_numeral (n : Nat) : dropPlus (numeral n) = numeral n := by
  unfold dropPlus
  split
  · rename_i r hr
    have hplus : '+' ∈ numeral n := hr ▸ List.mem_cons_self
    exact absurd (isDigit_numeral hplus) (by decide)
  · rfl

theorem readCount_numeral (hbound : n < countBound) : readCount (numeral n) = some n := by
  have hne := Json.Number.numeral_ne_nil n
  have hdigits : (numeral n).all Char.isDigit := List.all_eq_true.mpr fun _ hc => isDigit_numeral hc
  simp [readCount, dropPlus_numeral, hne, hdigits, digitsValue_numeral, hbound]

theorem trim_numeral (n : Nat) : trim (numeral n) = numeral n := by
  have hblank : ∀ c ∈ numeral n, isBlank c = false := fun c hc =>
    Json.Number.isBlank_of_isPlain (Json.Number.isPlain_of_isDigit (isDigit_numeral hc))
  exact trim_of_ends (fun c hc => hblank c (List.mem_of_mem_head? hc))
    (fun c hc => hblank c (List.mem_of_mem_getLast? hc))

/-- The text is the number's digits, perhaps with blanks around them. -/
def Writes (s : String) (n : Nat) : Prop :=
  ∃ before after, s.toList = before ++ (numeral n ++ after) ∧ (∀ c ∈ before, isBlank c) ∧ ∀ c ∈ after, isBlank c

theorem Writes.trim (h : Writes s n) : trim s.toList = numeral n := by
  obtain ⟨before, after, hs, hbefore, hafter⟩ := h
  rw [hs, trim_blank_append hbefore, trim_append_blank hafter, trim_numeral]

end Text

/-! The limit of a list. -/

section Limit

variable {n : Nat} {s : String}

theorem listLimit_text (h : Text.Writes s n) (hpos : 1 ≤ n) (hbound : n < 2 ^ 64) (default : Option Nat) :
    listLimit (some (.str s)) default = some n := by
  simp only [listLimit, h.trim, Text.readCount_numeral hbound]
  exact if_pos hpos

open Binary64 in
/-- A number is first rounded, and then held below the bound of counts. -/
theorem listLimit_ofNat (hpos : 1 ≤ n) (hbound : n < 2 ^ 64) (default : Option Nat) :
    listLimit (some (.ofNat n)) default = some (min (nearest n) (2 ^ 64 - 1)) := by
  have hn : n ≠ 0 := Nat.ne_of_gt hpos
  have hlog : n.log2 < 64 := (Nat.log2_lt hn).mpr hbound
  obtain ⟨x, hx, hsign, hden, hnum⟩ := ofQuotient_one hn (by omega)
  have hread : (Json.Number.int n).toBinary64? = some x := hx
  have hleast : x.atLeastOne := by
    rw [atLeastOne, hsign, hnum]
    simpa using Nat.le_mul_of_pos_left _ (nearest_pos hn)
  have hwhole : x.whole = nearest n := by
    rw [whole, hnum, Nat.mul_div_cancel _ hden]
  simp only [listLimit, Value.ofNat, hread, hleast, ↓reduceIte, hwhole]
  rfl

open Binary64 in
/-- Of the numbers that the rounding changes, the bound of counts brings only the greatest one back. -/
theorem min_nearest_eq_iff (hpos : 1 ≤ n) (hbound : n < 2 ^ 64) :
    min (nearest n) (2 ^ 64 - 1) = n ↔ IsExact n ∨ n = 2 ^ 64 - 1 := by
  have hself := nearest_eq_self_iff (Nat.ne_of_gt hpos)
  constructor
  · intro h
    rcases Nat.le_total (nearest n) (2 ^ 64 - 1) with hle | hle
    · exact .inl (hself.mp (Nat.min_eq_left hle ▸ h))
    · exact .inr (h.symm.trans (Nat.min_eq_right hle))
  · rintro (hexact | rfl)
    · rw [hself.mpr hexact]
      omega
    · decide +kernel

end Limit

/-- The number that an item is, if it is a whole one. -/
def Toml.Item.int? : Toml.Item → Option Int
  | .int n => some n
  | _ => none

theorem Toml.Item.eq_of_int? {v : Toml.Item} {n : Int} (h : v.int? = some n) : v = .int n := by
  unfold Toml.Item.int? at h
  split at h
  · rw [Option.some.inj h]
  · cases h

namespace Settings

/-- Settings with another limit. -/
def withLimit (settings : Settings) (limit : Option Nat) : Settings :=
  { settings with listLimit := limit }

/-- The name under which a host gives the limit. -/
def limitName : String :=
  "default_list_limit"

/-- A limit that is given changes nothing else. -/
theorem ofTexts_of_limit {texts : Fields String} {s : String} (h : Fields.get? texts limitName = some s) :
    ofTexts texts = (ofTexts (Fields.erase texts limitName)).withLimit (readLimit (.str s)) := by
  have hclass : Fields.get? (Fields.erase texts limitName) "class_prefix" = Fields.get? texts "class_prefix" :=
    Fields.get?_erase ..
  have htrace : Fields.get? (Fields.erase texts limitName) "trace_level" = Fields.get? texts "trace_level" :=
    Fields.get?_erase ..
  rw [limitName] at h
  rw [ofTexts, h, ofTexts, hclass, htrace]
  rfl

theorem ofTable_of_limit {t : Toml.Table} {v : Toml.Item} (h : Fields.get? t limitName = some v) :
    ofTable t = (ofTable (Fields.erase t limitName)).map (·.withLimit (readLimit (limitValue v))) := by
  have hother : ∀ key, key ≠ limitName → textSetting (Fields.erase t limitName) key = textSetting t key := by
    intro key hkey
    rw [textSetting, Fields.get?_erase, if_neg hkey, textSetting]
  rw [limitName] at h
  rw [ofTable, ofTable, hother "class_prefix" (by decide), hother "trace_level" (by decide), h]
  cases textSetting t "class_prefix" with
  | error e => rfl
  | ok _ => cases textSetting t "trace_level" <;> rfl

theorem ofDocument_of_limit {source : String} {t : Toml.Table} {v : Toml.Item}
    (hread : Toml.read source.toList = some t) (h : Fields.get? t limitName = some v) :
    ofDocument source =
      (ofTable (Fields.erase t limitName)).map (·.withLimit (readLimit (limitValue v))) := by
  rw [ofDocument, hread]
  exact ofTable_of_limit h

theorem readLimit_text {n : Nat} {s : String} (h : Text.Writes s n) (hpos : 1 ≤ n) (hbound : n < 2 ^ 64) :
    readLimit (.str s) = some n := by
  have hletters : ∀ w ∈ unlimitedWords, w.toList.all Char.isDigit = false := by decide
  have hdigits : (Text.numeral n).all Char.isDigit := List.all_eq_true.mpr fun _ hc => Text.isDigit_numeral hc
  have hword : String.ofList (Text.trim s.toList) ∉ unlimitedWords := by
    intro hmem
    have hfalse := hletters _ hmem
    rw [String.toList_ofList, h.trim, hdigits] at hfalse
    cases hfalse
  rw [readLimit, if_neg (mt List.contains_iff_mem.mp hword)]
  exact listLimit_text h hpos hbound _

open Binary64 in
/-- A count that is written out, with or without blanks around it, is the limit of a list, and it is the limit that
settings take from texts and from documents. A number is first rounded to 53 significant bits. So it is the limit, in
either place, just if it has no more of them or is the greatest count. -/
theorem limit_exact_iff {n : Nat} (hpos : 1 ≤ n) (hbound : n < 2 ^ 64) (default : Option Nat) :
    (∀ s, Text.Writes s n →
      Montage.listLimit (some (.str s)) default = some n ∧
      (∀ texts, Fields.get? texts limitName = some s →
        ofTexts texts = (ofTexts (Fields.erase texts limitName)).withLimit (some n)) ∧
      ∀ source t, Toml.read source.toList = some t → Fields.get? t limitName = some (.text s) →
        ofDocument source = (ofTable (Fields.erase t limitName)).map (·.withLimit (some n))) ∧
    ∃ x, IsNearest x n ∧
      let limit := min x (2 ^ 64 - 1)
      Montage.listLimit (some (.ofNat n)) default = some limit ∧
      (∀ source t, Toml.read source.toList = some t → Fields.get? t limitName = some (.int n) →
        ofDocument source = (ofTable (Fields.erase t limitName)).map (·.withLimit (some limit))) ∧
      (limit = n ↔ IsExact n ∨ n = 2 ^ 64 - 1) := by
  refine ⟨fun s hs => ⟨listLimit_text hs hpos hbound default, ?_, ?_⟩, nearest n,
    isNearest_nearest (Nat.ne_of_gt hpos), listLimit_ofNat hpos hbound default, ?_, min_nearest_eq_iff hpos hbound⟩
  · intro texts htexts
    rw [ofTexts_of_limit htexts, readLimit_text hs hpos hbound]
  · intro source t hread ht
    rw [ofDocument_of_limit hread ht, limitValue, readLimit_text hs hpos hbound]
  · intro source t hread ht
    have hnumber : readLimit (limitValue (.int n)) = some (min (nearest n) (2 ^ 64 - 1)) :=
      listLimit_ofNat hpos hbound _
    rw [ofDocument_of_limit hread ht, hnumber]

/-- The least count that has 54 significant bits is kept as a text, and is not the limit as a number. -/
theorem limit_of_long_number :
    Montage.listLimit (some (.str " 9007199254740993\n")) none = some 9007199254740993 ∧
      Montage.listLimit (some (.ofNat 9007199254740993)) none ≠ some 9007199254740993 ∧
      ∃ settings, ofDocument "default_list_limit = 9007199254740993" = .ok settings ∧
        settings.listLimit ≠ some 9007199254740993 := by
  have hwritten : Text.Writes " 9007199254740993\n" 9007199254740993 :=
    ⟨[' '], ['\n'], by decide, by simp [Text.isBlank], by simp [Text.isBlank]⟩
  have hlong : ¬ (Binary64.IsExact 9007199254740993 ∨ 9007199254740993 = 2 ^ 64 - 1) := by
    rw [Binary64.isExact_iff (by decide)]
    decide +kernel
  have hread : Toml.read "default_list_limit = 9007199254740993".toList =
      some [(limitName, .int 9007199254740993)] := by
    have hcheck : (Toml.read "default_list_limit = 9007199254740993".toList).map
        (List.map fun f => (f.1, f.2.int?)) = some [(limitName, some 9007199254740993)] := by
      decide +kernel
    obtain ⟨t, ht, hfields⟩ := Option.map_eq_some_iff.mp hcheck
    obtain ⟨⟨name, v⟩, rfl, hfield⟩ := List.map_eq_singleton_iff.mp hfields
    obtain ⟨rfl, hv⟩ := (Prod.mk.injEq ..).mp hfield
    obtain rfl : v = .int 9007199254740993 := Toml.Item.eq_of_int? hv
    exact ht
  obtain ⟨htext, x, -, hnumber, hdocument, hiff⟩ := limit_exact_iff (n := 9007199254740993) (by decide) (by decide) none
  have hother := mt hiff.mp hlong
  refine ⟨(htext _ hwritten).1, ?_, ?_⟩
  · rw [hnumber]
    simpa using hother
  · exact ⟨_, hdocument _ _ hread rfl, by simpa [withLimit] using hother⟩

end Settings

end Montage
