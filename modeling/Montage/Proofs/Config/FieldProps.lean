import Montage.Proofs.Config.Fields
import Montage.Proofs.Config.Shorthands
import Montage.Proofs.Config.Stock
import Montage.Proofs.Render.Instant

/-!
What a view is given of the fields of a shorthand. Main statement: a field that is not repeated gives its plain value,
or what its source comes to, but a plain text with an equality sign in front is evaluated as a query.
-/

namespace Montage

open Json (Value)

variable {F : Type} {data context : Value} {opened : List Gate}

/-! What fields give. -/

theorem length_queryText {s q : String} (h : queryText? s = some q) : s.length = q.length + 1 := by
  unfold queryText? at h
  split at h
  · rename_i r hs
    rw [← Option.some.inj h, String.length_ofList, ← String.length_toList, hs, List.length_cons]
  · cases h

/-- A text is longer than any that a query in it comes to where there is no data. -/
theorem evaluate_ne_of_queryText {s q : String} (h : queryText? s = some q) :
    Expression.evaluate q.toList .null .null ≠ .ok (.str s) := by
  intro heval
  have hlength := length_queryText h
  have hwithin : s.length ≤ q.toList.length := by
    cases Expression.yields_of_evaluate heval with
    | data part => exact absurd (part.atoms List.mem_cons_self) List.not_mem_nil
    | context part => exact absurd (part.atoms List.mem_cons_self) List.not_mem_nil
    | written written => exact written.within _ List.mem_cons_self
  rw [String.length_toList] at hwithin
  omega

namespace LiteralField

variable {f : LiteralField}

/-- The query that a plain text with an equality sign in front is taken for. -/
def marked? (f : LiteralField) : Option String :=
  (f.literal.bind Value.asStr?).bind queryText?

/-- What a field is worth: its plain value, or what its source comes to. -/
def worth (f : LiteralField) (data context : Value) : Except Error Value :=
  match f.literal with
  | some v => .ok v
  | none => Expression.evaluate f.source.toList data context

/-- What a field gives to a view: what it is worth, or what it is taken for a query of comes to. -/
def given (f : LiteralField) (data context : Value) : Except Error Value :=
  match f.marked? with
  | some q => Expression.evaluate q.toList data context
  | none => f.worth data context

theorem literal_of_marked {q : String} (h : f.marked? = some q) :
    ∃ s, f.literal = some (.str s) ∧ queryText? s = some q := by
  obtain ⟨s, hs, hq⟩ := Option.bind_eq_some_iff.mp h
  obtain ⟨v, hv, hs⟩ := Option.bind_eq_some_iff.mp hs
  cases v with
  | str t => exact ⟨s, hv.trans (congrArg (some ∘ Value.str) (Option.some.inj hs)), hq⟩
  | _ => cases hs

/-- A field gives what it is worth just if it is not taken for a query. -/
theorem given_eq_worth_iff :
    (∀ data context, f.given data context = f.worth data context) ↔ f.marked? = none := by
  constructor
  · intro hsame
    cases hmarked : f.marked? with
    | none => rfl
    | some q =>
      obtain ⟨s, hliteral, hq⟩ := literal_of_marked hmarked
      have hnull := hsame .null .null
      simp only [given, worth, hmarked, hliteral] at hnull
      exact absurd hnull (evaluate_ne_of_queryText hq)
  · intro hmarked data context
    simp only [given, hmarked]

/-- The prop of a field is ready at once, with what the field gives. -/
theorem ready_fieldProp (f : LiteralField) (data context : Value) (opened : List Gate) :
    (askProp Expression.engine data context (Shorthand.fieldProp f : PropValue F)).ready? opened =
      some ((f.given data context).map .json) := by
  obtain ⟨key, source, literal⟩ := f
  cases literal with
  | none =>
    have hquery : queryText? ("=" ++ source) = some source := by simp [queryText?]
    simp only [Shorthand.fieldProp, askProp, PropValue.query?, hquery]
    rfl
  | some v =>
    cases v with
    | str s =>
      have hmarked : marked? ⟨key, source, some (.str s)⟩ = queryText? s := rfl
      cases hquery : queryText? s with
      | none =>
        simp only [Shorthand.fieldProp, askProp, PropValue.query?, given, hmarked, hquery]
        rfl
      | some q =>
        simp only [Shorthand.fieldProp, askProp, PropValue.query?, given, hmarked, hquery]
        rfl
    | _ => rfl

theorem given_of_ready {v : PropValue F}
    (h : (askProp Expression.engine data context (Shorthand.fieldProp f : PropValue F)).ready? opened =
      some (.ok v)) : ∃ u, f.given data context = .ok u ∧ v = .json u := by
  rw [ready_fieldProp] at h
  cases hgiven : f.given data context with
  | error e =>
    rw [hgiven] at h
    cases h
  | ok u =>
    rw [hgiven] at h
    exact ⟨u, rfl, (Except.ok.inj (Option.some.inj h)).symm⟩

theorem given_of_error {e : Error}
    (h : (askProp Expression.engine data context (Shorthand.fieldProp f : PropValue F)).error? = some e) :
    f.given data context = .error e := by
  have hready := ready_fieldProp (F := F) f data context []
  cases hgiven : f.given data context with
  | error e' =>
    rw [hgiven] at hready
    exact congrArg Except.error (Option.some.inj ((error_of_ready hready).symm.trans h))
  | ok u =>
    rw [hgiven] at hready
    rw [(ready_unique hready).1] at h
    cases h

end LiteralField

/-! Props that are gathered. -/

section Gathering

variable {asked : Fields (AskedProp F)} {props : Props F} {key : String} {p : AskedProp F}

theorem allReady_get? (h : allReady? opened asked = some props) (hp : Fields.get? asked key = some p) :
    ∃ v, p.ready? opened = some (.ok v) ∧ Fields.get? props key = some v := by
  induction asked generalizing props with
  | nil => cases hp
  | cons f asked ih =>
    simp only [allReady?] at h
    split at h
    · rename_i v ps hready hall
      rw [← Option.some.inj h]
      simp only [Fields.get?] at hp ⊢
      split at hp
      · rename_i hkey
        refine ⟨v, ?_, if_pos hkey⟩
        rw [← Option.some.inj hp]
        exact hready
      · rename_i hkey
        rw [if_neg hkey]
        exact ih hall hp
    · cases h

end Gathering

namespace Shorthand

variable {whole : String} {p : Parts} {c : Config F} {f : LiteralField} {fields : List LiteralField}

theorem mem_of_lastField {key : String} (h : lastField fields key = some f) : f ∈ fields ∧ f.key = key := by
  simpa using List.mem_of_getLast? h

/-- A field that is not repeated is the last of its key. -/
theorem lastField_of_unique (hf : f ∈ fields) (hunique : ∀ g ∈ fields, g.key = f.key → g = f) :
    lastField fields f.key = some f := by
  have hmem : f ∈ fields.filter fun g => g.key = f.key := by simpa using hf
  cases hlast : lastField fields f.key with
  | none => exact absurd hmem (List.getLast?_eq_none_iff.mp hlast ▸ List.not_mem_nil)
  | some g =>
    obtain ⟨hg, hkey⟩ := mem_of_lastField hlast
    rw [hunique g hg hkey]

/-- A shorthand with fields that stands for the config of a named view takes its fields over. -/
theorem takesOver_of_read {engine : Engine} (hparts : parts? whole.toList = some p) (hbrace : p.separator = '\x7b')
    (hnamed : (read engine whole : Config F).viewName?.isSome) :
    ∃ fields, engine.parseLiteral (String.ofList ('\x7b' :: p.rest)) = .ok fields ∧
      TakesOver fields (Config.ofView (String.ofList p.name)) (read engine whole : Config F) := by
  unfold read at hnamed ⊢
  simp only [hparts, hbrace, Char.reduceBEq, Bool.false_eq_true, ↓reduceIte] at hnamed ⊢
  cases hparse : engine.parseLiteral (String.ofList ('\x7b' :: p.rest)) with
  | error e =>
    rw [hparse] at hnamed
    cases hnamed
  | ok fields =>
    rw [hparse] at hnamed
    by_cases hforbidden : ∃ f ∈ fields, IsForbidden f.key
    · obtain ⟨key, -, hfailure⟩ := addFields_forbidden hforbidden whole (Config.ofView (F := F) (String.ofList p.name))
      simp only [hfailure] at hnamed
      cases hnamed
    · have hfree : ∀ f ∈ fields, ¬ IsForbidden f.key := fun f hf h => hforbidden ⟨f, hf, h⟩
      refine ⟨fields, rfl, ?_⟩
      simp only [addFields_eq_foldl hfree]
      exact takesOver_foldl hfree _

/-- Each prop that is taken over is that of a field with a key that is not reserved. -/
theorem TakesOver.exists_field {name : String} (h : TakesOver fields (Config.ofView name) c)
    {prop : String × PropValue F} (hprop : prop ∈ c.props) :
    ∃ f ∈ fields, f.key ∉ reservedNames ∧ prop.2 = fieldProp f := by
  have hget := Fields.get?_of_mem (h.sorted List.Pairwise.nil).nodup hprop
  by_cases hkey : prop.1 ∈ reservedNames
  · rw [h.reserved _ hkey] at hget
    cases hget
  · rw [h.props _ hkey] at hget
    have hlast : (lastField fields prop.1).map fieldProp = some prop.2 := by
      rw [← hget]
      exact Option.or_none.symm
    obtain ⟨f, hf, hfield⟩ := Option.map_eq_some_iff.mp hlast
    obtain ⟨hmem, hfkey⟩ := mem_of_lastField hf
    exact ⟨f, hmem, hfkey ▸ hkey, hfield.symm⟩

/-- Where a shorthand with fields stands for the config of a named view, its props are gathered at once, whatever the
data and the context. An error is one that a field gives, and else each field that is not repeated, under a key
that is not reserved, is there with what it gives; and this is what it is worth, whatever the data and the context, just
if no plain text of it is taken for a query. -/
theorem gather_shorthand (hparts : parts? whole.toList = some p) (hbrace : p.separator = '\x7b')
    (hc : (RawConfig.text whole : RawConfig F).normalize Expression.engine = [c]) (hnamed : c.viewName?.isSome) :
    ∃ fields, Expression.parseLiteral ('\x7b' :: p.rest) = .ok fields ∧
      (∀ data context, ∃ r,
        (∀ opened, gather? opened (askProps Expression.engine data context c.props) = some r) ∧
        (∀ e, r = .error e → ∃ f ∈ fields, f.key ∉ reservedNames ∧ f.given data context = .error e) ∧
        ∀ props, r = .ok props → ∀ f ∈ fields, f.key ∉ reservedNames → (∀ g ∈ fields, g.key = f.key → g = f) →
          ∃ v, f.given data context = .ok v ∧ Fields.get? props f.key = some (.json v)) ∧
      ∀ f ∈ fields, (∀ data context, f.given data context = f.worth data context) ↔ f.marked? = none := by
  obtain rfl : read Expression.engine whole = c := by simpa [RawConfig.normalize] using hc
  obtain ⟨fields, hparse, htakes⟩ := takesOver_of_read hparts hbrace hnamed
  rw [Expression.engine_parseLiteral] at hparse
  refine ⟨fields, hparse, fun data context => ?_, fun f hf => LiteralField.given_eq_worth_iff⟩
  obtain ⟨r, -, hr⟩ := gathered_of_instant
    (isInstant_askProps Expression.isInstant_engine (isData_read Expression.engine whole).props data context)
  refine ⟨r, hr, ?_, ?_⟩
  · rintro e rfl
    rcases gather_cases (hr []) with ⟨e', he, hmem⟩ | ⟨props, he, -⟩
    · obtain rfl := Except.error.inj he
      obtain ⟨asked, hasked, herror⟩ := List.mem_filterMap.mp hmem
      obtain ⟨prop, hprop, rfl⟩ := List.mem_map.mp hasked
      obtain ⟨f, hf, hkey, hfield⟩ := htakes.exists_field hprop
      rw [hfield] at herror
      exact ⟨f, hf, hkey, LiteralField.given_of_error herror⟩
    · cases he
  · rintro props rfl f hf hkey hunique
    rcases gather_cases (hr []) with ⟨e', he, hmem⟩ | ⟨props', he, hall⟩
    · cases he
    · obtain rfl := Except.ok.inj he
      have hprop : Fields.get? (read Expression.engine whole : Config F).props f.key = some (fieldProp f) := by
        rw [htakes.props f.key hkey, lastField_of_unique hf hunique]
        rfl
      obtain ⟨v, hready, hv⟩ := allReady_get? hall
        ((Fields.get?_map _ _ f.key).trans (congrArg _ hprop))
      obtain ⟨u, hu, rfl⟩ := LiteralField.given_of_ready hready
      exact ⟨u, hu, hv⟩

/-- A quoted text with an equality sign in front does not reach the view. -/
theorem gather_of_quoted_sign :
    let f : LiteralField := ⟨"text", "'=a'", some (.str "=a")⟩
    let c : Config Empty := (Config.ofView "v").withProp "text" (.json (.str "=a"))
    (RawConfig.text "v\x7btext: '=a'\x7d").normalize Expression.engine = [c] ∧
      Expression.parseLiteral "\x7btext: '=a'\x7d".toList = .ok [f] ∧
      ¬ ∀ data context, f.given data context = f.worth data context := by
  intro f c
  have hparts : parts? "v\x7btext: '=a'\x7d".toList = some ⟨['v'], '\x7b', "text: '=a'\x7d".toList⟩ := rfl
  have hc : (RawConfig.text "v\x7btext: '=a'\x7d").normalize Expression.engine = [c] := rfl
  have hfields : Expression.parseLiteral ('\x7b' :: "text: '=a'\x7d".toList) = .ok [f] := rfl
  obtain ⟨fields, hparse, -, hiff⟩ := gather_shorthand hparts rfl hc rfl
  obtain rfl := Except.ok.inj (hfields.symm.trans hparse)
  have hmarked : f.marked? ≠ none := Option.some_ne_none "a"
  exact ⟨hc, hfields, mt (hiff f List.mem_cons_self).mp hmarked⟩

end Shorthand

end Montage
