import Mathlib
import Montage.Config.Composition
import Montage.Proofs.Config.Fields
import Montage.Query.Expression

/-!
Configs over configs. Main statement: putting a config over a raw one gives, for each config of its normal form
and in its place, the config that says what the upper one says and what the lower one says besides; over no
config it gives the upper one. Two configs put over one after the other are one put over the other first, so
putting a config over twice is putting it over once.
-/

namespace Montage

variable {F : Type}

namespace Config

variable {upper lower c : Config F}

/-- What `upper` says, and what `lower` says where `upper` says nothing, prop by prop. -/
structure Merged (upper lower c : Config F) : Prop where
  view : c.view = upper.view.or lower.view
  when : c.when = upper.when.or lower.when
  data : c.data = upper.data.or lower.data
  whenData : c.whenData = upper.whenData.or lower.whenData
  postRender : c.postRender = upper.postRender.or lower.postRender
  className : c.className = upper.className.or lower.className
  props : ∀ k, Fields.get? c.props k = (Fields.get? upper.props k).or (Fields.get? lower.props k)

theorem merged_withDefaults (h : Fields.Sorted upper.props) (lower : Config F) :
    Merged upper lower (upper.withDefaults lower) where
  view := rfl
  when := rfl
  data := rfl
  whenData := rfl
  postRender := rfl
  className := rfl
  props := Fields.get?_overlay h lower.props

/-- No other config says the same. -/
theorem Merged.eq_withDefaults (h : Merged upper lower c) (hc : Fields.Sorted c.props)
    (hupper : Fields.Sorted upper.props) (hlower : Fields.Sorted lower.props) :
    c = upper.withDefaults lower := by
  have hprops : c.props = (upper.withDefaults lower).props :=
    hc.ext (Fields.sorted_overlay hlower upper.props) fun k => by
      rw [h.props, (merged_withDefaults hupper lower).props]
  obtain ⟨view, when, data, whenData, postRender, className, -⟩ := h
  cases c
  simp only at view when data whenData postRender className hprops
  subst view when data whenData postRender className hprops
  rfl

/-- Two configs over a third are the upper one over the middle one, over the third. -/
theorem withDefaults_assoc {middle : Config F} (h : Fields.Sorted middle.props) (upper lower : Config F) :
    upper.withDefaults (middle.withDefaults lower) = (upper.withDefaults middle).withDefaults lower := by
  simp only [withDefaults, Option.or_assoc, Fields.overlay_assoc h]

theorem withDefaults_self (h : Fields.Sorted c.props) : c.withDefaults c = c := by
  simp only [withDefaults, Option.or_self, Fields.overlay_self h]

end Config

namespace RawConfig

open Config

/-- Configs in object shape are in normal form. -/
theorem normalizeAll_objects (engine : Engine) (cs : List (Config F)) :
    normalizeAll engine (cs.map .object) = cs := by
  induction cs with
  | nil => rfl
  | cons c cs ih =>
    rw [List.map_cons, normalizeAll, ih]
    rfl

/-- Whatever the raw config is, another one is put over each config of its normal form in its place. -/
theorem normalize_compose (engine : Engine) (base : RawConfig F) (upper : Config F) :
    (compose engine base upper).normalize engine =
      if base.normalize engine = [] then [upper] else (base.normalize engine).map upper.withDefaults := by
  cases hbase : base.normalize engine with
  | nil => simp [compose, hbase, normalize]
  | cons c cs =>
    cases cs with
    | nil => simp [compose, hbase, normalize]
    | cons d ds =>
      have hlist := normalizeAll_objects engine ((c :: d :: ds).map upper.withDefaults)
      simpa [compose, hbase, normalize] using hlist

theorem normalize_compose_compose (engine : Engine) (base : RawConfig F) {middle : Config F}
    (h : Fields.Sorted middle.props) (upper : Config F) :
    (compose engine (compose engine base middle) upper).normalize engine =
      (compose engine base (upper.withDefaults middle)).normalize engine := by
  rw [normalize_compose, normalize_compose, normalize_compose]
  by_cases hbase : base.normalize engine = []
  · simp [hbase]
  · simp only [hbase, if_false, List.map_eq_nil_iff, List.map_map]
    exact List.map_congr_left fun c _ => withDefaults_assoc h upper c

/-- Configs act on raw configs from above, and what is above wins: a config put over a raw one is put over
each config of the normal form, or stands alone over none; and a second one put over that is put over the
first. Put over twice, a config changes nothing more. -/
theorem compose_acts (engine : Engine) (base : RawConfig F) {e₁ e₂ : Config F}
    (h₁ : Fields.Sorted e₁.props) (h₂ : Fields.Sorted e₂.props) :
    (∀ c, Merged e₁ c (e₁.withDefaults c)) ∧ Merged e₂ e₁ (e₂.withDefaults e₁) ∧
      (base.normalize engine = [] → (compose engine base e₁).normalize engine = [e₁]) ∧
      (base.normalize engine ≠ [] → (compose engine base e₁).normalize engine =
        (base.normalize engine).map fun c => e₁.withDefaults c) ∧
      (compose engine (compose engine base e₁) e₂).normalize engine =
        (compose engine base (e₂.withDefaults e₁)).normalize engine ∧
      (compose engine (compose engine base e₁) e₁).normalize engine =
        (compose engine base e₁).normalize engine := by
  refine ⟨merged_withDefaults h₁, merged_withDefaults h₂ e₁, ?_, ?_,
    normalize_compose_compose engine base h₁ e₂, ?_⟩
  · intro hempty
    rw [normalize_compose, if_pos hempty]
  · intro hsome
    rw [normalize_compose, if_neg hsome]
  · rw [normalize_compose_compose engine base h₁, withDefaults_self h₁]

/-- A name, nothing, and a config with two props in a list of its own; a condition with a text and then a
source with a limit are put over them. -/
theorem compose_acts_on_list :
    let base : RawConfig Empty := .list [.text "badge", .null,
      .list [.object { Config.ofView "text" with
        props := [("limit", .json (.bool false)), ("text", .json (.str "base"))] }]]
    let e₁ : Config Empty := { when := some (.text "visible"), props := [("text", .json (.str "over"))] }
    let e₂ : Config Empty := { data := some (.text "rows"), props := [("limit", .json .null)] }
    let e₂₁ : Config Empty :=
      { when := some (.text "visible"), data := some (.text "rows"),
        props := [("limit", .json .null), ("text", .json (.str "over"))] }
    Fields.Sorted e₁.props ∧ Fields.Sorted e₂.props ∧
      (compose Expression.engine base e₁).normalize Expression.engine =
        [{ Config.ofView "badge" with
            when := some (.text "visible"), props := [("text", .json (.str "over"))] },
          { Config.ofView "text" with
            when := some (.text "visible"),
            props := [("limit", .json (.bool false)), ("text", .json (.str "over"))] }] ∧
      (compose Expression.engine (compose Expression.engine base e₁) e₂).normalize Expression.engine =
        (compose Expression.engine base e₂₁).normalize Expression.engine := by
  intro base e₁ e₂ e₂₁
  have h₁ : Fields.Sorted e₁.props := List.pairwise_singleton _ _
  have h₂ : Fields.Sorted e₂.props := List.pairwise_singleton _ _
  obtain ⟨-, -, -, hsome, htwice, -⟩ := compose_acts Expression.engine base h₁ h₂
  have hbase : base.normalize Expression.engine = [Config.ofView "badge",
      { Config.ofView "text" with
        props := [("limit", .json (.bool false)), ("text", .json (.str "base"))] }] := by
    cbv
  refine ⟨h₁, h₂, ?_, ?_⟩
  · rw [hsome (by simp [hbase]), hbase]
    cbv
  · rw [htwice]
    cbv

end RawConfig

end Montage
