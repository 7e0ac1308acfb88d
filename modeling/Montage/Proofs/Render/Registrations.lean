import Mathlib.Data.List.Basic
import Montage.View.Registry

/-!
Definitions of views one after the other. Main statements: a registry holds the views that were not refused,
in order and each under its own name; under every name it has the first view that was defined with it; and of
a list of definitions it answers with one error for each that is refused.
-/

namespace Montage.Registry

variable {F : Type}

def isBlank (name : String) : Bool :=
  (Text.trim name.toList).isEmpty

/-- Why a view is not defined, if it is not, when others were to be defined before. -/
def refusal? (earlier : List (View F)) (v : View F) : Option Error :=
  if isBlank v.name then some (.definition "view name must not be empty")
  else if v.name ∈ earlier.map View.name then
    some (.definition ("view `" ++ v.name ++ "` is already defined"))
  else none

/-- The errors that definitions end with, each judged by all before it. -/
def refusals (earlier : List (View F)) : List (View F) → List Error
  | [] => []
  | v :: vs => (refusal? earlier v).toList ++ refusals (earlier ++ [v]) vs

/-- The views that are not refused. -/
def accepted (earlier : List (View F)) : List (View F) → List (View F)
  | [] => []
  | v :: vs => (if refusal? earlier v = none then [v] else []) ++ accepted (earlier ++ [v]) vs

/-- The first view with a name, which must not be blank. -/
def first? (vs : List (View F)) (name : String) : Option (View F) :=
  if isBlank name then none else vs.find? (·.name == name)

variable {earlier : List (View F)} {v : View F} {name : String} {r : Registry F}

theorem refusal?_eq_none : refusal? earlier v = none ↔ isBlank v.name = false ∧ v.name ∉ earlier.map View.name := by
  unfold refusal?
  split_ifs <;> simp_all

theorem accepted_append (earlier vs vs' : List (View F)) :
    accepted earlier (vs ++ vs') = accepted earlier vs ++ accepted (earlier ++ vs) vs' := by
  induction vs generalizing earlier with
  | nil => simp [accepted]
  | cons v vs ih => simp [accepted, ih, List.append_assoc]

/-- Under a name the first view is accepted, unless the name is blank or was taken before. -/
theorem find?_accepted (earlier vs : List (View F)) (name : String) :
    (accepted earlier vs).find? (·.name == name) =
      if name ∈ earlier.map View.name then none else first? vs name := by
  induction vs generalizing earlier with
  | nil => simp [accepted, first?]
  | cons v vs ih =>
    rw [accepted, List.find?_append, ih]
    by_cases hname : v.name = name
    · subst hname
      by_cases hblank : isBlank v.name = true
      · simp [refusal?_eq_none, hblank, first?]
      · by_cases htaken : v.name ∈ earlier.map View.name
        · simp [refusal?_eq_none, htaken]
        · simp [refusal?_eq_none, hblank, htaken, first?]
    · have hmem : name ∈ (earlier ++ [v]).map View.name ↔ name ∈ earlier.map View.name := by
        simp [Ne.symm hname]
      have hfirst : first? (v :: vs) name = first? vs name := by simp [first?, hname]
      have hone : (if refusal? earlier v = none then [v] else []).find? (·.name == name) = none := by
        split_ifs <;> simp [hname]
      rw [hone, Option.none_or, hfirst]
      simp only [hmem]

theorem mem_names {vs : List (View F)} :
    name ∈ vs.map View.name ↔ (vs.find? (·.name == name)).isSome = true := by
  simp [List.mem_map, List.find?_isSome]

theorem mem_accepted (earlier vs : List (View F)) (name : String) :
    name ∈ (accepted earlier vs).map View.name ↔
      name ∉ earlier.map View.name ∧ isBlank name = false ∧ name ∈ vs.map View.name := by
  rw [mem_names, find?_accepted, first?]
  by_cases hmem : name ∈ vs.map View.name
  · have hsome := mem_names.mp hmem
    split_ifs <;> simp_all
  · have hnone := mem_names.not.mp hmem
    split_ifs <;> simp_all

theorem nodup_accepted (earlier vs : List (View F)) : ((accepted earlier vs).map View.name).Nodup := by
  induction vs generalizing earlier with
  | nil => exact List.nodup_nil
  | cons v vs ih =>
    rw [accepted]
    split_ifs
    · rw [List.singleton_append, List.map_cons, List.nodup_cons]
      exact ⟨fun h => ((mem_accepted _ _ _).mp h).1 (by simp), ih _⟩
    · exact ih _

/-- A registry that holds what was accepted refuses what is to be refused, and adds all else. -/
theorem define_eq (h : r.views = accepted [] earlier) (v : View F) :
    r.define v = match refusal? earlier v with
      | some e => .error e
      | none => .ok ⟨r.views ++ [v]⟩ := by
  have hdefined : r.isDefined v.name = true ↔ isBlank v.name = false ∧ v.name ∈ earlier.map View.name := by
    rw [isDefined, get?, ← mem_names, h, mem_accepted]
    simp
  have hdefine : r.define v =
      if isBlank v.name then .error (.definition "view name must not be empty")
      else if r.isDefined v.name then .error (.definition ("view `" ++ v.name ++ "` is already defined"))
      else .ok ⟨r.views ++ [v]⟩ := rfl
  rw [hdefine, refusal?]
  by_cases hblank : isBlank v.name = true
  · rw [if_pos hblank, if_pos hblank]
  · rw [if_neg hblank, if_neg hblank]
    by_cases htaken : v.name ∈ earlier.map View.name
    · rw [if_pos htaken, if_pos (hdefined.mpr ⟨by simpa using hblank, htaken⟩)]
    · rw [if_neg htaken, if_neg fun hd => htaken (hdefined.mp hd).2]

/-- What is left of a registry after a definition that may fail. -/
theorem views_define (h : r.views = accepted [] earlier) (v : View F) :
    match r.define v with
    | .ok r' => refusal? earlier v = none ∧ r'.views = r.views ++ accepted earlier [v]
    | .error e => refusal? earlier v = some e ∧ accepted earlier [v] = [] := by
  rw [define_eq h]
  cases hrefused : refusal? earlier v with
  | none => simp [accepted, hrefused]
  | some e => simp [accepted, hrefused]

theorem defineAll_eq (h : r.views = accepted [] earlier) (vs : List (View F)) :
    (r.defineAll vs).1.views = r.views ++ accepted earlier vs ∧ (r.defineAll vs).2 = refusals earlier vs := by
  induction vs generalizing r earlier with
  | nil => simp [defineAll, accepted, refusals]
  | cons v vs ih =>
    have hone := views_define h v
    have hsplit : accepted earlier (v :: vs) = accepted earlier [v] ++ accepted (earlier ++ [v]) vs :=
      accepted_append earlier [v] vs
    rw [defineAll, refusals, hsplit]
    cases hdefine : r.define v with
    | ok r' =>
      rw [hdefine] at hone
      obtain ⟨hnone, hviews⟩ := hone
      have hviews' : r'.views = accepted [] (earlier ++ [v]) := by
        rw [hviews, h, accepted_append, List.nil_append]
      obtain ⟨hrest, herrors⟩ := ih hviews'
      rw [hviews, List.append_assoc] at hrest
      exact ⟨hrest, by rw [herrors, hnone]; rfl⟩
    | error e =>
      rw [hdefine] at hone
      obtain ⟨hsome, hnothing⟩ := hone
      have hviews : r.views = accepted [] (earlier ++ [v]) := by
        rw [h, accepted_append, List.nil_append, hnothing, List.append_nil]
      obtain ⟨hrest, herrors⟩ := ih hviews
      rw [hnothing, List.nil_append]
      exact ⟨hrest, by simp only [herrors, hsome]; rfl⟩

end Montage.Registry
