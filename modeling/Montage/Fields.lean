/-!
Named fields in order of their names, each name once. Main statement: what `get?` finds after an
insertion or a removal.
-/

namespace Montage

abbrev Fields (α : Type) := List (String × α)

namespace Fields

variable {α β : Type}

def get? (fs : Fields α) (k : String) : Option α :=
  match fs with
  | [] => none
  | (j, v) :: r => if k = j then some v else Fields.get? r k

def contains (fs : Fields α) (k : String) : Bool :=
  (fs.get? k).isSome

/-- Puts the field at its place in the order, over an earlier one of the same name. -/
def insert (fs : Fields α) (k : String) (v : α) : Fields α :=
  match fs with
  | [] => [(k, v)]
  | (j, u) :: r =>
    if k = j then (k, v) :: r
    else if k < j then (k, v) :: (j, u) :: r
    else (j, u) :: Fields.insert r k v

def erase (fs : Fields α) (k : String) : Fields α :=
  fs.filter (fun f => f.1 != k)

/-- Of fields with one name the last stays. -/
def ofList (fs : List (String × α)) : Fields α :=
  fs.foldl (fun acc f => Fields.insert acc f.1 f.2) []

/-- The fields of `upper` over those of `lower`. -/
def overlay (lower upper : Fields α) : Fields α :=
  upper.foldl (fun acc f => Fields.insert acc f.1 f.2) lower

theorem get?_insert (fs : Fields α) (k j : String) (v : α) :
    Fields.get? (Fields.insert fs k v) j = if j = k then some v else Fields.get? fs j := by
  induction fs with
  | nil => rfl
  | cons f r ih =>
    obtain ⟨i, u⟩ := f
    simp only [Fields.insert]
    by_cases h : k = i
    · subst h
      by_cases hj : j = k <;> simp [Fields.get?, hj]
    · rw [if_neg h]
      by_cases hl : k < i
      · simp [hl, Fields.get?]
      · rw [if_neg hl]
        simp only [Fields.get?, ih]
        by_cases hj : j = i
        · subst hj
          rw [if_pos rfl, if_pos rfl, if_neg (Ne.symm h)]
        · rw [if_neg hj, if_neg hj]

theorem get?_erase (fs : Fields α) (k j : String) :
    Fields.get? (Fields.erase fs k) j = if j = k then none else Fields.get? fs j := by
  induction fs with
  | nil => simp [Fields.erase, Fields.get?]
  | cons f r ih =>
    obtain ⟨i, u⟩ := f
    simp only [Fields.erase, List.filter_cons] at ih ⊢
    by_cases hi : i = k
    · subst hi
      simp only [bne_self_eq_false, Bool.false_eq_true, ↓reduceIte, Fields.get?, ih]
      by_cases hj : j = i <;> simp [hj]
    · simp only [bne_iff_ne, ne_eq, hi, not_false_eq_true, ↓reduceIte, Fields.get?, ih]
      by_cases hj : j = i
      · subst hj
        simp [hi]
      · simp [hj]

end Fields

end Montage
