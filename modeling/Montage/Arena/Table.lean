/-!
Tables keyed by node handles, each handle once. Main statements: what `get?` finds after each
operation.
-/

namespace Montage

/-- Handle of a node; handles are given out in increasing order and never twice. -/
abbrev NodeId := Nat

structure Table (α : Type) where
  entries : List (NodeId × α)
  nodup : (entries.map Prod.fst).Nodup

namespace Table

variable {α : Type}

def empty : Table α := ⟨[], by simp⟩

def find (k : NodeId) : List (NodeId × α) → Option α
  | [] => none
  | (j, v) :: r => if k = j then some v else find k r

def get? (t : Table α) (k : NodeId) : Option α :=
  find k t.entries

def contains (t : Table α) (k : NodeId) : Bool :=
  (t.get? k).isSome

def size (t : Table α) : Nat :=
  t.entries.length

def values (t : Table α) : List α :=
  t.entries.map Prod.snd

def erase (t : Table α) (k : NodeId) : Table α where
  entries := t.entries.filter (fun e => e.1 != k)
  nodup := t.nodup.sublist ((List.filter_sublist).map _)

def insert (t : Table α) (k : NodeId) (v : α) : Table α where
  entries := (k, v) :: (t.erase k).entries
  nodup := by
    refine List.nodup_cons.mpr ⟨?_, (t.erase k).nodup⟩
    simp [erase]

def modify (t : Table α) (k : NodeId) (f : α → α) : Table α where
  entries := t.entries.map (fun e => if e.1 = k then (e.1, f e.2) else e)
  nodup := by
    have h : (t.entries.map (fun e => if e.1 = k then (e.1, f e.2) else e)).map Prod.fst =
        t.entries.map Prod.fst := by
      rw [List.map_map]
      refine List.map_congr_left fun e _ => ?_
      by_cases he : e.1 = k <;> simp [he]
    rw [h]
    exact t.nodup

/-- Drops the entries of handles that are gone. -/
def forget (t : Table α) (ks : List NodeId) : Table α :=
  ks.foldl erase t

theorem find_filter_ne (es : List (NodeId × α)) (k j : NodeId) :
    find j (es.filter (fun e => e.1 != k)) = if j = k then none else find j es := by
  induction es with
  | nil => simp [find]
  | cons e r ih =>
    obtain ⟨i, v⟩ := e
    by_cases hi : i = k
    · subst hi
      by_cases hj : j = i
      · subst hj
        simpa using ih
      · simp [find, ih, hj]
    · by_cases hj : j = i
      · subst hj
        simp [find, hi]
      · simp [find, hi, hj, ih]

@[simp] theorem get?_empty (k : NodeId) : (empty : Table α).get? k = none := rfl

theorem get?_erase (t : Table α) (k j : NodeId) :
    (t.erase k).get? j = if j = k then none else t.get? j :=
  find_filter_ne t.entries k j

theorem get?_insert (t : Table α) (k j : NodeId) (v : α) :
    (t.insert k v).get? j = if j = k then some v else t.get? j := by
  have h := get?_erase t k j
  unfold get? at h ⊢
  simp only [insert, find]
  by_cases hj : j = k
  · simp [hj]
  · simpa [hj] using h

theorem find_map_at (es : List (NodeId × α)) (k j : NodeId) (f : α → α) :
    find j (es.map (fun e => if e.1 = k then (e.1, f e.2) else e)) =
      if j = k then (find j es).map f else find j es := by
  induction es with
  | nil => simp [find]
  | cons e r ih =>
    obtain ⟨i, v⟩ := e
    by_cases hi : i = k
    · subst hi
      by_cases hj : j = i
      · subst hj
        simp [find]
      · simpa [find, hj] using ih
    · by_cases hj : j = i
      · subst hj
        simp [find, hi]
      · simp only [List.map_cons, hi, ↓reduceIte, find, hj, ih]

theorem get?_modify (t : Table α) (k j : NodeId) (f : α → α) :
    (t.modify k f).get? j = if j = k then (t.get? j).map f else t.get? j :=
  find_map_at t.entries k j f

theorem get?_forget (t : Table α) (ks : List NodeId) (j : NodeId) :
    (t.forget ks).get? j = if j ∈ ks then none else t.get? j := by
  induction ks generalizing t with
  | nil => simp [forget]
  | cons k r ih =>
    have h := ih (t.erase k)
    simp only [forget, List.foldl_cons] at h ⊢
    rw [h, get?_erase]
    by_cases hj : j ∈ r <;> by_cases hk : j = k <;> simp [hj, hk]

theorem length_filter_lt {es : List (NodeId × α)} {k : NodeId} (h : (find k es).isSome) :
    (es.filter (fun e => e.1 != k)).length < es.length := by
  induction es with
  | nil => simp [find] at h
  | cons e r ih =>
    obtain ⟨i, v⟩ := e
    by_cases hi : i = k
    · subst hi
      have := (List.filter_sublist (l := r) (p := fun e => e.1 != i)).length_le
      simp only [List.filter_cons, bne_self_eq_false, Bool.false_eq_true, ↓reduceIte,
        List.length_cons]
      omega
    · have hk : ¬k = i := fun e => hi e.symm
      simp only [find, hk, ↓reduceIte] at h
      have := ih h
      simp only [List.filter_cons, bne_iff_ne, ne_eq, hi, not_false_eq_true, ↓reduceIte,
        List.length_cons]
      omega

theorem size_erase_lt {t : Table α} {k : NodeId} (h : t.contains k) : (t.erase k).size < t.size :=
  length_filter_lt h

end Table

end Montage
