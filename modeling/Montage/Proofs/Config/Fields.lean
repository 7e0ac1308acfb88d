import Mathlib.Data.List.Nodup
import Mathlib.Data.String.Basic
import Montage.Proofs.Config.Data

/-!
Fields in order of their names. Main statements: fields in order are known by what is found under each name,
and fields put over others, over others again, may be put over those first.
-/

namespace Montage

namespace Fields

variable {α β : Type} {fs gs : Fields α} {k j : String} {u v : α}

/-- Names stand in order, each once. -/
def Sorted (fs : Fields α) : Prop :=
  fs.Pairwise fun f g => f.1 < g.1

theorem get?_append (fs gs : Fields α) (k : String) :
    get? (fs ++ gs) k = (get? fs k).or (get? gs k) := by
  induction fs with
  | nil => rfl
  | cons f fs ih =>
    simp only [List.cons_append, get?, ih]
    split <;> rfl

theorem get?_eq_none (h : k ∉ fs.map Prod.fst) : get? fs k = none := by
  induction fs with
  | nil => rfl
  | cons f fs ih =>
    simp only [List.map_cons, List.mem_cons, not_or] at h
    simp only [get?, if_neg h.1, ih h.2]

theorem get?_of_mem {f : String × α} (h : (fs.map Prod.fst).Nodup) (hf : f ∈ fs) :
    get? fs f.1 = some f.2 := by
  induction fs with
  | nil => cases hf
  | cons g fs ih =>
    obtain ⟨hnot, hfs⟩ := List.nodup_cons.mp h
    rcases List.mem_cons.mp hf with rfl | hf
    · simp [get?]
    · have hne : f.1 ≠ g.1 := fun he => hnot (he ▸ List.mem_map_of_mem hf)
      rw [get?, if_neg hne]
      exact ih hfs hf

theorem get?_map (g : α → β) (fs : Fields α) (k : String) :
    get? (fs.map fun f => (f.1, g f.2)) k = (get? fs k).map g := by
  induction fs with
  | nil => rfl
  | cons f fs ih =>
    simp only [List.map_cons, get?, ih]
    split <;> rfl

/-! Putting fields in place. -/

theorem insert_of_lt (h : k < j) (u : α) (fs : Fields α) (v : α) :
    insert ((j, u) :: fs) k v = (k, v) :: (j, u) :: fs := by
  simp [insert, ne_of_lt h, h]

theorem insert_of_gt (h : j < k) (u : α) (fs : Fields α) (v : α) :
    insert ((j, u) :: fs) k v = (j, u) :: insert fs k v := by
  simp [insert, ne_of_gt h, not_lt_of_gt h]

theorem insert_of_eq (k : String) (u : α) (fs : Fields α) (v : α) :
    insert ((k, u) :: fs) k v = (k, v) :: fs := by
  simp [insert]

theorem insert_insert (fs : Fields α) (k : String) (u v : α) :
    insert (insert fs k u) k v = insert fs k v := by
  induction fs with
  | nil => exact insert_of_eq k u [] v
  | cons f fs ih =>
    obtain ⟨i, w⟩ := f
    rcases lt_trichotomy k i with hk | rfl | hk
    · rw [insert_of_lt hk, insert_of_eq, insert_of_lt hk]
    · rw [insert_of_eq, insert_of_eq, insert_of_eq]
    · rw [insert_of_gt hk, insert_of_gt hk, insert_of_gt hk, ih]

/-- Of two fields the one whose name comes first is put in place first or last. -/
theorem insert_comm_of_lt (h : k < j) (fs : Fields α) (u v : α) :
    insert (insert fs k u) j v = insert (insert fs j v) k u := by
  induction fs with
  | nil =>
    have hlater := insert_of_gt h u [] v
    have hsooner := insert_of_lt h v [] u
    simpa [insert] using hlater.trans hsooner.symm
  | cons f fs ih =>
    obtain ⟨i, w⟩ := f
    rcases lt_trichotomy k i with hk | rfl | hk
    · rw [insert_of_lt hk, insert_of_gt h]
      rcases lt_trichotomy j i with hj | rfl | hj
      · rw [insert_of_lt hj, insert_of_lt h]
      · rw [insert_of_eq, insert_of_lt h]
      · rw [insert_of_gt hj, insert_of_lt hk]
    · rw [insert_of_eq, insert_of_gt h, insert_of_gt h, insert_of_eq]
    · have hj : i < j := lt_trans hk h
      rw [insert_of_gt hk, insert_of_gt hj, insert_of_gt hj, insert_of_gt hk, ih]

/-- Fields of two names are put in place in either order. -/
theorem insert_comm (h : k ≠ j) (fs : Fields α) (u v : α) :
    insert (insert fs k u) j v = insert (insert fs j v) k u := by
  rcases lt_or_gt_of_ne h with hlt | hlt
  · exact insert_comm_of_lt hlt fs u v
  · exact (insert_comm_of_lt hlt fs v u).symm

theorem sorted_insert (h : fs.Sorted) (k : String) (v : α) : (insert fs k v).Sorted := by
  induction fs with
  | nil => exact List.pairwise_singleton _ _
  | cons f fs ih =>
    obtain ⟨hlt, hfs⟩ := List.pairwise_cons.mp h
    simp only [insert]
    split
    · rename_i he
      exact List.pairwise_cons.mpr ⟨fun g hg => he ▸ hlt g hg, hfs⟩
    · split
      · rename_i hk
        refine List.pairwise_cons.mpr ⟨fun g hg => ?_, h⟩
        rcases List.mem_cons.mp hg with rfl | hg
        · exact hk
        · exact lt_trans hk (hlt g hg)
      · rename_i hne hnlt
        refine List.pairwise_cons.mpr ⟨fun g hg => ?_, ih hfs⟩
        rcases mem_insert hg with rfl | hg
        · exact lt_of_le_of_ne (not_lt.mp hnlt) (Ne.symm hne)
        · exact hlt g hg

/-- Fields in order are known by what is found under each name. -/
theorem Sorted.ext (hf : fs.Sorted) (hg : gs.Sorted) (h : ∀ k, get? fs k = get? gs k) : fs = gs := by
  induction fs generalizing gs with
  | nil =>
    cases gs with
    | nil => rfl
    | cons g gs => simpa [get?] using h g.1
  | cons f fs ih =>
    cases gs with
    | nil => simpa [get?] using h f.1
    | cons g gs =>
      obtain ⟨hflt, hfs⟩ := List.pairwise_cons.mp hf
      obtain ⟨hglt, hgs⟩ := List.pairwise_cons.mp hg
      have hmiss : ∀ {fs : Fields α} {k : String}, (∀ f ∈ fs, k < f.1) → get? fs k = none :=
        fun hlt => get?_eq_none fun hm => by
          obtain ⟨f, hf, he⟩ := List.mem_map.mp hm
          exact lt_irrefl _ (he ▸ hlt f hf)
      -- A first name that the other list lacks would be found in one list only.
      have hkey : f.1 = g.1 := by
        rcases lt_trichotomy f.1 g.1 with hlt | he | hlt
        · have hnone : get? (g :: gs) f.1 = none := hmiss fun x hx =>
            (List.mem_cons.mp hx).elim (fun he => he ▸ hlt) fun hx => lt_trans hlt (hglt x hx)
          have hfound := h f.1
          rw [hnone] at hfound
          simp [get?] at hfound
        · exact he
        · have hnone : get? (f :: fs) g.1 = none := hmiss fun x hx =>
            (List.mem_cons.mp hx).elim (fun he => he ▸ hlt) fun hx => lt_trans hlt (hflt x hx)
          have hfound := h g.1
          rw [hnone] at hfound
          simp [get?] at hfound
      have hvalue : f.2 = g.2 := by simpa [get?, hkey] using h f.1
      have hrest : fs = gs := ih hfs hgs fun k => by
        by_cases hk : k = f.1
        · rw [hk, hmiss hflt, hkey, hmiss hglt]
        · simpa [get?, hk, hkey ▸ hk] using h k
      rw [hrest, Prod.ext hkey hvalue]

/-- Putting fields in order one by one loses none of them, if each name occurs once. -/
theorem get?_foldl_insert {fs : List (String × α)} (h : (fs.map Prod.fst).Nodup) (gs : Fields α)
    (k : String) :
    get? (fs.foldl (fun acc f => insert acc f.1 f.2) gs) k = (get? fs k).or (get? gs k) := by
  induction fs generalizing gs with
  | nil => rfl
  | cons f fs ih =>
    obtain ⟨hnot, hfs⟩ := List.nodup_cons.mp h
    rw [List.foldl_cons, ih hfs, get?_insert]
    simp only [get?]
    by_cases hk : k = f.1
    · subst hk
      simp [get?_eq_none hnot]
    · simp [hk]

theorem mem_ofList {fs : List (String × α)} {f : String × α} (h : f ∈ ofList fs) : f ∈ fs := by
  have hmem : ∀ (fs : List (String × α)) (gs : Fields α),
      f ∈ fs.foldl (fun acc f => insert acc f.1 f.2) gs → f ∈ gs ∨ f ∈ fs := by
    intro fs
    induction fs with
    | nil => exact fun gs h => .inl h
    | cons g fs ih =>
      intro gs h
      rcases ih _ h with h | h
      · rcases mem_insert h with rfl | h
        · exact .inr List.mem_cons_self
        · exact .inl h
      · exact .inr (List.mem_cons_of_mem _ h)
  exact (hmem fs [] h).resolve_left List.not_mem_nil

theorem get?_toList (o : Option α) (key k : String) :
    get? (o.map fun v => (key, v)).toList k = if k = key then o else none := by
  cases o <;> simp [get?]

theorem sorted_foldl_insert (fs : List (String × α)) (h : gs.Sorted) :
    (fs.foldl (fun acc f => insert acc f.1 f.2) gs).Sorted := by
  induction fs generalizing gs with
  | nil => exact h
  | cons f fs ih => exact ih (sorted_insert h f.1 f.2)

theorem get?_ofList {fs : List (String × α)} (h : (fs.map Prod.fst).Nodup) (k : String) :
    get? (ofList fs) k = get? fs k := by
  rw [ofList, get?_foldl_insert h]
  exact Option.or_none

theorem sorted_ofList (fs : List (String × α)) : (ofList fs).Sorted :=
  sorted_foldl_insert fs List.Pairwise.nil

theorem Sorted.nodup (h : fs.Sorted) : (fs.map Prod.fst).Nodup := by
  rw [List.Nodup, List.pairwise_map]
  exact h.imp fun hlt => ne_of_lt hlt

/-- The same change of all values, before or after a field is put in. -/
theorem map_insert (g : α → β) (fs : Fields α) (k : String) (v : α) :
    (insert fs k v).map (fun f => (f.1, g f.2)) = insert (fs.map fun f => (f.1, g f.2)) k (g v) := by
  induction fs with
  | nil => rfl
  | cons f fs ih =>
    simp only [insert, List.map_cons]
    split
    · rfl
    · split
      · rfl
      · rw [List.map_cons, ih]

theorem get?_filter (p : String → Bool) (fs : Fields α) (k : String) :
    get? (fs.filter fun f => p f.1) k = if p k then get? fs k else none := by
  induction fs with
  | nil => simp [get?]
  | cons f fs ih =>
    rw [List.filter_cons]
    by_cases hk : k = f.1
    · subst hk
      cases hp : p f.1 <;> simp [get?, hp, ih]
    · cases hp : p f.1 <;> simp [get?, hk, ih]

/-! Fields over fields. -/

/-- A field whose name is not among those of `upper` is put in before or after them. -/
theorem overlay_insert_of_not_mem {upper : Fields α} (h : k ∉ upper.map Prod.fst) (fs : Fields α) (v : α) :
    overlay (insert fs k v) upper = insert (overlay fs upper) k v := by
  induction upper generalizing fs with
  | nil => rfl
  | cons f upper ih =>
    simp only [List.map_cons, List.mem_cons, not_or] at h
    simp only [overlay, List.foldl_cons] at ih ⊢
    rw [insert_comm h.1, ih h.2]

/-- One more field of `upper` is put over the same fields. -/
theorem overlay_insert {upper : Fields α} (h : upper.Sorted) (fs : Fields α) (k : String) (v : α) :
    overlay fs (insert upper k v) = insert (overlay fs upper) k v := by
  induction upper generalizing fs with
  | nil => rfl
  | cons f upper ih =>
    obtain ⟨i, u⟩ := f
    obtain ⟨hlt, hupper⟩ := List.pairwise_cons.mp h
    have hnot : ∀ j, j ≤ i → j ∉ upper.map Prod.fst := by
      intro j hj hmem
      obtain ⟨g, hg, rfl⟩ := List.mem_map.mp hmem
      exact absurd (hlt g hg) (not_lt.mpr hj)
    have hcons : ∀ (fs : Fields α) (j : String) (w : α) (upper : Fields α),
        overlay fs ((j, w) :: upper) = overlay (insert fs j w) upper := fun _ _ _ _ => rfl
    rcases lt_trichotomy k i with hk | rfl | hk
    · rw [insert_of_lt hk, hcons, hcons, hcons, insert_comm (ne_of_lt hk),
        overlay_insert_of_not_mem (hnot k (le_of_lt hk))]
    · rw [insert_of_eq, hcons, hcons, ← overlay_insert_of_not_mem (hnot k (le_refl k)), insert_insert]
    · rw [insert_of_gt hk, hcons, hcons, ih hupper]

theorem overlay_assoc {middle : Fields α} (h : middle.Sorted) (lower upper : Fields α) :
    overlay lower (overlay middle upper) = overlay (overlay lower middle) upper := by
  induction upper generalizing middle with
  | nil => rfl
  | cons f upper ih =>
    change overlay lower (overlay (insert middle f.1 f.2) upper) =
      overlay (insert (overlay lower middle) f.1 f.2) upper
    rw [ih (sorted_insert h f.1 f.2), overlay_insert h]

theorem get?_overlay {upper : Fields α} (h : upper.Sorted) (lower : Fields α) (k : String) :
    get? (overlay lower upper) k = (get? upper k).or (get? lower k) :=
  get?_foldl_insert h.nodup lower k

theorem sorted_overlay {lower : Fields α} (h : lower.Sorted) (upper : Fields α) :
    (overlay lower upper).Sorted :=
  sorted_foldl_insert upper h

theorem overlay_self (h : fs.Sorted) : overlay fs fs = fs := by
  refine (sorted_overlay h fs).ext h fun k => ?_
  rw [get?_overlay h, Option.or_self]

end Fields

end Montage
