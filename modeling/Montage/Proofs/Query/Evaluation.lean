import Montage.Proofs.Text.Trimming
import Montage.Query.Expression

/-!
How expressions are evaluated. Main statement: a trimmed text is a negation, an equality or an atom, and its value
is put together from those of its parts.
-/

namespace Montage.Expression

open Json (Value)
open Scan

variable {s : List Char} {u : Value}

/-- What comes out of a comparison. An error of the left side comes first; two values are compared. -/
def verdict (negate : Bool) : Except Error Value → Except Error Value → Except Error Value
  | .error e, _ => .error e
  | .ok _, .error e => .error e
  | .ok u, .ok v => .ok (.bool (u.same v != negate))

/-- The opposite of what comes out of an operand. -/
def denied : Except Error Value → Except Error Value
  | .error e => .error e
  | .ok v => .ok (.bool (!v.truthy))

/-- Nothing but a truth value comes out. -/
theorem truth_of_verdict {negate : Bool} {x y : Except Error Value} (h : verdict negate x y = .ok u) :
    ∃ b, u = .bool b := by
  unfold verdict at h
  split at h
  · cases h
  · cases h
  · exact ⟨_, (Except.ok.inj h).symm⟩

theorem truth_of_denied {x : Except Error Value} (h : denied x = .ok u) : ∃ b, u = .bool b := by
  unfold denied at h
  split at h
  · cases h
  · exact ⟨_, (Except.ok.inj h).symm⟩

theorem denied_verdict (negate : Bool) (x y : Except Error Value) :
    denied (verdict negate x y) = verdict (!negate) x y := by
  cases x with
  | error e => rfl
  | ok u =>
    cases y with
    | error e => rfl
    | ok v =>
      rw [verdict, denied, verdict, Value.truthy]
      cases u.same v <;> cases negate <;> rfl

/-- The value of an expression by what it consists of. -/
theorem evaluate_eq (s : List Char) (data context : Value) : evaluate s data context =
    match negated? (Text.trim s) with
    | some r => denied (evaluate r data context)
    | none =>
      match equality? (Text.trim s) with
      | some e => verdict e.negate (evaluate e.left data context) (evaluate e.right data context)
      | none => atom (Text.trim s) data context := by
  rw [evaluate]
  split
  · rename_i r hr
    rw [hr]
    change _ = denied (evaluate r data context)
    cases evaluate r data context <;> rfl
  · rename_i hplain
    rw [hplain]
    split
    · rename_i e he
      rw [he]
      change _ = verdict e.negate (evaluate e.left data context) (evaluate e.right data context)
      cases evaluate e.left data context with
      | error x => rfl
      | ok u => cases evaluate e.right data context <;> rfl
    · rename_i hatom
      rw [hatom]

/-- Blanks around an expression do not matter. -/
theorem evaluate_congr {t : List Char} (h : Text.trim s = Text.trim t) (data context : Value) :
    evaluate s data context = evaluate t data context := by
  rw [evaluate_eq, evaluate_eq, h]

theorem negated?_eq_none (h : s.head? ≠ some '!') : negated? s = none := by
  unfold negated?
  split
  · rfl
  · simp at h
  · rfl

theorem negated?_mark (h : s.head? ≠ some '=') : negated? ('!' :: s) = some s := by
  unfold negated?
  split
  · rename_i hs
    obtain ⟨-, rfl⟩ := List.cons_eq_cons.mp hs
    simp at h
  · rename_i hs
    rw [(List.cons_eq_cons.mp hs).2]
  · rename_i hs
    exact absurd rfl (hs s)

/-- A mark denies an expression that does not begin with an equality sign. -/
theorem evaluate_mark (h : s.head? ≠ some '=') (data context : Value) :
    evaluate ('!' :: s) data context = denied (evaluate s data context) := by
  have hhead : (Text.trimEnd s).head? ≠ some '=' := fun hsign => h (Text.head?_of_trimEnd hsign)
  rw [evaluate_eq, Text.trim_cons rfl, negated?_mark hhead]
  exact congrArg denied (evaluate_congr (Text.trim_trimEnd s) data context)

end Montage.Expression
