import Montage.Box.Medium
import Montage.Html.Medium

/-!
What the pipeline relies on in a medium, and that both media provide it.
-/

namespace Montage

/-- The item at the root of a tree. -/
def Rose.item {α : Type} : Rose α → α
  | .node item _ => item

/-- Classes do not change whether a node is a fragment, and an error is shown by a node that is none. -/
class LawfulMedium (α : Type) [Medium α] : Prop where
  isFragment_addClass : ∀ (c : String) (v : α),
    Medium.isFragment (Medium.addClass c v) = Medium.isFragment v
  isFragment_failure : ∀ (e : Error) (offending : Option Json.Value),
    Medium.isFragment (Medium.failure (α := α) e offending).item = false

instance : LawfulMedium Html.Item where
  isFragment_addClass c v := by
    cases v with
    | element tag classes attributes =>
      simp only [Medium.isFragment, Medium.addClass, Html.Item.addClass]
      split <;> rfl
    | text s => rfl
    | comment s => rfl
    | fragment => rfl
  isFragment_failure _ _ := rfl

instance : LawfulMedium Box.Item where
  isFragment_addClass _ _ := rfl
  isFragment_failure _ _ := rfl

end Montage
