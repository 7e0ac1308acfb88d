import Montage.Box.Layout
import Montage.Config.Json

/-!
What a view declares beside its way of painting: the node it paints into, and how its props are
reshaped first.
-/

namespace Montage

/-- The document node of a view: an element, or a fragment, whose children take its place. -/
inductive Tag where
  | element (name : String)
  | fragment
deriving DecidableEq, Repr

/-- The node that a view paints into, for either medium. -/
structure Shape where
  tag : Tag := .element "div"
  kind : Box.Kind := .inline
  border : Option Box.Border := none

/-- Reshapes props: by a query on the data whose context holds props and context, or by a function of
the host. -/
inductive Transform (F : Type) where
  | query (q : Query F)
  | map (f : F)

structure Options (F : Type) where
  shape : Shape := {}
  transform : Option (Transform F) := none

end Montage
