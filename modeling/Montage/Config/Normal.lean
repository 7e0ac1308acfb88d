import Montage.Config.Json
import Montage.Config.Shorthand

/-!
The normal form of a raw config: a flat list of configs in object shape, in order. What is malformed
becomes a failure in its place, so that its neighbours still render.
-/

namespace Montage

variable {F : Type}

namespace RawConfig

mutual

def normalize (engine : Engine) : RawConfig F → List (Config F)
  | .null => []
  | .text s => [Shorthand.read engine s]
  | .inline f => [Config.ofFunction f]
  | .object c => [c]
  | .list items => normalizeAll engine items
  | .invalid v => [Config.ofFailure (.config ("unsupported config value: " ++ v.compact)) v]

def normalizeAll (engine : Engine) : List (RawConfig F) → List (Config F)
  | [] => []
  | c :: r => normalize engine c ++ normalizeAll engine r

end

end RawConfig

namespace Config

/-- A config without a view becomes a failure. -/
def ensureView (c : Config F) : Config F :=
  if c.view.isSome then c else ofFailure .missingView c.toJson

end Config

end Montage
