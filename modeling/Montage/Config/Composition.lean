import Montage.Config.Normal

/-!
Putting one config over another: what the upper one says wins, prop by prop.
-/

namespace Montage

variable {F : Type}

namespace Config

def withDefaults (upper lower : Config F) : Config F where
  view := upper.view.or lower.view
  when := upper.when.or lower.when
  data := upper.data.or lower.data
  whenData := upper.whenData.or lower.whenData
  postRender := upper.postRender.or lower.postRender
  className := upper.className.or lower.className
  props := Fields.overlay lower.props upper.props

end Config

namespace RawConfig

/-- Puts `upper` over every config of `base`; over no config it stands alone. -/
def compose (engine : Engine) (base : RawConfig F) (upper : Config F) : RawConfig F :=
  match (base.normalize engine).map upper.withDefaults with
  | [] => .object upper
  | [c] => .object c
  | cs => .list (cs.map .object)

end RawConfig

end Montage
