import Montage.Error
import Montage.Settings
import Montage.Toml.Reader

/-!
Settings from a TOML document. Keys that are not settings are passed over.
-/

namespace Montage.Settings

open Json (Value)

/-- A value as data, as far as a limit looks at it. -/
def limitValue : Toml.Item → Value
  | .text s => .str s
  | .int n => .num (.int n)
  | .float (some x) => .num (.float x)
  | .bool b => .bool b
  | _ => .null

def textSetting (t : Toml.Table) (key : String) : Except Error (Option String) :=
  match Fields.get? t key with
  | none => .ok none
  | some (.text s) => .ok (some s)
  | some _ => .error (.settings ("`" ++ key ++ "` must be a string"))

/-- What is not given keeps its default. -/
def ofTable (t : Toml.Table) : Except Error Settings :=
  match textSetting t "class_prefix", textSetting t "trace_level" with
  | .error e, _ => .error e
  | _, .error e => .error e
  | .ok classPrefix, .ok traceLevel =>
    let limit := match Fields.get? t "default_list_limit" with
      | none => default.listLimit
      | some v => readLimit (limitValue v)
    .ok ⟨limit, classPrefix.getD default.classPrefix, traceLevel⟩

def ofDocument (source : String) : Except Error Settings :=
  match Toml.read source.toList with
  | none => .error (.settings "malformed document")
  | some t => ofTable t

end Montage.Settings
