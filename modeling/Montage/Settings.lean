import Montage.Limit

/-!
Settings of a renderer, and how a host gives them as texts by name.
-/

namespace Montage

open Json (Value)

structure Settings where
  /-- Page size of lists that do not say one; none shows everything. -/
  listLimit : Option Nat
  /-- What classes made from view names begin with. -/
  classPrefix : String
  traceLevel : Option String
deriving DecidableEq

namespace Settings

def defaultListLimit : Option Nat := some 25

def default : Settings := ⟨defaultListLimit, "view-", none⟩

/-- Words that turn paging off. -/
def unlimitedWords : List String := ["false", "none", "unlimited"]

/-- A limit as a setting: besides what a list accepts, three words turn paging off. -/
def readLimit : Value → Option Nat
  | .str s =>
    if unlimitedWords.contains (String.ofList (Text.trim s.toList)) then none
    else Montage.listLimit (some (.str s)) defaultListLimit
  | v => Montage.listLimit (some v) defaultListLimit

/-- Settings from texts by name; what is not given keeps its default. -/
def ofTexts (texts : Fields String) : Settings where
  listLimit :=
    match Fields.get? texts "default_list_limit" with
    | none => defaultListLimit
    | some s => readLimit (.str s)
  classPrefix := (Fields.get? texts "class_prefix").getD default.classPrefix
  traceLevel := Fields.get? texts "trace_level"

/-- The filter for traces. -/
def directive (s : Settings) : String :=
  s.traceLevel.getD "info"

end Settings

end Montage
