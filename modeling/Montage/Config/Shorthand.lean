import Montage.Config.Basic
import Montage.Text.Blank

/-!
Shorthand configs: a name alone, `name:query`, and `name{fields}` with the fields of an object
literal. Queries among the fields stay text, and other expressions become `=` props.
-/

namespace Montage.Shorthand

open Json (Value)

variable {F : Type}

structure Parts where
  name : List Char
  separator : Char
  rest : List Char

/-- Looks for the first separator; `seen` holds the characters before it, last first. A blank before
it, or nothing after it, makes the whole a name. -/
def partsFrom (seen : List Char) : List Char → Option Parts
  | [] => none
  | c :: r =>
    if Text.isBlank c then none
    else if (c == ':' || c == '\x7b') && !seen.isEmpty then
      if r.isEmpty then none else some ⟨seen.reverse, c, r⟩
    else partsFrom (c :: seen) r

def parts? (s : List Char) : Option Parts :=
  partsFrom [] s

/-- Plain values stay, and expressions are put off as queries. -/
def fieldProp (f : LiteralField) : PropValue F :=
  match f.literal with
  | some v => .json v
  | none => .json (.str ("=" ++ f.source))

/-- Plain values other than strings stay, and anything else is the text of a query. -/
def fieldQuery (f : LiteralField) : Query F :=
  match f.literal with
  | some v => if v.isStr then .text f.source else .value v
  | none => .text f.source

def addFields (whole : String) (c : Config F) : List LiteralField → Config F
  | [] => c
  | f :: r =>
    if f.key = "view" || f.key = "postRender" then
      Config.ofFailure (.config ("`" ++ f.key ++ "` is not allowed in a config literal")) (.str whole)
    else if f.key = "when" then addFields whole { c with when := some (fieldQuery f) } r
    else if f.key = "data" then addFields whole { c with data := some (fieldQuery f) } r
    else if f.key = "whenData" then addFields whole { c with whenData := some (fieldQuery f) } r
    else if f.key = "className" then addFields whole { c with className := some (fieldProp f) } r
    else addFields whole (c.withProp f.key (fieldProp f)) r

/-- The config that a shorthand stands for. -/
def read (engine : Engine) (whole : String) : Config F :=
  match parts? whole.toList with
  | none => Config.ofView whole
  | some p =>
    let name := String.ofList p.name
    if p.separator == ':' then
      { Config.ofView name with data := some (.text (String.ofList p.rest)) }
    else match engine.parseLiteral (String.ofList ('\x7b' :: p.rest)) with
      | .error e => Config.ofFailure (.config ("bad config literal: " ++ e.message)) (.str whole)
      | .ok fields => addFields whole (Config.ofView name) fields

end Montage.Shorthand
