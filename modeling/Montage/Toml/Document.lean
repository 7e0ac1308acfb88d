import Montage.Fields
import Montage.Exact.Binary64

/-!
TOML documents as they are put together: from headers, which open tables, and from pairs, whose keys
may be dotted. A table is opened by at most one header, and nothing is given twice.
-/

namespace Montage.Toml

/-- How a table came to be: by its own header, by the header of a table below it, by a dotted key, or
written in place. -/
inductive Origin where
  | header
  | implied
  | dotted
  | inPlace
deriving DecidableEq, Repr

inductive Item where
  | text (s : String)
  | int (n : Int)
  /-- None for a number that is not finite. -/
  | float (x : Option Binary64)
  | bool (b : Bool)
  /-- A date, a time of day, or both. -/
  | time
  | array (items : List Item)
  | table (origin : Origin) (fields : List (String × Item))
  /-- Tables opened one after the other under one name. -/
  | tables (each : List (List (String × Item)))
deriving Inhabited

abbrev Table := Fields Item

/-- Adds a pair to a table, going down by the leading parts of its key. Those lead only through
tables that no header opened, and end in one that dotted keys made. -/
def addPair (origin : Origin) (direct : Bool) (key : String) (v : Item) :
    List String → Table → Option Table
  | [], t =>
    if (origin == .dotted) == direct || Fields.contains t key then none
    else some (Fields.insert t key v)
  | p :: ps, t =>
    match Fields.get? t p with
    | none =>
      (addPair .dotted direct key v ps []).map fun u => Fields.insert t p (.table .dotted u)
    | some (.table o u) =>
      if o = .header || o = .inPlace then none
      else (addPair o direct key v ps u).map fun u => Fields.insert t p (.table o u)
    | some (.tables us) =>
      match us.getLast? with
      | none => none
      | some u =>
        (addPair .header direct key v ps u).map fun u =>
          Fields.insert t p (.tables (us.dropLast ++ [u]))
    | some _ => none

/-- Adds a pair whose key has several parts. -/
def addDotted (origin : Origin) (key : List String) (v : Item) (t : Table) : Option Table :=
  match key.getLast? with
  | none => none
  | some last => addPair origin key.dropLast.isEmpty last v key.dropLast t

/-- Changes the table at a path of headers. Missing tables on the way are implied, and of several
tables under one name the last is meant. -/
def under (f : Table → Option Table) : List String → Table → Option Table
  | [], t => f t
  | p :: ps, t =>
    match Fields.get? t p with
    | none => (under f ps []).map fun u => Fields.insert t p (.table .implied u)
    | some (.table o u) =>
      if o = .inPlace then none
      else (under f ps u).map fun u => Fields.insert t p (.table o u)
    | some (.tables us) =>
      match us.getLast? with
      | none => none
      | some u =>
        (under f ps u).map fun u => Fields.insert t p (.tables (us.dropLast ++ [u]))
    | some _ => none

/-- Opens a table by its header; one that was only implied so far keeps what is in it. -/
def openTable (key : String) (t : Table) : Option Table :=
  match Fields.get? t key with
  | none => some (Fields.insert t key (.table .header []))
  | some (.table .implied u) => some (Fields.insert t key (.table .header u))
  | some _ => none

/-- Opens one more table under a name. -/
def openElement (key : String) (t : Table) : Option Table :=
  match Fields.get? t key with
  | none => some (Fields.insert t key (.tables [[]]))
  | some (.tables us) => some (Fields.insert t key (.tables (us ++ [[]])))
  | some _ => none

end Montage.Toml
