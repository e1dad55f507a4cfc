import Conformance.Toml.Basic

/-!
# Tables in the making

A document defines its tables piece by piece, and each table may be defined once only. So
while a document is read, every table remembers how it came to be:

* a header *defines* the table it names;
* a header on the way to that table *implies* it, and it may be defined later;
* a dotted key makes its tables as it goes, and only dotted keys may add to them.

A plain value is finished when it is written, so nothing is added to a table in braces.
-/

namespace Conformance.Toml

/-- How a table came to be. -/
inductive Origin where
  | defined
  | implied
  | dotted
  deriving DecidableEq, Repr, Inhabited

inductive Draft where
  | value (v : Toml)
  | table (origin : Origin) (entries : List (String × Draft))
  /-- The tables that headers in two brackets define, one after the other. -/
  | tables (items : List (List (String × Draft)))
  deriving Repr, Inhabited

namespace Draft

/-- The entries of an unfinished table, in the order of their definition. -/
abbrev Entries := List (String × Draft)

/-- Some entries in which a key has a new draft. The key keeps its place if it has one. -/
def put (key : String) (draft : Draft) : Entries → Entries
  | [] => [(key, draft)]
  | (other, found) :: entries =>
    if key = other then (key, draft) :: entries else (other, found) :: put key draft entries

/-- Some entries with a value under a key, or under several keys for tables in each other. -/
def assign? (v : Toml) : List String → Entries → Option Entries
  | [], _ => none
  | [key], entries => if (entries.lookup key).isSome then none else some (put key (.value v) entries)
  | key :: path, entries =>
    let add (found : Entries) : Option Entries := assign? v path found
    match entries.lookup key with
    | none => (add []).map fun new => put key (.table .dotted new) entries
    | some (.table .dotted found) => (add found).map fun new => put key (.table .dotted new) entries
    | some (.table .implied found) =>
      if path.length < 2 then none
      else (add found).map fun new => put key (.table .implied new) entries
    | some (.tables items) =>
      if path.length < 2 then none
      else
        items.getLast?.bind fun found =>
          (add found).map fun new => put key (.tables (items.dropLast ++ [new])) entries
    | some _ => none

/-- Some entries with a change made in the table where the last key of a header belongs. The
tables on the way are implied. -/
def descend? (change : String → Entries → Option Entries) : List String → Entries → Option Entries
  | [], _ => none
  | [key], entries => change key entries
  | key :: path, entries =>
    let inside (found : Entries) : Option Entries := descend? change path found
    match entries.lookup key with
    | none => (inside []).map fun new => put key (.table .implied new) entries
    | some (.table origin found) => (inside found).map fun new => put key (.table origin new) entries
    | some (.tables items) =>
      items.getLast?.bind fun found =>
        (inside found).map fun new => put key (.tables (items.dropLast ++ [new])) entries
    | some (.value _) => none

/-- Some entries with a table defined, which is filled by a change of what it has so far. -/
def define? (fill : Entries → Option Entries) (key : String) (entries : Entries) : Option Entries :=
  let others := entries.filter (·.1 ≠ key)
  match entries.lookup key with
  | none => (fill []).map fun new => others ++ [(key, .table .defined new)]
  | some (.table .implied found) => (fill found).map fun new => others ++ [(key, .table .defined new)]
  | some _ => none

/-- Some entries with one more table in a list of tables. -/
def append? (fill : Entries → Option Entries) (key : String) (entries : Entries) : Option Entries :=
  match entries.lookup key with
  | none => (fill []).map fun new => put key (.tables [new]) entries
  | some (.tables items) => (fill []).map fun new => put key (.tables (items ++ [new])) entries
  | some _ => none

mutual

def finish : Draft → Toml
  | value v => v
  | table _ entries => .table (finishEntries entries)
  | tables items => .array (finishTables items)

def finishEntries : List (String × Draft) → List (String × Toml)
  | [] => []
  | (key, draft) :: entries => (key, draft.finish) :: finishEntries entries

def finishTables : List (List (String × Draft)) → List Toml
  | [] => []
  | entries :: items => .table (finishEntries entries) :: finishTables items

end

end Draft

end Conformance.Toml
