import Conformance.Toml.Statement

/-!
# TOML documents

A document is a table. The pairs before its first header are entries of that table, and those
after a header are entries of the table that the header names.
-/

namespace Conformance.Toml

/-- A header with the pairs that follow it. -/
structure Section where
  path : List String
  /-- Whether the header adds a table to a list of tables. -/
  isItem : Bool
  pairs : List (List String × Toml)
  deriving Repr, Inhabited

namespace Section

/-- The pairs before the first header, and the sections after it. -/
def ofStatements : List Statement → List (List String × Toml) × List Section
  | [] => ([], [])
  | statement :: rest =>
    let (pairs, sections) := ofStatements rest
    match statement with
    | .pair path v => ((path, v) :: pairs, sections)
    | .header path => ([], ⟨path, false, pairs⟩ :: sections)
    | .itemHeader path => ([], ⟨path, true, pairs⟩ :: sections)

end Section

namespace Draft

/-- Some entries with a list of pairs assigned one after the other. -/
def assignAll? (pairs : List (List String × Toml)) (entries : Entries) : Option Entries :=
  pairs.foldlM (fun entries (path, v) => assign? v path entries) entries

/-- The entries of a document with one more section. -/
def addSection? (entries : Entries) (part : Section) : Option Entries :=
  let fill := assignAll? part.pairs
  descend? (if part.isItem then append? fill else define? fill) part.path entries

end Draft

/-- A text without the mark that may stand before everything else. -/
def skipMark : List Char → List Char
  | '\uFEFF' :: rest => rest
  | text => text

/-- The entries of a document. -/
def parse? (text : String) : Option (List (String × Toml)) := do
  let chars := skipMark text.toList
  let (pairs, sections) := Section.ofStatements (← statements? (chars.length + 1) chars)
  let entries ← Draft.assignAll? pairs []
  return Draft.finishEntries (← sections.foldlM Draft.addSection? entries)

end Conformance.Toml
