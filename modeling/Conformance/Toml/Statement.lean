import Conformance.Toml.Draft
import Conformance.Toml.Scalar

/-!
# The statements of a TOML document

A document is a list of statements, each on a line of its own: a key with its value, or the
header of a table. Values lie in each other up to a fixed depth, and a key has a limited
number of parts.
-/

namespace Conformance.Toml

/-! ## Keys -/

/-- The number of nested values, and of the parts of a key, that is too large. -/
def depthLimit : Nat := 80

def isKeyChar (c : Char) : Bool := c.isAlphanum || c = '-' || c = '_'

/-- One part of a key. -/
def keyPart? (text : List Char) : Option (String × List Char) :=
  match text with
  | '"' :: rest => (basic? (rest.length + 1) rest).map fun (chars, rest) => (String.ofList chars, rest)
  | '\'' :: rest => (literal? rest).map fun (chars, rest) => (String.ofList chars, rest)
  | _ =>
    match text.takeWhile isKeyChar with
    | [] => none
    | chars => some (String.ofList chars, text.dropWhile isKeyChar)

/-- The parts of a key, with blanks around each; `fuel` bounds their number. -/
def keyParts? : Nat → List Char → Option (List String × List Char)
  | 0, _ => none
  | fuel + 1, text => do
    let (part, rest) ← keyPart? (skipBlanks text)
    match skipBlanks rest with
    | '.' :: rest => (keyParts? fuel rest).map fun (parts, rest) => (part :: parts, rest)
    | rest => some ([part], rest)

/-- A key of a number of parts that is not too large. -/
def key? (text : List Char) : Option (List String × List Char) := keyParts? (depthLimit - 1) text

/-! ## Values -/

/-- What follows blanks, line ends and comments; `fuel` bounds their number. -/
def skipLines : Nat → List Char → List Char
  | 0, text => text
  | fuel + 1, text =>
    let after := skipComment (skipBlanks text)
    match afterNewline? after with
    | some rest => skipLines fuel rest
    | none => after

/-- What a reader of values returns. -/
abbrev ValueReader := List Char → Option (Toml × List Char)

/-- The rest of an array; `fuel` bounds the number of its items. -/
def items? (value? : ValueReader) : Nat → List Char → Option (List Toml × List Char)
  | 0, _ => none
  | fuel + 1, text =>
    match skipLines text.length text with
    | ']' :: rest => some ([], rest)
    | text => do
      let (v, rest) ← value? text
      match skipLines rest.length rest with
      | ']' :: rest => some ([v], rest)
      | ',' :: rest => (items? value? fuel rest).map fun (others, rest) => (v :: others, rest)
      | _ => none

/-- A key and its value. -/
def pair? (value? : ValueReader) (text : List Char) : Option ((List String × Toml) × List Char) := do
  let (path, rest) ← key? text
  match rest with
  | '=' :: rest => (value? (skipBlanks rest)).map fun (v, rest) => ((path, v), rest)
  | _ => none

/-- The rest of the pairs of a table in braces; `fuel` bounds their number. -/
def pairs? (value? : ValueReader) :
    Nat → List Char → Option (List (List String × Toml) × List Char)
  | 0, _ => none
  | fuel + 1, text => do
    let (pair, rest) ← pair? value? text
    match skipBlanks rest with
    | '\x7d' :: rest => some ([pair], rest)
    | ',' :: rest => (pairs? value? fuel rest).map fun (others, rest) => (pair :: others, rest)
    | _ => none

/-- A table without entries, to which some are assigned. -/
def ofPairs? (pairs : List (List String × Toml)) : Option Toml :=
  (pairs.foldlM (fun entries (path, v) => Draft.assign? v path entries) []).map fun entries =>
    .table (Draft.finishEntries entries)

/-- The rest of a table in braces. -/
def braces? (value? : ValueReader) (text : List Char) : Option (Toml × List Char) :=
  match skipBlanks text with
  | '\x7d' :: rest => some (.table [], rest)
  | _ => do
    let (pairs, rest) ← pairs? value? (text.length + 1) text
    return (← ofPairs? pairs, rest)

/-- A value with at most so many values in each other around a part of it. -/
def value? : Nat → ValueReader
  | 0, text => scalar? text
  | depth + 1, text =>
    match text with
    | '[' :: rest =>
      (items? (value? depth) (rest.length + 1) rest).map fun (items, rest) => (.array items, rest)
    | '\x7b' :: rest => braces? (value? depth) rest
    | _ => scalar? text

/-! ## Statements -/

inductive Statement where
  | pair (path : List String) (value : Toml)
  | header (path : List String)
  /-- A header in two brackets. -/
  | itemHeader (path : List String)
  deriving Repr, Inhabited

/-- What follows a line on which nothing but a comment is left. -/
def afterLine? (text : List Char) : Option (List Char) :=
  match skipComment (skipBlanks text) with
  | [] => some []
  | rest => afterNewline? rest

/-- The statement at the front of a text. -/
def statement? : List Char → Option (Statement × List Char)
  | '[' :: '[' :: rest => do
    let (path, rest) ← key? rest
    match rest with
    | ']' :: ']' :: rest => return (.itemHeader path, rest)
    | _ => none
  | '[' :: rest => do
    let (path, rest) ← key? rest
    match rest with
    | ']' :: rest => return (.header path, rest)
    | _ => none
  | text => do
    let ((path, v), rest) ← pair? (value? (depthLimit - 1)) text
    return (.pair path v, rest)

/-- The statements of a text; `fuel` bounds the number of its lines. -/
def statements? : Nat → List Char → Option (List Statement)
  | 0, _ => none
  | fuel + 1, text =>
    match skipBlanks text with
    | [] => some []
    | text =>
      match afterLine? text with
      | some rest => statements? fuel rest
      | none => do
        let (statement, rest) ← statement? text
        let others ← statements? fuel (← afterLine? rest)
        return statement :: others

end Conformance.Toml
