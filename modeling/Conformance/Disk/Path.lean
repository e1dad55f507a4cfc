import Conformance.Text.Split

/-!
# Paths

A path is a text of parts between slashes. It is absolute if it begins with a slash. Empty
parts and dots say nothing, except that a dot at the very front is kept: two paths that
differ in nothing else have the same `components`.

Paths are shown as they were given, so joining and cutting work on the text and leave every
part as it is.
-/

namespace Conformance.Path

def isAbsolute (path : String) : Bool := path.toList.head? = some '/'

/-- A path below a base; an absolute path stays as it is. -/
def join (base path : String) : String :=
  if isAbsolute path then path
  else if base.isEmpty || base.toList.getLast? = some '/' then base ++ path
  else base ++ "/" ++ path

/-- Whether a part of a path says nothing about where it leads. -/
def isFiller (part : String) : Bool := part.isEmpty || part = "."

/-- The parts of a path that count; `/` stands for the top of an absolute one. -/
def components (path : String) : List String :=
  let parts := Text.split '/' path
  let first :=
    if isAbsolute path then ["/"] else if parts.head? = some "." then ["."] else []
  first ++ parts.filter (!isFiller ·)

/-- The name of what a path leads to, if the path ends in a name. -/
def fileName? (path : String) : Option String :=
  match (components path).getLast? with
  | some "/" | some "." | some ".." | none => none
  | some name => some name

/-- The part of a file's name after its last dot; a dot at the front does not count. -/
def extension? (path : String) : Option String := do
  let name ← fileName? path
  match (Text.split '.' name).reverse with
  | last :: before :: others =>
    if before.isEmpty && others.isEmpty then none else some last
  | _ => none

/-- A list of parts without those at its end that say nothing; the first part of a path is
kept if it is the top or a dot. -/
def dropFiller (absolute : Bool) : List String → List String
  | [] => []
  | first :: others =>
    let rest := (others.reverse.dropWhile isFiller).reverse
    if rest.isEmpty && first.isEmpty && !absolute then [] else first :: rest

/-- The path without its last part; the top has no parent. -/
def parent? (path : String) : Option String :=
  let absolute := isAbsolute path
  match dropFiller absolute (Text.split '/' path) with
  | [] => none
  | [first] => if first.isEmpty then none else some ""
  | parts =>
    match dropFiller absolute parts.dropLast with
    | [""] => some "/"
    | before => some ("/".intercalate before)

/-- Whether two paths have the same parts. -/
def same (p q : String) : Bool := components p = components q

end Conformance.Path
