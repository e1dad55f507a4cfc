import Conformance.Java.Declaration
import Conformance.Java.Grammar
import Conformance.Text.Split

/-!
# Source files

A `SourceFile` is a text together with what it declares. It is read from the text, changed
by adding interfaces to its declarations, and saved by inserting into the text what was
added and nothing else. A file that was saved is read anew, so that its declarations again
say what its text says.
-/

namespace Conformance.Java

/-- An import. -/
structure Import where
  /-- The imported name, or what all imported names begin with. -/
  path : String
  isStatic : Bool
  onDemand : Bool
  deriving DecidableEq, Repr, Inhabited

structure SourceFile where
  path : String
  text : String
  package? : Option String
  imports : List Import
  types : List Declaration
  deriving DecidableEq, Repr, Inhabited

namespace SourceFile

/-- The name of the file's package; that of the unnamed package is empty. -/
def packageName (f : SourceFile) : String := f.package?.getD ""

/-- The name of something in a package. -/
def qualifyIn (package name : String) : String :=
  if package.isEmpty then name else package ++ "." ++ name

/-- The canonical name of a type that the file declares. -/
def qualify (f : SourceFile) (name : String) : String := qualifyIn f.packageName name

/-! ## Reading -/

/-- The bytes of a text from one offset to another. -/
def slice (text : List Char) (start stop : Nat) : List Char :=
  Text.takeBytes (stop - start) (Text.dropBytes start text)

/-- A dotted name as the source spells it, without the blanks around its dots. -/
def spelledName (text : List Char) (name : Tree) : String :=
  let spelled := slice text (name.start?.getD 0) (name.stop?.getD 0)
  ".".intercalate
    ((Text.splitOnChar '.' spelled).map fun part => String.ofList (Text.trimChars part))

/-- The name in the declaration of a package. -/
def packageOf? (text : List Char) (t : Tree) : Option String :=
  if t.isNode .packageDecl then (t.child? .qualifiedName).map (spelledName text) else none

/-- The import that a tree stands for. -/
def importOf? (text : List Char) (t : Tree) : Option Import :=
  if t.isNode .importDecl then
    (t.child? .qualifiedName).map fun name =>
      { path := spelledName text name
        isStatic := t.children.any (·.isWord "static")
        onDemand := (t.child? .asterisk).isSome }
  else none

/-- What some trees at the top of a file declare. The last package counts. -/
def ofTrees (path text : String) (trees : List Tree) : SourceFile where
  path := path
  text := text
  package? := (trees.filterMap (packageOf? text.toList)).getLast?
  imports := trees.filterMap (importOf? text.toList)
  types := Declaration.ofTrees trees

/-- Reads a source file, if its text follows the grammar. -/
def parse? (path text : String) : Option SourceFile := do
  let tokens ← tokens? text.toList
  let trees ← treesOf? tokens
  return ofTrees path text trees

/-! ## Saving -/

/-- Whether interfaces were added to the file's declarations. -/
def isModified (f : SourceFile) : Bool := Declaration.anyModified f.types

/-- The text of the file with what was added to it. -/
def savedText (f : SourceFile) : Except EditFault String :=
  TextEdit.applyAll f.text (Declaration.insertionsOf f.types)

/-- The file after a text was written to it. A text that cannot be read declares no types;
the package and the imports then stay as they were. -/
def withText (f : SourceFile) (text : String) : SourceFile :=
  (parse? f.path text).getD { f with text := text, types := [] }

/-- The file as it is saved; a file without changes is left alone. -/
def save (f : SourceFile) : Except EditFault SourceFile :=
  if f.isModified then return f.withText (← f.savedText) else return f

end SourceFile

/-- A file whose additions do not fit its text. -/
structure SaveFault where
  path : String
  cause : EditFault
  deriving DecidableEq, Repr

/-- What a save leaves behind: the files read anew, those that were written, and why it
stopped, if it did. Files are saved in order up to the first fault. -/
structure Saved where
  files : List SourceFile
  written : List SourceFile
  fault : Option SaveFault
  deriving Repr, Inhabited

/-- Saves all files that were changed. -/
def saveAll : List SourceFile → Saved
  | [] => ⟨[], [], none⟩
  | f :: others =>
    match f.save with
    | .error cause => ⟨f :: others, [], some ⟨f.path, cause⟩⟩
    | .ok saved =>
      let rest := saveAll others
      ⟨saved :: rest.files, if f.isModified then saved :: rest.written else rest.written, rest.fault⟩

end Conformance.Java
