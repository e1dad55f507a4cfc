import Conformance.Disk.Basic
import Conformance.Java.SourceFile

/-!
# Source files on a disk

The source files at or below a path are the files with the extension `java`. One that does
not follow the grammar is no obstacle to reading the others; one that is no text is.
-/

namespace Conformance

open Java

/-- Why source files cannot be read or written. -/
inductive SourceFault where
  /-- A path that leads nowhere. -/
  | missing (path : String)
  | unreadable (path : String)
  | unwritable (path : String)
  | edits (path : String) (cause : EditFault)
  deriving DecidableEq, Repr

/-- What a report says about source files that cannot be read or written. -/
def SourceFault.message : SourceFault → String
  | missing path => "failed to walk source directory " ++ path
  | unreadable path => "failed to read " ++ path
  | unwritable path => "failed to write " ++ path
  | edits path cause => "failed to edit " ++ path ++ ": " ++ cause.message

/-- A source file on a disk, which may not follow the grammar. -/
inductive SourceText where
  | parsed (file : SourceFile)
  | unparsed (path : String)
  deriving Repr, Inhabited

namespace SourceText

def path : SourceText → String
  | parsed file => file.path
  | unparsed path => path

/-- The file, if it could be read. -/
def file? : SourceText → Option SourceFile
  | parsed file => some file
  | unparsed _ => none

/-- Reads a text as a source file. -/
def ofText (path text : String) : SourceText :=
  match SourceFile.parse? path text with
  | some file => parsed file
  | none => unparsed path

end SourceText

namespace Disk

/-- The source files among some files. -/
def readSources : List (String × Contents) → Except SourceFault (List SourceText)
  | [] => .ok []
  | (path, contents) :: files =>
    if Path.extension? path = some "java" then
      match contents.text? with
      | none => .error (.unreadable path)
      | some text => do
        return .ofText path text :: (← readSources files)
    else readSources files

/-- The source files at or below a path, in order. -/
def sources (disk : Disk) (path : String) : Except SourceFault (List SourceText) :=
  match disk.walk? path with
  | none => .error (.missing path)
  | some files => readSources files

/-- Writes source files to where they were read from; the first one that cannot be written
is the last that is tried. -/
def writeSources (disk : Disk) : List SourceFile → Disk × Option SourceFault
  | [] => (disk, none)
  | f :: files =>
    match disk.write? f.path f.text with
    | none => (disk, some (.unwritable f.path))
    | some disk => disk.writeSources files

/-- Saves the source files that were changed: the files as they are then, how many were
written, and the disk. -/
def save (disk : Disk) (files : List SourceFile) :
    Disk × Except SourceFault (List SourceFile × Nat) :=
  let saved := saveAll files
  match disk.writeSources saved.written, saved.fault with
  | (disk, some fault), _ => (disk, .error fault)
  | (disk, none), some fault => (disk, .error (.edits fault.path fault.cause))
  | (disk, none), none => (disk, .ok (saved.files, saved.written.length))

end Disk

end Conformance
