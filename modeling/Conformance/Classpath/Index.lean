import Std.Data.ExtTreeMap
import Conformance.Archive.Zip
import Conformance.Classpath.Entry
import Conformance.Classpath.Stub
import Conformance.Disk.Basic
import Conformance.Text.Blank

/-!
# The index of a classpath

Which class a name means is settled by the order of the classpath: the first entry that
defines it counts. A folder is searched in the order of its files. An archive may hold
versions of a class for different releases; the class outside `META-INF` counts, and only
where there is none the one for the latest release.

A class file that cannot be read is left out of the index and listed as malformed. An entry
that does not exist is passed over.
-/

namespace Conformance

/-- A class file that cannot be read. -/
structure MalformedClass where
  /-- The path of the file, or that of its archive and the name of the member. -/
  location : String
  fault : ClassFile.Fault
  deriving DecidableEq, Repr

/-- Why a classpath cannot be indexed. -/
inductive ClasspathFault where
  /-- The data at a path cannot be read. -/
  | unreadable (path : String)
  /-- The file at a path is no archive, or has a member that cannot be opened. -/
  | noArchive (path : String)
  deriving DecidableEq, Repr

/-- What a report says about a classpath that cannot be indexed. -/
def ClasspathFault.message : ClasspathFault → String
  | unreadable path => "failed to read classpath entry " ++ path
  | noArchive path => "failed to open jar " ++ path

namespace Classpath

/-- Whether a class file describes a module or a package and no class. -/
def isDescription (internal : String) : Bool :=
  internal = "module-info" || Text.lastPart '/' internal = "package-info"

/-- Class files that were looked at in order: the classes they define, and those that cannot
be read. -/
structure Found where
  stubs : List ClassStub := []
  malformed : List MalformedClass := []
  deriving Inhabited

/-- A class file as an entry of the classpath shows it: a stub, a malformed class, or
nothing to be found. -/
def readClass (location : String) (bytes : List UInt8) : Except MalformedClass (Option ClassStub) :=
  match ClassFile.parse bytes with
  | .error fault => .error ⟨location, fault⟩
  | .ok file =>
    if isDescription file.thisClass then .ok none else .ok (some (ClassStub.ofClassFile file))

/-! ## Folders -/

/-- The class files among the files of a folder. -/
def classFiles (files : List (String × Contents)) : List (String × Contents) :=
  files.filter fun (path, _) => Path.extension? path = some "class"

/-- What the class files of a folder define. -/
def findInFolder : List (String × Contents) → Found
  | [] => {}
  | (path, contents) :: files =>
    let found := findInFolder files
    match readClass path contents.toBytes with
    | .error malformed => { found with malformed := malformed :: found.malformed }
    | .ok none => found
    | .ok (some stub) => { found with stubs := stub :: found.stubs }

/-! ## Archives -/

/-- The name of the member that says what kind of archive it is in; the last one of that name
counts. -/
def manifestName : String := "META-INF/MANIFEST.MF"

/-- Whether a line of a manifest says that the archive has versions for several releases. -/
def saysMultiRelease (line : String) : Bool :=
  match Text.split ':' line with
  | key :: first :: others =>
    (Text.trim key).toLower = "multi-release"
      && (Text.trim (":".intercalate (first :: others))).toLower = "true"
  | _ => false

/-- Whether an archive has versions for several releases. -/
def isMultiRelease (members : List Member) : Bool :=
  match (members.filter (·.name = manifestName)).getLast? with
  | none => false
  | some m =>
    match m.data?.bind fun data => String.fromUTF8? data.toByteArray with
    | none => false
    | some text => (Text.split '\n' text).any saysMultiRelease

/-- The largest number of a release. -/
def maxRelease : Nat := 4294967295

/-- A number in decimal digits, with or without a plus sign in front. -/
def releaseNumber? (text : String) : Option Nat :=
  let digits :=
    match text.toList with
    | '+' :: rest => rest
    | rest => rest
  if digits.isEmpty || !digits.all Char.isDigit then none
  else
    let n := digits.foldl (fun n c => 10 * n + (c.toNat - '0'.toNat)) 0
    if n ≤ maxRelease then some n else none

/-- The release that a member is for: zero outside `META-INF`, otherwise the number of its
folder of versions. Other members of `META-INF` define no classes. -/
def releaseOf? (multiRelease : Bool) (name : String) : Option Nat :=
  match Text.split '/' name with
  | "META-INF" :: rest@(_ :: _) =>
    match rest with
    | "versions" :: number :: _ :: _ => if multiRelease then releaseNumber? number else none
    | _ => none
  | _ => some 0

/-- Whether a member of an archive is a class file. -/
def isClassMember (m : Member) : Bool :=
  !m.isFolder && m.name.toList.drop (m.name.length - ".class".length) = ".class".toList

/-- Whether a class for one release takes the place of that for another. -/
def takesPlace (release other : Nat) : Bool := other ≠ 0 && (release = 0 || other < release)

/-- The classes that were found so far in an archive, by binary name. -/
abbrev Best := Std.ExtTreeMap String (Nat × ClassStub)

/-- The best classes with one more taken into account. -/
def Best.add (best : Best) (release : Nat) (stub : ClassStub) : Best :=
  match best[stub.binaryName]? with
  | none => best.insert stub.binaryName (release, stub)
  | some (other, _) =>
    if takesPlace release other then best.insert stub.binaryName (release, stub) else best

/-- Looks at the class files among the members of an archive, one after the other. Every member is
opened; only class files that count are read. -/
def findInMembers (path : String) (multiRelease : Bool) :
    List Member → Best → Except ClasspathFault (Best × List MalformedClass)
  | [], best => .ok (best, [])
  | m :: members, best =>
    if !m.opens then .error (.noArchive path)
    else
      match if isClassMember m then releaseOf? multiRelease m.name else none with
      | none => findInMembers path multiRelease members best
      | some release =>
        match m.data? with
        | none => .error (.unreadable path)
        | some data =>
          match readClass (path ++ "!/" ++ m.name) data with
          | .error malformed => do
            let (best, others) ← findInMembers path multiRelease members best
            return (best, malformed :: others)
          | .ok none => findInMembers path multiRelease members best
          | .ok (some stub) => findInMembers path multiRelease members (best.add release stub)

/-- What the class files of an archive define. -/
def findInArchive (path : String) (members : List Member) : Except ClasspathFault Found := do
  let (best, malformed) ← findInMembers path (isMultiRelease members) members ∅
  return { stubs := best.values.map (·.2), malformed }

/-- What an entry of the classpath defines. -/
def findIn (disk : Disk) (entry : ClasspathEntry) : Except ClasspathFault Found :=
  match disk.find? entry.path with
  | none => .ok {}
  | some node =>
    match entry with
    | .folder path => .ok (findInFolder (classFiles (node.walk path)))
    | .archive path =>
      match node.contents?.bind fun contents => Archive.members? contents.toBytes with
      | none => .error (.noArchive path)
      | some members => findInArchive path members

end Classpath

/-! ## The index -/

/-- The classes of a classpath, by binary name, and the class files that cannot be read. -/
structure ClasspathIndex where
  classes : Std.ExtTreeMap String ClassStub
  malformed : List MalformedClass

namespace ClasspathIndex

def empty : ClasspathIndex := ⟨∅, []⟩

instance : Inhabited ClasspathIndex := ⟨empty⟩

/-- Some classes with one more, unless its name is already defined. -/
def addClass (classes : Std.ExtTreeMap String ClassStub) (stub : ClassStub) :
    Std.ExtTreeMap String ClassStub :=
  if classes.contains stub.binaryName then classes else classes.insert stub.binaryName stub

/-- The index with what a further entry defines. -/
def add (index : ClasspathIndex) (found : Classpath.Found) : ClasspathIndex :=
  ⟨found.stubs.foldl addClass index.classes, index.malformed ++ found.malformed⟩

/-- The index of a classpath. -/
def build (disk : Disk) (entries : List ClasspathEntry) : Except ClasspathFault ClasspathIndex :=
  entries.foldlM (fun index entry => return index.add (← Classpath.findIn disk entry)) empty

/-- The class of a given binary name. -/
def find? (index : ClasspathIndex) (name : String) : Option ClassStub := index.classes[name]?

def size (index : ClasspathIndex) : Nat := index.classes.size

/-- All classes, by binary name. -/
def stubs (index : ClasspathIndex) : List ClassStub := index.classes.values

end ClasspathIndex

/-! ## Packages -/

namespace Package

/-- The name that a filter spells: without blanks around it and without dots at its end. -/
def filterName (filter : String) : List Char :=
  Text.dropEndWhile (· = '.') (Text.trimChars filter.toList)

/-- Whether a list of characters is another one, or goes on after it with a dot. -/
def isWithin (name package : List Char) : Bool :=
  match name, package with
  | [], [] => true
  | [], c :: _ => c = '.'
  | _ :: _, [] => false
  | c :: name, d :: package => c = d && isWithin name package

/-- Whether a package is the one that a filter names, or below it. -/
def isSelected (package filter : String) : Bool :=
  let name := filterName filter
  !name.isEmpty && isWithin name package.toList

end Package

/-- The interfaces of a classpath in the packages that some filters name. -/
def ClasspathIndex.interfacesIn (index : ClasspathIndex) (filters : List String) : List ClassStub :=
  (index.stubs.filter fun s => s.isInterface && !s.isAnnotationType).filter fun s =>
    filters.any (Package.isSelected s.package)

end Conformance
