import Conformance.Classpath.Index
import Conformance.Interface.Catalog
import Conformance.Interface.Describe
import Conformance.Java.Definition
import Conformance.Project.Diagnostic
import Conformance.Project.Sources
import Conformance.Store.CoreLibrary

/-!
# Snapshots of a project

A `Snapshot` is everything that is known about a project at one time: its source files, the
index of its classpath, and a store with the definitions of both and of the core library,
where sources count before the classpath and the classpath before the library.

Source files are read from two roots, one with the classes of the project and one with
interfaces. The roots may overlap; a file that lies below both is read once, and what tells
files apart is where they are, not the path that leads there.
-/

namespace Conformance

open Java

/-- What a run is to work on. -/
structure Options where
  /-- The root of the classes of the project. -/
  scanDir : String
  /-- The root of the source files with interfaces. -/
  interfacesDir : Option String := none
  /-- The packages whose interfaces are taken from the classpath. -/
  packages : List String := []
  classpath : List ClasspathEntry := []
  /-- How many passes a run may take. -/
  maxPasses : Option Nat := none
  deriving DecidableEq, Repr, Inhabited

/-- The paths that a run reads from. -/
def Options.paths (o : Options) : List String :=
  o.scanDir :: o.interfacesDir.toList ++ o.classpath.map ClasspathEntry.path

/-- Why there is no answer for a project. -/
inductive ProjectFault where
  | noInterfaceSource
  | source (cause : SourceFault)
  | classpath (cause : ClasspathFault)
  | noConvergence (passes : Nat)
  deriving DecidableEq, Repr

/-- What a report says about a project without an answer. -/
def ProjectFault.message : ProjectFault → String
  | noInterfaceSource =>
    "no interface source configured: set an interfaces directory, "
      ++ "or interface packages together with a classpath"
  | source cause => cause.message
  | classpath cause => cause.message
  | noConvergence passes => s!"retrofitting did not converge within {passes} passes"

/-! ## Reading the source files -/

/-- The source files read so far. -/
structure SourceSet where
  /-- The files that could be read, each with the place on the disk where it is. -/
  files : List (List String × SourceFile) := []
  /-- The paths of the files that could not be read. -/
  failures : List String := []
  deriving Repr, Inhabited

namespace SourceSet

/-- The position of the file at a place. -/
def position? (set : SourceSet) (place : List String) : Option Nat :=
  set.files.findIdx? (·.1 = place)

/-- The set with a file found at a place, and the position of the file in it if it could be
read. -/
def add (set : SourceSet) (place : List String) (text : SourceText) : SourceSet × Option Nat :=
  match set.position? place with
  | some position => (set, some position)
  | none =>
    match text with
    | .parsed file =>
      ({ set with files := set.files ++ [(place, file)] }, some set.files.length)
    | .unparsed path =>
      if set.failures.any (Path.same path) then (set, none)
      else ({ set with failures := set.failures ++ [path] }, none)

/-- The set with some files found on a disk, and the positions in it of those that could be
read. -/
def addAll (disk : Disk) : List SourceText → SourceSet → SourceSet × List Nat
  | [], set => (set, [])
  | text :: texts, set =>
    let place := (disk.resolve? text.path).getD (Path.components text.path)
    let (set, position) := set.add place text
    let (set, positions) := addAll disk texts set
    (set, position.toList ++ positions)

end SourceSet

/-! ## The snapshot -/

structure Snapshot where
  index : ClasspathIndex
  store : Store
  /-- The source files that could be read, each of them once. -/
  files : List SourceFile
  /-- The positions of the files below the root of the project. -/
  project : List Nat
  /-- The positions of the files below the root of interfaces. -/
  interfaceSources : List Nat
  /-- The paths of the source files that could not be read. -/
  failures : List String
  deriving Inhabited

namespace Snapshot

/-- The store with the core library, the classes of a classpath and those of source files. -/
def storeOf (index : ClasspathIndex) (files : List SourceFile) : Store :=
  (Store.coreLibrary.insertAll (index.stubs.map ClassStub.toClassDef)).withSources files

/-- The snapshot of a project. -/
def load (disk : Disk) (o : Options) : Except ProjectFault Snapshot := do
  let index ← (ClasspathIndex.build disk o.classpath).mapError .classpath
  let scanned ← (disk.sources o.scanDir).mapError .source
  let (set, project) := SourceSet.addAll disk scanned {}
  let found ←
    match o.interfacesDir with
    | none => pure []
    | some dir => (disk.sources dir).mapError ProjectFault.source
  let (set, interfaceSources) := SourceSet.addAll disk found set
  let files := set.files.map (·.2)
  return {
    index, files, project, interfaceSources
    store := storeOf index files
    failures := set.failures }

/-- The files at some positions. -/
def filesAt (s : Snapshot) (positions : List Nat) : List SourceFile :=
  positions.filterMap fun position => s.files[position]?

/-- The canonical names of the classes of the project that are not nested in others. -/
def targets (s : Snapshot) : List String :=
  (s.filesAt s.project).flatMap fun f =>
    (f.types.filter (·.kind = .plainClass)).map fun d => f.qualify d.name

/-- The names of the interfaces that classes are compared with, and where they come from. -/
def interfaceNames (s : Snapshot) (packages : List String) : List (String × InterfaceOrigin) :=
  let compiled := (s.index.interfacesIn packages).map fun stub =>
    (canonicalName stub.internalName, InterfaceOrigin.classpath)
  let written := (s.filesAt s.interfaceSources).flatMap fun f =>
    (f.types.filter (·.kind = .interface)).map fun d =>
      (f.qualify d.name, InterfaceOrigin.source f.path)
  compiled ++ written

/-- The interfaces that classes are compared with. The first occurrence of a name says where
it comes from. -/
def catalog (s : Snapshot) (packages : List String) : Catalog :=
  let names := keepFirst (fun a b => a.1 = b.1) (s.interfaceNames packages)
  .ofList (names.filterMap fun (name, origin) => s.store.describe name origin)

/-- What there is to tell about the files of a project. -/
def diagnostics (s : Snapshot) : List Diagnostic :=
  (s.failures.map fun path =>
    { severity := .warning, code := "parse-failure", message := "skipping unparseable file"
      path := some path })
  ++ s.index.malformed.map fun m =>
    { severity := .warning, code := "malformed-classfile"
      message := "skipping malformed class file: " ++ m.fault.message, path := some m.location }

end Snapshot

end Conformance
