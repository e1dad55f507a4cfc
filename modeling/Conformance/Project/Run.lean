import Conformance.Project.Retrofit
import Conformance.Project.Snapshot

/-!
# Runs

A run adds interfaces to the classes of a project, pass by pass, until a pass adds nothing.
Every pass starts from a fresh snapshot, so it sees what the passes before it have written:
an interface added to one class may be what makes another class conform.

A class gets an interface once at most, so the passes that add something are at most as many
as there are pairs of a class and an interface. One more pass is needed to see that nothing
is left to add, and that is the limit where the options give none. The limit is worked out anew
for every pass.

A pass ends unless one of its searches does not, and then the run does not end either. There is no
outcome of such a run (`Options.run?`).
-/

namespace Conformance

open Java

/-- What a pass did. -/
structure PassSummary where
  pass : Nat
  classes : Nat
  interfaces : Nat
  additions : Nat
  filesWritten : Nat
  deriving DecidableEq, Repr, Inhabited

/-- What a run did. -/
structure RunReport where
  passes : List PassSummary
  additions : List Addition
  /-- How many source files the last pass could not read. -/
  parseFailures : Nat
  deriving Repr, Inhabited

/-- What a run leaves behind. -/
structure RunOutcome where
  disk : Disk
  diagnostics : List Diagnostic
  result : Except ProjectFault RunReport
  deriving Inhabited

namespace Options

/-- Interfaces have to come from somewhere: from source files, or from packages of a
classpath. -/
def hasInterfaceSource (o : Options) : Bool :=
  o.interfacesDir.isSome || (!o.packages.isEmpty && !o.classpath.isEmpty)

/-- How many passes may be made from a snapshot on. -/
def passLimit (o : Options) (s : Snapshot) (catalog : Catalog) : Nat :=
  o.maxPasses.getD (s.targets.length * catalog.size + 1)

end Options

/-! ## One pass -/

/-- What a pass leaves behind. -/
structure PassOutcome where
  disk : Disk
  additions : List Addition
  result : Except ProjectFault PassSummary
  deriving Inhabited

namespace Snapshot

/-- The files of the snapshot, those of the project with the interfaces that their classes
get, and a record of each interface. -/
def retrofitted? (s : Snapshot) (catalog : Catalog) (number : Nat) :
    Option (List SourceFile × List Addition) := do
  let results ← s.files.zipIdx.mapM fun (f, position) =>
    if s.project.contains position then Retrofit.file? s.store catalog number f else some (f, [])
  return (results.map (·.1), results.flatMap (·.2))

/-- Saves files after a pass that added some interfaces to them. -/
def saved (s : Snapshot) (catalog : Catalog) (number : Nat) (disk : Disk)
    (files : List SourceFile) (additions : List Addition) : PassOutcome :=
  let summary (filesWritten : Nat) : PassSummary :=
    { pass := number, classes := s.targets.length, interfaces := catalog.size
      additions := additions.length, filesWritten }
  if additions.isEmpty then ⟨disk, [], .ok (summary 0)⟩
  else
    match disk.save files with
    | (disk, .error fault) => ⟨disk, additions, .error (.source fault)⟩
    | (disk, .ok (_, written)) => ⟨disk, additions, .ok (summary written)⟩

/-- Adds interfaces to the classes of the project and saves the files. -/
def pass? (s : Snapshot) (catalog : Catalog) (number : Nat) (disk : Disk) : Option PassOutcome := do
  let (files, additions) ← s.retrofitted? catalog number
  return s.saved catalog number disk files additions

end Snapshot

/-! ## All passes -/

namespace RunOutcome

/-- An outcome after a pass that came before. -/
def after (diagnostics : List Diagnostic) (summary : PassSummary) (additions : List Addition)
    (o : RunOutcome) : RunOutcome where
  disk := o.disk
  diagnostics := diagnostics ++ o.diagnostics
  result := o.result.map fun report =>
    { report with
      passes := summary :: report.passes
      additions := additions ++ report.additions }

end RunOutcome

namespace Options

/-- The passes from a given one on, from its snapshot to the end of the run. -/
def passesFrom? (o : Options) (number : Nat) (disk : Disk) (s : Snapshot) : Option RunOutcome :=
  let catalog := s.catalog o.packages
  if o.passLimit s catalog < number then
    some ⟨disk, s.diagnostics, .error (.noConvergence (number - 1))⟩
  else do
    let p ← s.pass? catalog number disk
    let told := s.diagnostics ++ p.additions.map Addition.diagnostic
    match p.result with
    | .error fault => return ⟨p.disk, told, .error fault⟩
    | .ok summary =>
      if p.additions.isEmpty then return ⟨p.disk, told, .ok ⟨[summary], [], s.failures.length⟩⟩
      else
        match Snapshot.load p.disk o with
        | .error fault => return ⟨p.disk, told, .error fault⟩
        | .ok next => do
          let rest ← o |>.passesFrom? (number + 1) p.disk next
          return rest.after told summary p.additions
partial_fixpoint

/-- Adds interfaces to the classes of a project until nothing is left to add. -/
def run? (o : Options) (disk : Disk) : Option RunOutcome :=
  if !o.hasInterfaceSource then some ⟨disk, [], .error .noInterfaceSource⟩
  else
    match Snapshot.load disk o with
    | .error fault => some ⟨disk, [], .error fault⟩
    | .ok s => o.passesFrom? 1 disk s

/-- What comes of a run. It is of no meaning for a run that never ends. -/
def run (o : Options) (disk : Disk) : RunOutcome := (o.run? disk).getD default

/-- The interfaces that the classes of a project are compared with, and what there is to tell
about its files. -/
def catalog (o : Options) (disk : Disk) : List Diagnostic × Except ProjectFault Catalog :=
  if !o.hasInterfaceSource then ([], .error .noInterfaceSource)
  else
    match Snapshot.load disk o with
    | .error fault => ([], .error fault)
    | .ok s => (s.diagnostics, .ok (s.catalog o.packages))

end Options

end Conformance
