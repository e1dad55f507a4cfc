import Conformance.Interface.Catalog
import Conformance.Interface.Match
import Conformance.Interface.Redundancy
import Conformance.Java.Scope
import Conformance.Project.Diagnostic

/-!
# Adding interfaces to classes

A class gets every interface of a catalog that its methods conform to and that it does not
have already: from one of its supertypes, from an interface added before, or by name in its
header. The catalog lists the most demanding interfaces first, so that an interface is added
before those it stands for.

Only the classes at the top of a file get interfaces, and only if the store knows them.

A search that never ends does not let the rest have its turn, neither of the catalog nor of the
files. So there is nothing that comes of it.
-/

namespace Conformance

open Java

/-- An interface that was added to a class. -/
structure Addition where
  pass : Nat
  className : String
  /-- The path of the file that declares the class. -/
  path : String
  /-- The interface with its type arguments. -/
  type : JavaType
  /-- The interface as it is written into the file. -/
  clause : WrittenType
  deriving Repr, Inhabited

namespace Addition

/-- The name of the interface. -/
def interface (a : Addition) : String := a.type.className?.getD ""

/-- The type arguments of the interface. -/
def arguments (a : Addition) : List JavaType :=
  match a.type with
  | .classType _ arguments => arguments
  | _ => []

/-- What there is to tell about an addition. -/
def diagnostic (a : Addition) : Diagnostic where
  severity := .info
  code := "interface-added"
  message := a.className ++ " now implements " ++ a.type.text
  path := some a.path

end Addition

namespace Retrofit

/-- A class that is being compared with the interfaces of a catalog. -/
structure Candidate where
  store : Store
  scope : Scope
  /-- What is visible in the header of the class. -/
  context : Context
  name : String
  deriving Inhabited

/-- A declaration and the interfaces that were added to it. -/
structure Progress where
  declaration : Declaration
  added : List JavaType := []
  deriving Repr, Inhabited

namespace Candidate

/-- Whether the class has an interface already. -/
def has (c : Candidate) (p : Progress) (i : InterfaceDescriptor) : Bool :=
  c.store.isRedundant c.name i || c.store.isCovered i p.added
    || c.scope.namesInterface c.context p.declaration i

/-- Compares the class with one more interface, and adds it if there is reason to. -/
def step? (c : Candidate) (p : Progress) (i : InterfaceDescriptor) : Option Progress :=
  if i.name = c.name then some p
  else
    match c.store.search c.name i with
    | .endless => none
    | .failed => some p
    | .found b =>
      if c.has p i then some p
      else
        let type := i.parameterized b
        some ⟨p.declaration.addInterface (c.scope.spell c.context type), p.added ++ [type]⟩

/-- Compares the class with all interfaces of a catalog. -/
def compare? (c : Candidate) (catalog : Catalog) (d : Declaration) : Option Progress :=
  catalog.entries.foldlM c.step? ⟨d, []⟩

end Candidate

/-- The class that a declaration at the top of a file stands for, if it can get interfaces. -/
def candidate? (store : Store) (f : SourceFile) (d : Declaration) : Option Candidate :=
  let name := f.qualify d.name
  if d.kind = .plainClass && store.contains name then
    some {
      store, name
      scope := f.scope store
      context := { typeVars := d.typeParams.map (·.name) } }
  else none

/-- A declaration with the interfaces it gets, and a record of each. -/
def declaration? (store : Store) (catalog : Catalog) (pass : Nat) (f : SourceFile)
    (d : Declaration) : Option (Declaration × List Addition) :=
  match candidate? store f d with
  | none => some (d, [])
  | some c => do
    let p ← c.compare? catalog d
    return (p.declaration, p.added.map fun type =>
      { pass, className := c.name, path := f.path, type, clause := c.scope.spell c.context type })

/-- A file whose classes have the interfaces they get, and a record of each. -/
def file? (store : Store) (catalog : Catalog) (pass : Nat) (f : SourceFile) :
    Option (SourceFile × List Addition) := do
  let results ← f.types.mapM (declaration? store catalog pass f)
  return ({ f with types := results.map (·.1) }, results.flatMap (·.2))

/-- Files whose classes have the interfaces they get, and a record of each. -/
def files? (store : Store) (catalog : Catalog) (pass : Nat) (fs : List SourceFile) :
    Option (List SourceFile × List Addition) := do
  let results ← fs.mapM (file? store catalog pass)
  return (results.map (·.1), results.flatMap (·.2))

/-- What comes of files, and the files as they are if nothing does. -/
def files (store : Store) (catalog : Catalog) (pass : Nat) (fs : List SourceFile) :
    List SourceFile × List Addition :=
  (files? store catalog pass fs).getD (fs, [])

end Retrofit

end Conformance
