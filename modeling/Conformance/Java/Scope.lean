import Conformance.Java.SourceFile
import Conformance.Interface.Descriptor

/-!
# What names mean in a source file

A written name is looked up by its first part. The places where that part may be declared
are tried in order (`Scope.candidates`), and the first place counts under which the store
knows the whole name: a type nested in an enclosing one, a type of the file, an import, a
type of the package, an import on demand, and `java.lang`. Where none of them helps, a name
of several parts may be canonical already.

Going back, `Scope.shortestName` looks for the shortest ending of a canonical name that
means the same class. A name that is a type variable of the context never means a class.
-/

namespace Conformance.Java

/-- What names mean all through one file. -/
structure Scope where
  store : Store
  package : String
  imports : List Import
  /-- The names of the types that the file declares. -/
  topLevel : List String
  deriving Inhabited

/-- What is visible at a place in a file beyond the rest of it. -/
structure Context where
  typeVars : List String := []
  /-- The canonical names of the declarations around the place, the innermost first. -/
  enclosing : List String := []
  deriving DecidableEq, Repr, Inhabited

/-- The scope of a file. -/
def SourceFile.scope (f : SourceFile) (store : Store) : Scope where
  store := store
  package := f.packageName
  imports := f.imports
  topLevel := f.types.map (·.name)

namespace Scope

/-- The canonical name of something in the package of the file. -/
def qualify (s : Scope) (name : String) : String := SourceFile.qualifyIn s.package name

/-- The first part of a dotted name, and what follows it from the dot on. -/
def splitName (written : String) : String × String :=
  let chars := written.toList
  (String.ofList (chars.takeWhile (· ≠ '.')), String.ofList (chars.dropWhile (· ≠ '.')))

/-- The imports of a single name. -/
def singleImports (s : Scope) : List Import := s.imports.filter (!·.onDemand)

/-- The canonical names that the first part of a name may stand for, those tried first in
front. -/
def candidates (s : Scope) (c : Context) (first : String) : List String :=
  c.enclosing.map (· ++ "." ++ first)
    ++ (if s.topLevel.contains first then [s.qualify first] else [])
    ++ (s.singleImports.filter (Text.lastSegment ·.path = first)).map (·.path)
    ++ [s.qualify first]
    ++ (s.imports.filter (·.onDemand)).map (·.path ++ "." ++ first)
    ++ ["java.lang." ++ first]

/-- The canonical name of the class that a written name means. -/
def resolve? (s : Scope) (c : Context) (written : String) : Option String :=
  let (first, rest) := splitName written
  let full := (s.candidates c first).map (· ++ rest)
  (full ++ if rest.isEmpty then [] else [written]).find? s.store.contains

/-- Whether a text begins with a small letter of ASCII. -/
def startsSmall (text : String) : Bool := text.toList.head?.any Char.isLower

/-- The canonical name to give a class that the store does not know. -/
def guess (s : Scope) (written : String) : String :=
  let (first, rest) := splitName written
  match s.singleImports.find? (Text.lastSegment ·.path = first) with
  | some i => i.path ++ rest
  | none => if !rest.isEmpty && startsSmall first then written else s.qualify written

mutual

/-- The type that a written type means. -/
def typeOf (s : Scope) (c : Context) : WrittenType → JavaType
  | .void => .void
  | .primitive keyword => ((Primitive.ofKeyword? keyword).map .primitive).getD (.raw keyword)
  | .named name arguments =>
    if arguments.isEmpty && c.typeVars.contains name then .typeVar name
    else .classType ((s.resolve? c name).getD (s.guess name)) (typesOf s c arguments)
  | .array element => .array (typeOf s c element)
  | .wildcard => .wildcard
  | .wildcardExtends bound => .wildcardExtends (typeOf s c bound)
  | .wildcardSuper bound => .wildcardSuper (typeOf s c bound)
  | .unknown text => .raw text

/-- The types that written types mean. -/
def typesOf (s : Scope) (c : Context) : List WrittenType → List JavaType
  | [] => []
  | first :: others => typeOf s c first :: typesOf s c others

end

/-! ## Spelling -/

/-- The endings of a dotted name that leave out at least its first part, the shortest
first. -/
def endings (name : String) : List String :=
  let parts := Text.split '.' name
  (List.range (parts.length - 1)).map fun n =>
    ".".intercalate (parts.drop (parts.length - 1 - n))

/-- Whether a name of one part is taken for a type variable. -/
def isHidden (c : Context) (written : String) : Bool :=
  (splitName written).2.isEmpty && c.typeVars.contains written

/-- The shortest way to write the name of a class. -/
def shortestName (s : Scope) (c : Context) (name : String) : String :=
  ((endings name).find? fun written =>
    !isHidden c written && s.resolve? c written = some name).getD name

mutual

/-- The shortest way to write a type. -/
def spell (s : Scope) (c : Context) : JavaType → WrittenType
  | .void => .void
  | .primitive p => .primitive p.keyword
  | .classType name arguments => .named (s.shortestName c name) (spellAll s c arguments)
  | .array element => .array (spell s c element)
  | .typeVar name => .named name []
  | .wildcard => .wildcard
  | .wildcardExtends bound => .wildcardExtends (spell s c bound)
  | .wildcardSuper bound => .wildcardSuper (spell s c bound)

/-- The shortest way to write each of some types. -/
def spellAll (s : Scope) (c : Context) : List JavaType → List WrittenType
  | [] => []
  | first :: others => spell s c first :: spellAll s c others

end

/-! ## Interfaces that a declaration names -/

/-- Whether a written name is meant for an interface; one that means nothing counts if it
is the interface's simple name. -/
def meansInterface (s : Scope) (c : Context) (i : InterfaceDescriptor) (written : String) : Bool :=
  written = i.name || s.resolve? c written = some i.name
    || (written = i.simpleName && (s.resolve? c written).isNone)

/-- Whether the list of interfaces of a declaration names an interface. -/
def namesInterface (s : Scope) (c : Context) (d : Declaration) (i : InterfaceDescriptor) : Bool :=
  (d.interfaces.filterMap WrittenType.name?).any (s.meansInterface c i)

end Scope

end Conformance.Java
