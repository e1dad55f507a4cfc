import Conformance.Java.Scope

/-!
# The definitions that source files give

A declaration becomes a `ClassDef` once the names in it are resolved, which needs a store
that knows every class they may mean. So all declared names are stored first, each with an
empty definition (`placeholders`), the definitions are then worked out against that store,
and take the place of the empty ones.

The types nested in a declaration and in those around it are in scope in its header and in
its methods, and so are its own type parameters, but not those of the types around it.
-/

namespace Conformance.Java

/-- The type parameters of a header as the scope sees them. -/
def Scope.typeParams (s : Scope) (c : Context) (params : List WrittenTypeParam) :
    List TypeParam :=
  params.map fun p => { name := p.name, upperBounds := s.typesOf c p.bounds }

/-- The definition of a method; its own type parameters are in scope in all of it. -/
def WrittenMethod.define (s : Scope) (c : Context) (m : WrittenMethod) : MethodDef :=
  let c := { c with typeVars := c.typeVars ++ m.typeParams.map (·.name) }
  { name := m.name
    typeParams := s.typeParams c m.typeParams
    params := s.typesOf c m.params
    returnType := s.typeOf c m.returnType
    isStatic := m.isStatic
    isPrivate := m.isPrivate
    isAbstract := m.isAbstract }

/-- The name of a member type of a class. -/
def memberName (outer : String) (name : String) : String := outer ++ "." ++ name

/-- The superclass of a declaration. Enums and records have one of their own, interfaces
none. -/
def superTypeOf (s : Scope) (c : Context) (name : String) (kind : ClassKind)
    (written : Option WrittenType) : Option JavaType :=
  match kind with
  | .plainClass => some ((written.map (s.typeOf c)).getD .object)
  | .enum => some (.classType "java.lang.Enum" [.raw name])
  | .record => some (.raw "java.lang.Record")
  | .interface | .annotationType => none

namespace Declaration

mutual

/-- Empty definitions of a declaration and of the types nested in it. -/
def placeholders (name : String) : Declaration → List ClassDef
  | { kind, members, .. } => { name, kind } :: memberPlaceholders name members

def memberPlaceholders (outer : String) : List Declaration → List ClassDef
  | [] => []
  | d :: others => d.placeholders (memberName outer d.name) ++ memberPlaceholders outer others

end

/-- What is in scope in a declaration; `enclosing` are the names of it and of the types
around it. -/
def context (enclosing : List String) (typeParams : List WrittenTypeParam) : Context where
  typeVars := typeParams.map (·.name)
  enclosing := enclosing

mutual

/-- The definitions of a declaration of a given name and of the types nested in it; `around`
are the names of the types around it. -/
def definitions (s : Scope) (name : String) (around : List String) :
    Declaration → List ClassDef
  | { kind, typeParams, superclass, declared, added, methods, members, .. } =>
    let c := context (name :: around) typeParams
    { name
      kind
      typeParams := s.typeParams c typeParams
      superClass := superTypeOf s c name kind superclass
      interfaces := s.typesOf c (declared ++ added)
      methods := methods.map (·.define s c) } :: memberDefinitions s name around members

def memberDefinitions (s : Scope) (outer : String) (around : List String) :
    List Declaration → List ClassDef
  | [] => []
  | d :: others =>
    d.definitions s (memberName outer d.name) (outer :: around)
      ++ memberDefinitions s outer around others

end

end Declaration

namespace SourceFile

/-- Empty definitions of all types that a file declares. -/
def placeholders (f : SourceFile) : List ClassDef :=
  f.types.flatMap fun d => d.placeholders (f.qualify d.name)

/-- The definitions of all types that a file declares, for a store that knows their names. -/
def definitions (f : SourceFile) (store : Store) : List ClassDef :=
  f.types.flatMap fun d => d.definitions (f.scope store) (f.qualify d.name) []

end SourceFile

end Conformance.Java

namespace Conformance

open Java

/-- A store with the definitions that source files give. They take the place of definitions
of the same names, and among the files the later ones count. -/
def Store.withSources (store : Store) (files : List SourceFile) : Store :=
  let known := store.insertAll (files.flatMap SourceFile.placeholders)
  known.insertAll (files.flatMap (·.definitions known))

end Conformance
