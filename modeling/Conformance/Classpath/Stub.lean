import Conformance.ClassFile.Basic
import Conformance.ClassFile.Descriptor
import Conformance.ClassFile.Signature
import Conformance.Store.Basic

/-!
# Stubs of compiled classes

A `ClassStub` keeps what a class file says about the types of a class, still in the spelling
of class files. `ClassStub.toClassDef` reads it: from the generic signature of the class and
of each method where there is one that can be read, and from the names and descriptors
without generics otherwise. Constructors and initializers are nobody's interface and are
left out, as is a method whose types cannot be read at all.
-/

namespace Conformance

open ClassFile

/-- A method of a compiled class. -/
structure MethodStub where
  name : String
  descriptor : String
  signature : Option String
  access : AccessFlags
  deriving DecidableEq, Repr, Inhabited

/-- A compiled class. -/
structure ClassStub where
  /-- The name with dots between packages and a dollar sign before a nested class. -/
  binaryName : String
  internalName : String
  access : AccessFlags
  superName : Option String
  interfaces : List String
  signature : Option String
  methods : List MethodStub
  deriving DecidableEq, Repr, Inhabited

/-! ## Names -/

/-- The canonical name of a class given by its internal name. -/
def canonicalName (internal : String) : String :=
  String.ofList (internal.toList.map fun c => if c = '/' || c = '$' then '.' else c)

/-- The binary name of a class given by its internal name. -/
def binaryName (internal : String) : String :=
  String.ofList (internal.toList.map fun c => if c = '/' then '.' else c)

namespace ClassStub

def isInterface (s : ClassStub) : Bool := AccessFlags.isInterface s.access

def isAnnotationType (s : ClassStub) : Bool := AccessFlags.isAnnotationType s.access

/-- The package of the class; empty for a class outside any package. -/
def package (s : ClassStub) : String :=
  match ClassFile.beforeLast? '.' s.binaryName.toList with
  | some before => String.ofList before
  | none => ""

/-- The stub of a class file. Methods that a compiler added are left out. -/
def ofClassFile (file : ClassFile) : ClassStub where
  binaryName := Conformance.binaryName file.thisClass
  internalName := file.thisClass
  access := file.access
  superName := file.superClass
  interfaces := file.interfaces
  signature := file.signature
  methods :=
    (file.methods.filter fun m => !AccessFlags.isSynthetic m.access).map fun m =>
      { name := m.name, descriptor := m.descriptor, signature := m.signature, access := m.access }

end ClassStub

/-! ## Types -/

namespace ClassFile

/-- The type that a descriptor spells. -/
def FieldType.toType : FieldType → JavaType
  | .base p => .primitive p
  | .object name => .raw (canonicalName name)
  | .array element => .array element.toType

mutual

/-- The type that a generic signature spells. -/
def TypeSignature.toType : TypeSignature → JavaType
  | .base p => .primitive p
  | .classType c => c.toType
  | .typeVar name => .typeVar name
  | .array element => .array element.toType

/-- The type of a class; only the arguments of the innermost class are kept. -/
def ClassTypeSignature.toType : ClassTypeSignature → JavaType
  | .mk package segments =>
    .classType (canonicalName (ClassTypeSignature.mk package segments).internalName)
      (lastArguments segments)

def lastArguments : List ClassSegment → List JavaType
  | [] => []
  | .mk _ arguments :: others =>
    if others.isEmpty then argumentTypes arguments else lastArguments others

def argumentTypes : List TypeArgument → List JavaType
  | [] => []
  | first :: others => first.toType :: argumentTypes others

def TypeArgument.toType : TypeArgument → JavaType
  | .any => .wildcard
  | .exact type => type.toType
  | .upTo type => .wildcardExtends type.toType
  | .downTo type => .wildcardSuper type.toType

end

/-- The type parameter that a signature declares, the bound that is a class first. -/
def TypeParameter.toTypeParam (p : TypeParameter) : TypeParam where
  name := p.name
  upperBounds := (p.classBound.toList ++ p.interfaceBounds).map TypeSignature.toType

end ClassFile

/-! ## Definitions -/

namespace MethodStub

/-- A method with the types of a generic signature. -/
def ofSignature (m : MethodStub) (s : MethodSignature) : MethodDef where
  name := m.name
  typeParams := s.typeParameters.map TypeParameter.toTypeParam
  params := s.parameters.map TypeSignature.toType
  returnType := (s.result.map TypeSignature.toType).getD .void
  isStatic := AccessFlags.isStatic m.access
  isPrivate := AccessFlags.isPrivate m.access
  isAbstract := AccessFlags.isAbstract m.access

/-- A method with the types of a descriptor. -/
def ofDescriptor (m : MethodStub) (d : MethodDescriptor) : MethodDef where
  name := m.name
  params := d.parameters.map FieldType.toType
  returnType := (d.result.map FieldType.toType).getD .void
  isStatic := AccessFlags.isStatic m.access
  isPrivate := AccessFlags.isPrivate m.access
  isAbstract := AccessFlags.isAbstract m.access

/-- The generic signature of the method, if it has one that can be read. -/
def signature? (m : MethodStub) : Option MethodSignature :=
  m.signature.bind fun text => (MethodSignature.parse text).toOption

/-- The method as a definition, if its types can be read. -/
def toMethodDef? (m : MethodStub) : Option MethodDef :=
  match m.signature? with
  | some s => some (m.ofSignature s)
  | none => ((MethodDescriptor.parse m.descriptor).toOption).map m.ofDescriptor

/-- Whether the method makes an instance or the class itself ready for use. -/
def isInitializer (m : MethodStub) : Bool := m.name = "<init>" || m.name = "<clinit>"

end MethodStub

namespace ClassStub

/-- The superclass of records. -/
def recordName : String := "java/lang/Record"

def kind (s : ClassStub) : ClassKind :=
  if s.isAnnotationType then .annotationType
  else if s.isInterface then .interface
  else if AccessFlags.isEnum s.access then .enum
  else if s.superName = some recordName then .record
  else .plainClass

/-- The generic signature of the class, if it has one that can be read. -/
def signature? (s : ClassStub) : Option ClassSignature :=
  s.signature.bind fun text => (ClassSignature.parse text).toOption

/-- The type parameters, the superclass and the interfaces of the class. -/
def header (s : ClassStub) : List TypeParam × Option JavaType × List JavaType :=
  match s.signature? with
  | some g =>
    (g.typeParameters.map TypeParameter.toTypeParam, some g.superClass.toType,
      g.interfaces.map ClassTypeSignature.toType)
  | none =>
    ([], s.superName.map fun name => .raw (canonicalName name),
      s.interfaces.map fun name => .raw (canonicalName name))

/-- The class as a definition. Interfaces have no superclass. -/
def toClassDef (s : ClassStub) : ClassDef :=
  let (typeParams, superClass, interfaces) := s.header
  { name := canonicalName s.internalName
    kind := s.kind
    typeParams
    superClass := if s.kind = .interface || s.kind = .annotationType then none else superClass
    interfaces
    methods := (s.methods.filter fun m => !m.isInitializer).filterMap MethodStub.toMethodDef? }

end ClassStub

end Conformance
