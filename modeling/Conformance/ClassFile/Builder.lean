import Conformance.ClassFile.Basic

/-!
# Writing class files

A `Builder` describes a class without code: flags, names, methods and generic signatures.
`Builder.toBytes` lays it out as a class file. Names are entered in the constant pool in the
order in which the file mentions them, each text and each class once. Counts and lengths
are written in two bytes and wrap around where they do not fit.
-/

namespace Conformance.ClassFile

/-- A method to be written. -/
structure MethodSpec where
  access : AccessFlags
  name : String
  descriptor : String
  signature : Option String
  deriving DecidableEq, Repr, Inhabited

/-- A class to be written. -/
structure Builder where
  access : AccessFlags
  thisClass : String
  superClass : Option String := some "java/lang/Object"
  interfaces : List String := []
  signature : Option String := none
  methods : List MethodSpec := []
  deriving DecidableEq, Repr, Inhabited

/-- A constant pool that grows: its entries so far, each with its number. -/
structure PoolBuilder where
  bytes : List UInt8 := []
  count : UInt16 := 0
  texts : List (String × UInt16) := []
  classes : List (String × UInt16) := []
  deriving Inhabited

namespace PoolBuilder

/-- The number of a text, entered if it is new. -/
def text (value : String) : StateM PoolBuilder UInt16 := fun pool =>
  match pool.texts.lookup value with
  | some index => (index, pool)
  | none =>
    let bytes := value.toUTF8.toList
    let index := pool.count + 1
    (index, { pool with
      bytes := pool.bytes ++ (1 :: bytesOfU2 (UInt16.ofNat bytes.length) ++ bytes)
      count := index
      texts := (value, index) :: pool.texts })

/-- The number of a class, entered if it is new. -/
def classRef (name : String) : StateM PoolBuilder UInt16 := fun pool =>
  match pool.classes.lookup name with
  | some index => (index, pool)
  | none =>
    let (nameIndex, pool) := text name pool
    let index := pool.count + 1
    (index, { pool with
      bytes := pool.bytes ++ (7 :: bytesOfU2 nameIndex)
      count := index
      classes := (name, index) :: pool.classes })

/-- The number of a text that need not be there. -/
def text? : Option String → StateM PoolBuilder (Option UInt16)
  | some value => return some (← text value)
  | none => return none

end PoolBuilder

/-- The numbers under which the names of a method were entered. -/
structure MethodIndices where
  access : AccessFlags
  name : UInt16
  descriptor : UInt16
  signature : Option UInt16

def MethodSpec.enter (method : MethodSpec) : StateM PoolBuilder MethodIndices := do
  let name ← PoolBuilder.text method.name
  let descriptor ← PoolBuilder.text method.descriptor
  let signature ← PoolBuilder.text? method.signature
  return { access := method.access, name, descriptor, signature }

def MethodSpec.abstract (name descriptor : String) (signature : Option String) : MethodSpec :=
  { access := AccessFlags.publicBit ||| AccessFlags.abstractBit, name, descriptor, signature }

namespace Builder

/-- An interface without members. -/
def interface (thisClass : String) : Builder :=
  { access := AccessFlags.publicBit ||| AccessFlags.interfaceBit ||| AccessFlags.abstractBit
    thisClass }

/-- A public class without members. -/
def ofClass (thisClass : String) : Builder := { access := AccessFlags.publicBit, thisClass }

/-- An attribute table with a generic signature in it, or an empty one; `label` is the number
of the attribute's name. -/
def signatureTable (label signature : Option UInt16) : List UInt8 :=
  match label, signature with
  | some label, some signature =>
    bytesOfU2 1 ++ bytesOfU2 label ++ bytesOfU4 2 ++ bytesOfU2 signature
  | _, _ => bytesOfU2 0

def methodBytes (label : Option UInt16) (method : MethodIndices) : List UInt8 :=
  bytesOfU2 method.access ++ bytesOfU2 method.name ++ bytesOfU2 method.descriptor
    ++ signatureTable label method.signature

/-- Whether anything in the class has a generic signature. -/
def hasSignature (builder : Builder) : Bool :=
  builder.signature.isSome || builder.methods.any (·.signature.isSome)

/-- What follows the constant pool, with the names entered on the way. -/
def body (builder : Builder) : StateM PoolBuilder (List UInt8) := do
  let thisClass ← PoolBuilder.classRef builder.thisClass
  let superClass ← match builder.superClass with
    | some name => PoolBuilder.classRef name
    | none => pure 0
  let interfaces ← builder.interfaces.mapM PoolBuilder.classRef
  let label ← PoolBuilder.text?
    (if builder.hasSignature then some signatureAttribute else none)
  let signature ← PoolBuilder.text? builder.signature
  let methods ← builder.methods.mapM MethodSpec.enter
  return bytesOfU2 builder.access ++ bytesOfU2 thisClass ++ bytesOfU2 superClass
    ++ bytesOfU2 (UInt16.ofNat interfaces.length) ++ interfaces.flatMap bytesOfU2
    ++ bytesOfU2 0
    ++ bytesOfU2 (UInt16.ofNat methods.length) ++ methods.flatMap (methodBytes label)
    ++ signatureTable label signature

/-- The bytes of the class file. -/
def toBytes (builder : Builder) : List UInt8 :=
  let (body, pool) := builder.body.run {}
  bytesOfU4 magic ++ bytesOfU2 0 ++ bytesOfU2 52 ++ bytesOfU2 (pool.count + 1)
    ++ pool.bytes ++ body

end Builder

end Conformance.ClassFile
