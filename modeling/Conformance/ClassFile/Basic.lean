import Conformance.ClassFile.Access
import Conformance.ClassFile.ConstantPool

/-!
# Class files

What a class file says about the interface of its class: names, flags, descriptors and
generic signatures. Code, constants and annotations are attributes whose length is stated,
so they are stepped over and only the `Signature` attribute is kept.

`parse` reads a whole file. Every field is read in the order in which it is stored, and a
name is looked up as soon as its index has been read, which settles which of two faults is
reported.
-/

namespace Conformance

namespace ClassFile

/-- A field or a method. -/
structure Member where
  access : AccessFlags
  name : String
  descriptor : String
  signature : Option String
  deriving DecidableEq, Repr, Inhabited

end ClassFile

/-- What a class file declares. Names are in internal form: slashes between packages, a
dollar sign before a nested class. -/
structure ClassFile where
  minorVersion : UInt16
  majorVersion : UInt16
  access : ClassFile.AccessFlags
  thisClass : String
  superClass : Option String
  interfaces : List String
  fields : List ClassFile.Member
  methods : List ClassFile.Member
  signature : Option String
  deriving DecidableEq, Repr, Inhabited

namespace ClassFile

/-- The number every class file begins with. -/
def magic : UInt32 := 0xCAFEBABE

/-- The name of the attribute that holds a generic signature. -/
def signatureAttribute : String := "Signature"

/-- An answer of the constant pool, as a step that reads nothing. -/
def lookup {α : Type} (answer : Except Fault α) : Reader α :=
  match answer with
  | .ok value => pure value
  | .error fault => throw fault

/-- The text that the two bytes of a `Signature` attribute point at. -/
def signatureOf (pool : ConstantPool) (info : List UInt8) : Except Fault String :=
  Reader.run (do
    let text ← lookup (pool.text (← Reader.u2))
    Reader.finish
    return text) info

/-- An attribute: the generic signature it holds, if it holds one. -/
def readAttribute (pool : ConstantPool) : Reader (Option String) := do
  let nameIndex ← Reader.u2
  let size ← Reader.u4
  let info ← Reader.bytes size.toNat
  let name ← lookup (pool.text nameIndex)
  if name = signatureAttribute then
    return some (← lookup (signatureOf pool info))
  else
    return none

/-- An attribute table: the last generic signature in it. -/
def readSignature (pool : ConstantPool) : Reader (Option String) := do
  let count ← Reader.u2
  let found ← Reader.times count.toNat (readAttribute pool)
  return (found.filterMap id).getLast?

def readMember (pool : ConstantPool) : Reader Member := do
  let access ← Reader.u2
  let name ← lookup (pool.text (← Reader.u2))
  let descriptor ← lookup (pool.text (← Reader.u2))
  let signature ← readSignature pool
  return { access, name, descriptor, signature }

def readMembers (pool : ConstantPool) : Reader (List Member) := do
  let count ← Reader.u2
  Reader.times count.toNat (readMember pool)

/-- The name of a class, read as its index. -/
def readClassName (pool : ConstantPool) : Reader String := do
  lookup (pool.className (← Reader.u2))

/-- The name of the superclass; index zero says that there is none. -/
def readSuperClass (pool : ConstantPool) : Reader (Option String) := do
  let index ← Reader.u2
  if index = 0 then
    return none
  else
    return some (← lookup (pool.className index))

def readHeader : Reader Unit := do
  let found ← Reader.u4
  if found ≠ magic then
    throw (.badMagic found.toNat)

/-- A class file from its first byte to its last. -/
def read : Reader ClassFile := do
  readHeader
  let minorVersion ← Reader.u2
  let majorVersion ← Reader.u2
  let pool ← ConstantPool.read
  let access ← Reader.u2
  let thisClass ← readClassName pool
  let superClass ← readSuperClass pool
  let interfaceCount ← Reader.u2
  let interfaces ← Reader.times interfaceCount.toNat (readClassName pool)
  let fields ← readMembers pool
  let methods ← readMembers pool
  let signature ← readSignature pool
  Reader.finish
  return {
    minorVersion, majorVersion, access, thisClass, superClass, interfaces, fields, methods,
    signature }

/-- The class file that a sequence of bytes spells. -/
def parse (bytes : List UInt8) : Except Fault ClassFile := read.run bytes

def isInterface (file : ClassFile) : Bool := AccessFlags.isInterface file.access

def isAnnotationType (file : ClassFile) : Bool := AccessFlags.isAnnotationType file.access

/-- The part of a text before the last `sep`, if `sep` occurs. -/
def beforeLast? (sep : Char) (text : List Char) : Option (List Char) :=
  match text.reverse.dropWhile (· ≠ sep) with
  | [] => none
  | _ :: before => some before.reverse

/-- The package of the class, with dots; empty for a class outside any package. -/
def packageName (file : ClassFile) : String :=
  match beforeLast? '/' file.thisClass.toList with
  | some before => String.ofList (before.map fun c => if c = '/' then '.' else c)
  | none => ""

end ClassFile

end Conformance
