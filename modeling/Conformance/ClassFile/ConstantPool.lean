import Conformance.ClassFile.ModifiedUtf8
import Conformance.ClassFile.Reader

/-!
# The constant pool

A class file keeps its strings and the names of classes and members in a numbered table.
Numbering starts at one, and a `long` or `double` takes two numbers of which only the first
is usable. The table is kept as a list of slots, one for each number, so that an index is a
position: slot zero and the second slot of a wide constant are empty.
-/

namespace Conformance.ClassFile

/-- One entry of the table, with what it holds. -/
inductive Constant where
  | utf8 (text : String)
  | integer (bits : UInt32)
  | float (bits : UInt32)
  | long (high low : UInt32)
  | double (high low : UInt32)
  | classRef (name : UInt16)
  | string (text : UInt16)
  | fieldRef (owner member : UInt16)
  | methodRef (owner member : UInt16)
  | interfaceMethodRef (owner member : UInt16)
  | nameAndType (name descriptor : UInt16)
  | methodHandle (kind : UInt8) (member : UInt16)
  | methodType (descriptor : UInt16)
  | dynamic (bootstrap member : UInt16)
  | invokeDynamic (bootstrap member : UInt16)
  | moduleRef (name : UInt16)
  | packageRef (name : UInt16)
  deriving DecidableEq, Repr, Inhabited

namespace Constant

/-- The sort of entry that a report names. -/
def kind : Constant → ConstantKind
  | utf8 _ => .utf8
  | integer _ => .integer
  | float _ => .float
  | long _ _ => .long
  | double _ _ => .double
  | classRef _ => .classRef
  | string _ => .string
  | fieldRef _ _ | methodRef _ _ | interfaceMethodRef _ _ | nameAndType _ _ | dynamic _ _
  | invokeDynamic _ _ => .memberRef
  | methodHandle _ _ => .methodHandle
  | methodType _ | moduleRef _ | packageRef _ => .named

/-- Whether the constant takes two numbers. -/
def isWide : Constant → Bool
  | long _ _ | double _ _ => true
  | _ => false

/-- The slots of a constant: itself, and an empty one after a wide constant. -/
def slots (c : Constant) : List (Option Constant) :=
  if c.isWide then [some c, none] else [some c]

/-- A string: its length in bytes, then its bytes. -/
def readUtf8 : Reader Constant := do
  let size ← Reader.u2
  let bytes ← Reader.bytes size.toNat
  match ModifiedUtf8.decode bytes with
  | some text => return utf8 text
  | none => throw .modifiedUtf8

/-- What follows a tag. -/
def readPayload (tag : UInt8) : Reader Constant :=
  match tag with
  | 1 => readUtf8
  | 3 => return integer (← Reader.u4)
  | 4 => return float (← Reader.u4)
  | 5 => do
    match ← Reader.bytes 8 with
    | [a, b, c, d, e, f, g, h] => return long (u4OfBytes a b c d) (u4OfBytes e f g h)
    | _ => Reader.truncated
  | 6 => do
    match ← Reader.bytes 8 with
    | [a, b, c, d, e, f, g, h] => return double (u4OfBytes a b c d) (u4OfBytes e f g h)
    | _ => Reader.truncated
  | 7 => return classRef (← Reader.u2)
  | 8 => return string (← Reader.u2)
  | 9 => pair fieldRef
  | 10 => pair methodRef
  | 11 => pair interfaceMethodRef
  | 12 => pair nameAndType
  | 15 => do
    let kind ← Reader.u1
    return methodHandle kind (← Reader.u2)
  | 16 => return methodType (← Reader.u2)
  | 17 => pair dynamic
  | 18 => pair invokeDynamic
  | 19 => return moduleRef (← Reader.u2)
  | 20 => return packageRef (← Reader.u2)
  | _ => throw (.unknownTag tag)
where
  pair (make : UInt16 → UInt16 → Constant) : Reader Constant := do
    let first ← Reader.u2
    return make first (← Reader.u2)

/-- A constant: its tag, then what the tag calls for. -/
def read : Reader Constant := do readPayload (← Reader.u1)

/-- The bytes of a constant. -/
def encode : Constant → List UInt8
  | utf8 text =>
    let bytes := ModifiedUtf8.encode text
    1 :: bytesOfU2 (UInt16.ofNat bytes.length) ++ bytes
  | integer bits => 3 :: bytesOfU4 bits
  | float bits => 4 :: bytesOfU4 bits
  | long high low => 5 :: bytesOfU4 high ++ bytesOfU4 low
  | double high low => 6 :: bytesOfU4 high ++ bytesOfU4 low
  | classRef name => 7 :: bytesOfU2 name
  | string text => 8 :: bytesOfU2 text
  | fieldRef owner member => 9 :: bytesOfU2 owner ++ bytesOfU2 member
  | methodRef owner member => 10 :: bytesOfU2 owner ++ bytesOfU2 member
  | interfaceMethodRef owner member => 11 :: bytesOfU2 owner ++ bytesOfU2 member
  | nameAndType name descriptor => 12 :: bytesOfU2 name ++ bytesOfU2 descriptor
  | methodHandle kind member => 15 :: kind :: bytesOfU2 member
  | methodType descriptor => 16 :: bytesOfU2 descriptor
  | dynamic bootstrap member => 17 :: bytesOfU2 bootstrap ++ bytesOfU2 member
  | invokeDynamic bootstrap member => 18 :: bytesOfU2 bootstrap ++ bytesOfU2 member
  | moduleRef name => 19 :: bytesOfU2 name
  | packageRef name => 20 :: bytesOfU2 name

end Constant

/-- The table of a class file: what each number holds, from number zero on. -/
structure ConstantPool where
  slots : Array (Option Constant)
  deriving Inhabited

namespace ConstantPool

/-- The table that numbers constants from one on. -/
def ofConstants (constants : List Constant) : ConstantPool :=
  ⟨(none :: constants.flatMap Constant.slots).toArray⟩

/-- Constants until `count` numbers are taken. A wide constant that begins at the last
number still counts as one constant. -/
def readSlots : Nat → Reader (List (Option Constant))
  | 0 => pure []
  | 1 => return (← Constant.read).slots
  | count + 2 => do
    let first ← Constant.read
    if first.isWide then
      return first.slots ++ (← readSlots count)
    else
      return first.slots ++ (← readSlots (count + 1))

/-- The table: one more than the last number, then the constants. -/
def read : Reader ConstantPool := do
  let count ← Reader.u2
  let slots ← readSlots (count.toNat - 1)
  return ⟨(none :: slots).toArray⟩

/-- The constant with a given number. -/
def get (pool : ConstantPool) (index : UInt16) : Except Fault Constant :=
  match pool.slots[index.toNat]? with
  | some (some constant) => .ok constant
  | _ => .error (.noEntry index)

/-- The text of the string with a given number. -/
def text (pool : ConstantPool) (index : UInt16) : Except Fault String :=
  match pool.get index with
  | .ok (.utf8 text) => .ok text
  | .ok other => .error (.wrongKind index .utf8 other.kind)
  | .error fault => .error fault

/-- The name of the class with a given number. -/
def className (pool : ConstantPool) (index : UInt16) : Except Fault String :=
  match pool.get index with
  | .ok (.classRef name) => pool.text name
  | .ok other => .error (.wrongKind index .classRef other.kind)
  | .error fault => .error fault

end ConstantPool

end Conformance.ClassFile
