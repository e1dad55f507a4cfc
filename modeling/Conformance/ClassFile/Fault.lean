/-!
# Why a class file is refused

Each way in which a class file, a descriptor or a generic signature can be malformed, and
the one sentence that reports it. Readers fail with a `Fault`; `Fault.message` is the only
place where wording is decided.
-/

namespace Conformance.ClassFile

/-- What sort of entry a constant pool slot holds, as far as a report tells them apart. -/
inductive ConstantKind where
  | unusable | utf8 | classRef | integer | float | long | double | string
  | memberRef | methodHandle | named
  deriving DecidableEq, Repr, Inhabited

/-- The word a report uses for a kind of entry. -/
def ConstantKind.label : ConstantKind → String
  | unusable => "unusable"
  | utf8 => "Utf8"
  | classRef => "Class"
  | integer => "Integer"
  | float => "Float"
  | long => "Long"
  | double => "Double"
  | string => "String"
  | memberRef => "Ref"
  | methodHandle => "MethodHandle"
  | named => "Named"

inductive Fault where
  /-- The input, `size` bytes long, ends before the value that is being read. -/
  | truncated (size : Nat)
  /-- Bytes are left over after the last attribute. -/
  | trailing (count : Nat)
  | badMagic (magic : Nat)
  | unknownTag (tag : UInt8)
  /-- An index that points at no entry: zero, past the end, or the second half of a wide one. -/
  | noEntry (index : UInt16)
  | wrongKind (index : UInt16) (expected found : ConstantKind)
  | modifiedUtf8
  | malformedDescriptor (text : String)
  | malformedSignature (text : String)
  deriving DecidableEq, Repr, Inhabited

/-- The digits of a number in base sixteen, at least eight of them. -/
def hexWord (n : Nat) : String :=
  let digits := Nat.toDigits 16 n
  String.ofList (List.replicate (8 - digits.length) '0' ++ digits)

/-- What a report says about a fault. -/
def Fault.message : Fault → String
  | truncated size => s!"classfile truncated after {size} bytes"
  | trailing count => s!"{count} unread bytes after the class attributes"
  | badMagic magic => "not a classfile: magic is 0x" ++ hexWord magic
  | unknownTag tag => s!"unknown constant pool tag {tag.toNat}"
  | noEntry index => s!"constant pool entry #{index.toNat}: no usable entry"
  | wrongKind index expected found =>
    s!"constant pool entry #{index.toNat}: expected {expected.label}, found {found.label}"
  | modifiedUtf8 => "constant pool string is not modified UTF-8"
  | malformedDescriptor text => "malformed descriptor `" ++ text ++ "`"
  | malformedSignature text => "malformed generic signature `" ++ text ++ "`"

end Conformance.ClassFile
