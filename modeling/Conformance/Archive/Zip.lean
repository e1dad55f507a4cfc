import Conformance.Archive.Inflate

/-!
# Archives

An archive ends with a record that says where its directory is; the directory lists the
members with the places of their data. Members are read in the order of the directory. Data
is kept as it is or deflated, with a checksum over what it stands for.
-/

namespace Conformance

/-- What is found of the data of a member. -/
inductive MemberData where
  /-- The member cannot be opened: none begins at its place, or it is encrypted, or kept in an
  unknown form. -/
  | closed
  /-- The member can be opened, and what is kept of it does not give the data its checksum is of. -/
  | damaged
  | intact (bytes : List UInt8)
  deriving DecidableEq, Repr, Inhabited

/-- A file or folder in an archive. -/
structure Member where
  name : String
  data : MemberData
  deriving DecidableEq, Repr, Inhabited

namespace Member

/-- Whether a member can be opened. -/
def opens (m : Member) : Bool := m.data ≠ .closed

/-- The data of a member, if it can be read. -/
def data? (m : Member) : Option (List UInt8) :=
  match m.data with
  | .intact bytes => some bytes
  | _ => none

/-- Folders are listed under names that end in a slash. -/
def isFolder (m : Member) : Bool := m.name.toList.getLast? = some '/'

end Member

namespace Archive

/-- The bytes from one place on, if there are that many. -/
def bytesAt? (archive : ByteArray) (start size : Nat) : Option (List UInt8) :=
  if start + size ≤ archive.size then some (archive.extract start (start + size)).toList else none

/-- The number that some bytes spell, the least significant byte first. -/
def numberOf (bytes : List UInt8) : Nat := bytes.foldr (fun byte value => byte.toNat + 256 * value) 0

/-- The number at a place. -/
def numberAt? (archive : ByteArray) (start size : Nat) : Option Nat :=
  (bytesAt? archive start size).map numberOf

/-- One step of the checksum: eight divisions by the polynomial. -/
def checksumStep (state : UInt32) (byte : UInt8) : UInt32 :=
  (List.range 8).foldl
    (fun state _ => if state &&& 1 = 1 then (state >>> 1) ^^^ 0xEDB88320 else state >>> 1)
    (state ^^^ byte.toUInt32)

/-- The checksum of some data. -/
def checksum (data : List UInt8) : UInt32 := data.foldl checksumStep 0xFFFFFFFF ^^^ 0xFFFFFFFF

/-! ## The directory -/

/-- The numbers that the records of an archive begin with. -/
def endMark : Nat := 0x06054B50
def entryMark : Nat := 0x02014B50
def localMark : Nat := 0x04034B50

/-- How many bytes the last record takes up without its comment. -/
def endSize : Nat := 22

/-- The last place in an archive where its last record may begin; `tries` bounds how far in
front of the latest possible place the search goes. -/
def findEnd? (archive : ByteArray) : Nat → Option Nat
  | 0 => none
  | tries + 1 =>
    let start := archive.size - endSize - (0x10000 - (tries + 1))
    if numberAt? archive start 4 = some endMark then some start else findEnd? archive tries

/-- The place behind the record in front of a member's data, if a member begins where the
directory says. -/
def dataPlace? (archive : ByteArray) (start : Nat) : Option Nat := do
  if (← numberAt? archive start 4) ≠ localMark then none
  let nameSize ← numberAt? archive (start + 26) 2
  let extraSize ← numberAt? archive (start + 28) 2
  return start + 30 + nameSize + extraSize

/-- How data is restored from what is kept of it, for the known methods. -/
def restore? : Nat → Option (List UInt8 → Option (List UInt8))
  | 0 => some some
  | 8 => some Inflate.inflate?
  | _ => none

/-- The data of a member that the directory describes. What is kept of it may end early with the
archive; that shows when it is restored. -/
def readData (archive : ByteArray) (encrypted : Bool) (method crc size start : Nat) : MemberData :=
  match encrypted, restore? method, dataPlace? archive start with
  | false, some restore, some place =>
    match restore (archive.extract place (place + size)).toList with
    | some data => if (checksum data).toNat = crc then .intact data else .damaged
    | none => .damaged
  | _, _, _ => .closed

/-- So many entries of the directory from a place on. -/
def entries? (archive : ByteArray) : Nat → Nat → Option (List Member)
  | 0, _ => some []
  | n + 1, start => do
    if (← numberAt? archive start 4) ≠ entryMark then none
    let flags ← numberAt? archive (start + 8) 2
    let method ← numberAt? archive (start + 10) 2
    let crc ← numberAt? archive (start + 16) 4
    let size ← numberAt? archive (start + 20) 4
    let nameSize ← numberAt? archive (start + 28) 2
    let extraSize ← numberAt? archive (start + 30) 2
    let commentSize ← numberAt? archive (start + 32) 2
    let place ← numberAt? archive (start + 42) 4
    let name ← String.fromUTF8? (← bytesAt? archive (start + 46) nameSize).toByteArray
    let others ← entries? archive n (start + 46 + nameSize + extraSize + commentSize)
    return { name, data := readData archive (flags % 2 = 1) method crc size place } :: others

/-- The members of the archive that some bytes are, if they are one. -/
def members? (bytes : List UInt8) : Option (List Member) := do
  let archive := bytes.toByteArray
  if archive.size < endSize then none
  let last ← findEnd? archive 0x10000
  let count ← numberAt? archive (last + 10) 2
  let start ← numberAt? archive (last + 16) 4
  entries? archive count start

end Archive

end Conformance
