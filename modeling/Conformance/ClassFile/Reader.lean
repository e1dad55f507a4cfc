import Conformance.ClassFile.Fault

/-!
# Reading big-endian bytes

A `Reader` takes a value off the front of a list of bytes and hands back the rest. It also
knows how long the whole input is, because a report of truncated input names that length
and not the place where the bytes ran out. Every value of a class file has a width that is
known before it is read, so a reader never looks past what it takes.
-/

namespace Conformance.ClassFile

/-- Takes a value off the front of an input whose total length is known. -/
abbrev Reader := ReaderT Nat (StateT (List UInt8) (Except Fault))

/-- The first `n` elements and what follows them, if there are that many. -/
def splitExact {α : Type} : Nat → List α → Option (List α × List α)
  | 0, rest => some ([], rest)
  | _ + 1, [] => none
  | n + 1, a :: rest => (splitExact n rest).map fun (taken, left) => (a :: taken, left)

/-- The number that two bytes spell, the more significant first. -/
def u2OfBytes (hi lo : UInt8) : UInt16 := UInt16.ofNat (hi.toNat * 256 + lo.toNat)

/-- The number that four bytes spell, the more significant first. -/
def u4OfBytes (a b c d : UInt8) : UInt32 :=
  UInt32.ofNat (((a.toNat * 256 + b.toNat) * 256 + c.toNat) * 256 + d.toNat)

/-- Two bytes, the more significant first. -/
def bytesOfU2 (n : UInt16) : List UInt8 :=
  [UInt8.ofNat (n.toNat / 256), UInt8.ofNat n.toNat]

/-- Four bytes, the more significant first. -/
def bytesOfU4 (n : UInt32) : List UInt8 :=
  [UInt8.ofNat (n.toNat / 0x1000000), UInt8.ofNat (n.toNat / 0x10000),
    UInt8.ofNat (n.toNat / 256), UInt8.ofNat n.toNat]

namespace Reader

/-- Fails because the input has ended. -/
def truncated {α : Type} : Reader α := fun size _ => .error (.truncated size)

def u1 : Reader UInt8 := fun size input =>
  match input with
  | a :: rest => .ok (a, rest)
  | [] => truncated size input

def u2 : Reader UInt16 := fun size input =>
  match input with
  | a :: b :: rest => .ok (u2OfBytes a b, rest)
  | _ => truncated size input

def u4 : Reader UInt32 := fun size input =>
  match input with
  | a :: b :: c :: d :: rest => .ok (u4OfBytes a b c d, rest)
  | _ => truncated size input

/-- Exactly `count` bytes. -/
def bytes (count : Nat) : Reader (List UInt8) := fun size input =>
  match splitExact count input with
  | some (taken, rest) => .ok (taken, rest)
  | none => truncated size input

/-- Fails if any bytes are left. -/
def finish : Reader Unit := fun _ input =>
  if input.isEmpty then .ok ((), input) else .error (.trailing input.length)

/-- The values of `count` runs, one after the other. -/
def times {α : Type} (count : Nat) (item : Reader α) : Reader (List α) :=
  match count with
  | 0 => pure []
  | n + 1 => do
    let first ← item
    let others ← times n item
    return first :: others

/-- Reads the whole of an input. -/
def run {α : Type} (reader : Reader α) (input : List UInt8) : Except Fault α :=
  match reader input.length input with
  | .ok (value, _) => .ok value
  | .error fault => .error fault

end Reader

end Conformance.ClassFile
