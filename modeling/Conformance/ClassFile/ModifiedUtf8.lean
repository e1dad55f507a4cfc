/-!
# Modified UTF-8

Strings in a constant pool are written as UTF-16 units, each unit in one to three bytes:
zero takes two bytes, so that no byte is ever zero, and a character outside the basic
plane is a surrogate pair of two three-byte groups. Reading therefore has two steps, bytes
to units and units to characters; writing has the same two in the other order.
-/

namespace Conformance.ClassFile.ModifiedUtf8

/-- The six low bits of a continuation byte. -/
def continuation? (b : UInt8) : Option Nat :=
  if b.toNat / 64 = 2 then some (b.toNat % 64) else none

/-- The UTF-16 units spelled by groups of one, two or three bytes. -/
def units? : List UInt8 → Option (List Nat)
  | [] => some []
  | a :: rest =>
    if a.toNat < 0x80 then
      if a.toNat = 0 then none else (units? rest).map (a.toNat :: ·)
    else if a.toNat / 32 = 6 then
      match rest with
      | b :: rest => do
        let low ← continuation? b
        let others ← units? rest
        return ((a.toNat % 32) * 64 + low) :: others
      | [] => none
    else if a.toNat / 16 = 14 then
      match rest with
      | b :: c :: rest => do
        let mid ← continuation? b
        let low ← continuation? c
        let others ← units? rest
        return (((a.toNat % 16) * 64 + mid) * 64 + low) :: others
      | _ => none
    else none

/-- Whether a unit is the first half of a surrogate pair. -/
def isHighSurrogate (u : Nat) : Bool := 0xD800 ≤ u && u < 0xDC00

/-- Whether a unit is the second half of a surrogate pair. -/
def isLowSurrogate (u : Nat) : Bool := 0xDC00 ≤ u && u < 0xE000

/-- The characters spelled by UTF-16 units; a surrogate outside a pair spells none. -/
def chars? : List Nat → Option (List Char)
  | [] => some []
  | u :: rest =>
    if isHighSurrogate u then
      match rest with
      | v :: rest =>
        if isLowSurrogate v then
          (chars? rest).map (Char.ofNat (0x10000 + (u - 0xD800) * 0x400 + (v - 0xDC00)) :: ·)
        else none
      | [] => none
    else if isLowSurrogate u then none
    else (chars? rest).map (Char.ofNat u :: ·)

/-- The text that the bytes of a constant pool string spell. -/
def decode (bytes : List UInt8) : Option String := do
  let units ← units? bytes
  let chars ← chars? units
  return String.ofList chars

/-- The UTF-16 units of a character: one, or a surrogate pair. -/
def unitsOfChar (c : Char) : List Nat :=
  if c.toNat < 0x10000 then [c.toNat]
  else [0xD800 + (c.toNat - 0x10000) / 0x400, 0xDC00 + (c.toNat - 0x10000) % 0x400]

/-- The bytes of one UTF-16 unit. -/
def bytesOfUnit (u : Nat) : List UInt8 :=
  if u ≠ 0 ∧ u < 0x80 then [UInt8.ofNat u]
  else if u < 0x800 then [UInt8.ofNat (0xC0 + u / 64), UInt8.ofNat (0x80 + u % 64)]
  else
    [UInt8.ofNat (0xE0 + u / 0x1000), UInt8.ofNat (0x80 + u / 64 % 64),
      UInt8.ofNat (0x80 + u % 64)]

/-- The bytes that spell a text in a constant pool. -/
def encode (text : String) : List UInt8 :=
  text.toList.flatMap fun c => (unitsOfChar c).flatMap bytesOfUnit

end Conformance.ClassFile.ModifiedUtf8
