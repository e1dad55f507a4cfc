/-!
# Deflated data

The compression that archives use for their members. Data is a sequence of blocks of bits,
the least significant bit of each byte first. A block holds bytes as they are, or symbols of
a prefix code: bytes, the end of the block, or the length of a piece that occurred before,
followed by how far back it is. A prefix code is given by the lengths of its words alone.
-/

namespace Conformance.Inflate

/-- A prefix code as a tree whose branches are bits. -/
inductive Code where
  | empty
  | symbol (value : Nat)
  | branch (zero one : Code)
  deriving Repr, Inhabited

namespace Code

/-- The code with one more word. -/
def insert (value : Nat) : List Bool → Code → Code
  | [], _ => symbol value
  | bit :: word, code =>
    let (zero, one) :=
      match code with
      | branch zero one => (zero, one)
      | _ => (empty, empty)
    if bit then branch zero (insert value word one) else branch (insert value word zero) one

/-- The symbol whose word is at the front of some bits, and what follows it. -/
def decode? : Code → List Bool → Option (Nat × List Bool)
  | symbol value, bits => some (value, bits)
  | branch zero one, bit :: bits => if bit then one.decode? bits else zero.decode? bits
  | _, _ => none

end Code

/-- The lowest digits of a number in base two, the most significant first. -/
def word : Nat → Nat → List Bool
  | 0, _ => []
  | n + 1, value => word n (value / 2) ++ [value % 2 == 1]

/-- The longest word of a prefix code. -/
def maxWord : Nat := 15

/-- The symbols of a given word length, in order. -/
def symbolsOf (lengths : List Nat) (length : Nat) : List Nat :=
  (lengths.zipIdx.filter (·.1 = length)).map (·.2)

/-- The code in which symbols have words of given lengths: shorter words come first, words of
one length in the order of their symbols. Length zero leaves a symbol out. -/
def Code.ofLengths (lengths : List Nat) : Code :=
  let step (state : Nat × Code) (length : Nat) : Nat × Code :=
    let (next, code) :=
      (symbolsOf lengths length).foldl
        (fun (next, code) value => (next + 1, Code.insert value (word length next) code)) state
    (next * 2, code)
  ((List.range' 1 maxWord).foldl step (0, .empty)).2

/-- A number of so many bits, the least significant first, and what follows it. -/
def number? : Nat → List Bool → Option (Nat × List Bool)
  | 0, bits => some (0, bits)
  | _ + 1, [] => none
  | n + 1, bit :: bits =>
    (number? n bits).map fun (value, rest) => (2 * value + bit.toNat, rest)

/-- Lengths of pieces, by symbol from 257 on: the shortest, and how many bits are added. -/
def lengthTable : List (Nat × Nat) :=
  [(3, 0), (4, 0), (5, 0), (6, 0), (7, 0), (8, 0), (9, 0), (10, 0), (11, 1), (13, 1), (15, 1),
    (17, 1), (19, 2), (23, 2), (27, 2), (31, 2), (35, 3), (43, 3), (51, 3), (59, 3), (67, 4),
    (83, 4), (99, 4), (115, 4), (131, 5), (163, 5), (195, 5), (227, 5), (258, 0)]

/-- Distances of pieces, by symbol: the smallest, and how many bits are added. -/
def distanceTable : List (Nat × Nat) :=
  [(1, 0), (2, 0), (3, 0), (4, 0), (5, 1), (7, 1), (9, 2), (13, 2), (17, 3), (25, 3), (33, 4),
    (49, 4), (65, 5), (97, 5), (129, 6), (193, 6), (257, 7), (385, 7), (513, 8), (769, 8),
    (1025, 9), (1537, 9), (2049, 10), (3073, 10), (4097, 11), (6145, 11), (8193, 12), (12289, 12),
    (16385, 13), (24577, 13)]

/-- A number that a table gives for a symbol together with the bits that follow. -/
def tabled? (table : List (Nat × Nat)) (symbol : Nat) (bits : List Bool) :
    Option (Nat × List Bool) := do
  let (least, extra) ← table[symbol]?
  let (added, bits) ← number? extra bits
  return (least + added, bits)

/-- Appends a piece of a given length that begins so far back; it may overlap itself. -/
def copy? (distance : Nat) : Nat → Array UInt8 → Option (Array UInt8)
  | 0, out => some out
  | n + 1, out =>
    if distance = 0 ∨ out.size < distance then none
    else (out[out.size - distance]?).bind fun byte => copy? distance n (out.push byte)

/-- The symbols of a block up to its end; `fuel` bounds their number. -/
def symbols? (literals distances : Code) :
    Nat → List Bool → Array UInt8 → Option (Array UInt8 × List Bool)
  | 0, _, _ => none
  | fuel + 1, bits, out => do
    let (symbol, bits) ← literals.decode? bits
    if symbol < 256 then symbols? literals distances fuel bits (out.push (UInt8.ofNat symbol))
    else if symbol = 256 then return (out, bits)
    else
      let (length, bits) ← tabled? lengthTable (symbol - 257) bits
      let (symbol, bits) ← distances.decode? bits
      let (distance, bits) ← tabled? distanceTable symbol bits
      symbols? literals distances fuel bits (← copy? distance length out)

/-- Bytes as they are. -/
def stored? : Nat → List Bool → Array UInt8 → Option (Array UInt8 × List Bool)
  | 0, bits, out => some (out, bits)
  | n + 1, bits, out => do
    let (byte, bits) ← number? 8 bits
    stored? n bits (out.push (UInt8.ofNat byte))

/-- The code for literals and lengths that needs no description. -/
def fixedLiterals : Code :=
  .ofLengths (List.replicate 144 8 ++ List.replicate 112 9 ++ List.replicate 24 7
    ++ List.replicate 8 8)

/-- The code for distances that needs no description. -/
def fixedDistances : Code := .ofLengths (List.replicate 30 5)

/-- The order in which the lengths of the code for lengths are listed. -/
def lengthOrder : List Nat :=
  [16, 17, 18, 0, 8, 7, 9, 6, 10, 5, 11, 4, 12, 3, 13, 2, 14, 1, 15]

/-- Numbers of three bits each. -/
def triples? : Nat → List Bool → Option (List Nat × List Bool)
  | 0, bits => some ([], bits)
  | n + 1, bits => do
    let (first, bits) ← number? 3 bits
    let (others, bits) ← triples? n bits
    return (first :: others, bits)

/-- Word lengths up to a given number of them, written in a code for lengths that can repeat
the last one or zero; `fuel` bounds the number of symbols. -/
def wordLengths? (code : Code) (total : Nat) :
    Nat → List Nat → List Bool → Option (List Nat × List Bool)
  | 0, _, _ => none
  | fuel + 1, lengths, bits =>
    if total < lengths.length then none
    else if lengths.length = total then some (lengths, bits)
    else do
      let (symbol, bits) ← code.decode? bits
      if symbol < 16 then wordLengths? code total fuel (lengths ++ [symbol]) bits
      else
        let (value, least, extra) ←
          match symbol with
          | 16 => lengths.getLast?.map fun last => (last, 3, 2)
          | 17 => some (0, 3, 3)
          | _ => some (0, 11, 7)
        let (added, bits) ← number? extra bits
        wordLengths? code total fuel (lengths ++ List.replicate (least + added) value) bits

/-- The two codes that a block describes. -/
def codes? (bits : List Bool) : Option (Code × Code × List Bool) := do
  let (literals, bits) ← number? 5 bits
  let (distances, bits) ← number? 5 bits
  let (listed, bits) ← number? 4 bits
  let (triples, bits) ← triples? (listed + 4) bits
  let given := lengthOrder.zip triples
  let code := Code.ofLengths ((List.range 19).map fun symbol => (given.lookup symbol).getD 0)
  let total := literals + 257 + (distances + 1)
  let (lengths, bits) ← wordLengths? code total (total + 1) [] bits
  return (.ofLengths (lengths.take (literals + 257)), .ofLengths (lengths.drop (literals + 257)),
    bits)

/-- The blocks up to the last one; `fuel` bounds their number. Stored bytes begin with the
next whole byte of the data. -/
def blocks? : Nat → List Bool → Array UInt8 → Option (Array UInt8)
  | 0, _, _ => none
  | fuel + 1, bits, out => do
    let (isLast, bits) ← number? 1 bits
    let (kind, bits) ← number? 2 bits
    let (out, bits) ←
      match kind with
      | 0 => do
        let bits := bits.drop (bits.length % 8)
        let (size, bits) ← number? 16 bits
        let (complement, bits) ← number? 16 bits
        if size + complement = 0xFFFF then stored? size bits out else none
      | 1 => symbols? fixedLiterals fixedDistances (bits.length + 1) bits out
      | 2 => do
        let (literals, distances, bits) ← codes? bits
        symbols? literals distances (bits.length + 1) bits out
      | _ => none
    if isLast = 1 then return out else blocks? fuel bits out

/-- The bits of a byte, the least significant first. -/
def bitsOf (byte : UInt8) : List Bool := (word 8 byte.toNat).reverse

/-- The data that some bytes are the compressed form of. -/
def inflate? (bytes : List UInt8) : Option (List UInt8) :=
  let bits := bytes.flatMap bitsOf
  (blocks? (bits.length + 1) bits #[]).map Array.toList

end Conformance.Inflate
