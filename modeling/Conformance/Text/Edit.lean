/-!
# Text edits

An edit replaces a range of a text by another text; an insertion replaces an empty range.
Offsets count bytes of UTF-8 and have to lie between characters. `applyAll` makes several
edits at once: every range refers to the text as it was, so the order in which edits are
listed does not matter. Ranges must not overlap, and two insertions at one place would leave
open which text comes first.

`normalize` sorts edits, refuses what cannot be applied and merges edits that touch.
-/

namespace Conformance

/-- Replaces the bytes from `start` up to `stop`. -/
structure TextEdit where
  start : Nat
  stop : Nat
  replacement : String
  deriving DecidableEq, Repr, Inhabited

/-- The bytes from `start` up to `stop`. -/
structure ByteRange where
  start : Nat
  stop : Nat
  deriving DecidableEq, Repr

/-- Why edits cannot be applied. -/
inductive EditFault where
  | outOfBounds (start stop size : Nat)
  | insideCharacter (offset : Nat)
  | overlapping (first second : ByteRange)
  deriving DecidableEq, Repr

/-- The spelling of a range. -/
def ByteRange.text (r : ByteRange) : String := s!"{r.start}..{r.stop}"

namespace TextEdit

/-- An insertion. -/
def insert (offset : Nat) (text : String) : TextEdit := ⟨offset, offset, text⟩

/-- What an edit replaces. -/
def range (e : TextEdit) : ByteRange := ⟨e.start, e.stop⟩

/-- Whether an edit may come before another one in a sorted list. -/
def startsBefore (a b : TextEdit) : Bool :=
  a.start < b.start || (a.start = b.start && a.stop ≤ b.stop)

/-- Whether two edits, the first of which starts before the second, get in each other's
way. -/
def overlaps (a b : TextEdit) : Bool :=
  b.start < a.stop || (a.start = a.stop && b.start = b.stop && a.start = b.start)

end TextEdit

/-- What a report says about edits that cannot be applied. -/
def EditFault.message : EditFault → String
  | outOfBounds start stop size =>
    s!"edit range {start}..{stop} is out of bounds for text length {size}"
  | insideCharacter offset => s!"offset {offset} is not a UTF-8 character boundary"
  | overlapping first second =>
    "overlapping edits: " ++ first.text ++ " overlaps " ++ second.text

namespace Text

/-- How many bytes of UTF-8 a text takes. -/
def byteSize (text : List Char) : Nat := text.foldr (fun c size => c.utf8Size + size) 0

/-- Splits a text after a number of bytes, if that is between two characters. -/
def splitBytes? : Nat → List Char → Option (List Char × List Char)
  | 0, rest => some ([], rest)
  | _ + 1, [] => none
  | n + 1, c :: rest =>
    if c.utf8Size ≤ n + 1 then
      (splitBytes? (n + 1 - c.utf8Size) rest).map fun (taken, left) => (c :: taken, left)
    else none

/-- Whether an offset lies between two characters, or at either end. -/
def isBoundary (text : List Char) (offset : Nat) : Bool := (splitBytes? offset text).isSome

/-- What follows a number of bytes. -/
def dropBytes (n : Nat) (text : List Char) : List Char :=
  ((splitBytes? n text).map Prod.snd).getD []

/-- The first so many bytes. -/
def takeBytes (n : Nat) (text : List Char) : List Char :=
  ((splitBytes? n text).map Prod.fst).getD text

end Text

namespace TextEdit

open Text

/-- Whether the range of an edit is a range of the text. -/
def check (text : List Char) (e : TextEdit) : Except EditFault Unit :=
  if e.stop < e.start ∨ byteSize text < e.stop then
    .error (.outOfBounds e.start e.stop (byteSize text))
  else if !isBoundary text e.start then .error (.insideCharacter e.start)
  else if !isBoundary text e.stop then .error (.insideCharacter e.stop)
  else .ok ()

/-- Refuses edits that overlap, looking at neighbours in a sorted list. -/
def checkNeighbours : List TextEdit → Except EditFault Unit
  | a :: b :: others =>
    if a.overlaps b then .error (.overlapping a.range b.range) else checkNeighbours (b :: others)
  | _ => .ok ()

/-- Merges an edit with those after it that touch. -/
def mergeOnto (last : TextEdit) : List TextEdit → List TextEdit
  | [] => [last]
  | e :: others =>
    if last.stop = e.start then
      mergeOnto ⟨last.start, e.stop, last.replacement ++ e.replacement⟩ others
    else last :: mergeOnto e others

/-- Merges edits that touch in a sorted list. -/
def merge : List TextEdit → List TextEdit
  | [] => []
  | e :: others => mergeOnto e others

/-- The edits in order, none of them touching another. -/
def normalize (text : String) (edits : List TextEdit) : Except EditFault (List TextEdit) := do
  let sorted := edits.mergeSort startsBefore
  sorted.forM (check text.toList)
  checkNeighbours sorted
  return merge sorted

/-- Makes edits that are in order and apart from each other; `position` is the offset at
which the text begins. -/
def splice (position : Nat) (text : List Char) : List TextEdit → List Char
  | [] => text
  | e :: others =>
    let rest := dropBytes (e.start - position) text
    takeBytes (e.start - position) text ++ e.replacement.toList
      ++ splice e.stop (dropBytes (e.stop - e.start) rest) others

/-- The text with all edits made. -/
def applyAll (text : String) (edits : List TextEdit) : Except EditFault String := do
  let edits ← normalize text edits
  return String.ofList (splice 0 text.toList edits)

end TextEdit

end Conformance
