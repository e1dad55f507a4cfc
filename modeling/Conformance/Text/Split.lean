/-!
# Taking texts apart at a separator

A text falls into one more part than it has separators; the parts may be empty.
-/

namespace Conformance.Text

/-- The parts of a list between occurrences of a separator: one more than it occurs. -/
def splitOnChar (sep : Char) : List Char → List (List Char)
  | [] => [[]]
  | c :: rest =>
    if c = sep then [] :: splitOnChar sep rest
    else
      match splitOnChar sep rest with
      | [] => [[c]]
      | part :: parts => (c :: part) :: parts

/-- The parts of a text between occurrences of a separator. -/
def split (sep : Char) (text : String) : List String :=
  (splitOnChar sep text.toList).map String.ofList

/-- The part of a text after the last occurrence of a separator. -/
def lastPart (sep : Char) (text : String) : String :=
  String.ofList (text.toList.reverse.takeWhile (· ≠ sep)).reverse

/-- The part of a dotted name after the last dot. -/
def lastSegment (name : String) : String := lastPart '.' name

end Conformance.Text
