/-!
# Primitive types

The eight primitive types of Java, with the three notations that mention them: the
keyword of a source file, the letter of a class-file descriptor, and the wrapper class a
value is boxed into. `widensTo` is the widening conversion between them; it is not
reflexive, so that "the same or wider" is written out where it is meant.
-/

namespace Conformance

inductive Primitive where
  | boolean | byte | short | char | int | long | float | double
  deriving DecidableEq, Repr, Inhabited

namespace Primitive

/-- Every primitive type, the narrow before the wide. -/
def all : List Primitive := [boolean, byte, short, char, int, long, float, double]

/-- The keyword that names the type in a source file. -/
def keyword : Primitive → String
  | boolean => "boolean"
  | byte => "byte"
  | short => "short"
  | char => "char"
  | int => "int"
  | long => "long"
  | float => "float"
  | double => "double"

/-- The primitive type with a given keyword. -/
def ofKeyword? (word : String) : Option Primitive := all.find? (·.keyword = word)

/-- The wrapper class a value of the type is boxed into. -/
def wrapper : Primitive → String
  | boolean => "java.lang.Boolean"
  | byte => "java.lang.Byte"
  | short => "java.lang.Short"
  | char => "java.lang.Character"
  | int => "java.lang.Integer"
  | long => "java.lang.Long"
  | float => "java.lang.Float"
  | double => "java.lang.Double"

/-- The primitive type that values of a wrapper class unbox to. -/
def ofWrapper? (className : String) : Option Primitive := all.find? (·.wrapper = className)

/-- The letter that stands for the type in a class-file descriptor. -/
def letter : Primitive → Char
  | boolean => 'Z'
  | byte => 'B'
  | short => 'S'
  | char => 'C'
  | int => 'I'
  | long => 'J'
  | float => 'F'
  | double => 'D'

/-- The primitive type a descriptor letter stands for. -/
def ofLetter? : Char → Option Primitive
  | 'Z' => some boolean
  | 'B' => some byte
  | 'S' => some short
  | 'C' => some char
  | 'I' => some int
  | 'J' => some long
  | 'F' => some float
  | 'D' => some double
  | _ => none

/-- Widening conversion: a value of the first type also serves as a value of the second. -/
def widensTo : Primitive → Primitive → Bool
  | byte, short | byte, int | byte, long | byte, float | byte, double => true
  | short, int | short, long | short, float | short, double => true
  | char, int | char, long | char, float | char, double => true
  | int, long | int, float | int, double => true
  | long, float | long, double => true
  | float, double => true
  | _, _ => false

theorem ofLetter?_letter (p : Primitive) : ofLetter? p.letter = some p := by cases p <;> rfl

theorem ofLetter?_eq_some {c : Char} {p : Primitive} : ofLetter? c = some p ↔ c = p.letter := by
  constructor
  · intro h
    unfold ofLetter? at h
    split at h <;> cases h <;> rfl
  · rintro rfl
    exact ofLetter?_letter p

theorem ofKeyword?_keyword (p : Primitive) : ofKeyword? p.keyword = some p := by
  cases p <;> decide

theorem ofWrapper?_wrapper (p : Primitive) : ofWrapper? p.wrapper = some p := by
  cases p <;> decide

end Primitive

end Conformance
