import Conformance.ClassFile.Fault
import Conformance.Type.Primitive

/-!
# Descriptors

The types of a field or method without generics, as a class file spells them: a letter for
a primitive type, `L` and a class name up to the next semicolon, a bracket in front of each
array dimension. Reading and `render` are inverse, so a text spells at most one descriptor
and a descriptor has one spelling.
-/

namespace Conformance.ClassFile

inductive FieldType where
  | base (type : Primitive)
  | object (name : String)
  | array (element : FieldType)
  deriving DecidableEq, Repr, Inhabited

/-- The types a method takes and gives; it gives none if it is `void`. -/
structure MethodDescriptor where
  parameters : List FieldType
  result : Option FieldType
  deriving DecidableEq, Repr, Inhabited

namespace FieldType

/-- Splits a text at the first semicolon, which neither part keeps. -/
def splitSemicolon? : List Char → Option (List Char × List Char)
  | [] => none
  | ';' :: rest => some ([], rest)
  | c :: rest => (splitSemicolon? rest).map fun (name, rest) => (c :: name, rest)

/-- The type at the front of a text, and what follows it. -/
def take? : List Char → Option (FieldType × List Char)
  | [] => none
  | 'L' :: rest => (splitSemicolon? rest).map fun (name, rest) => (object (String.ofList name), rest)
  | '[' :: rest => (take? rest).map fun (element, rest) => (array element, rest)
  | c :: rest => (Primitive.ofLetter? c).map fun type => (base type, rest)

/-- The spelling of a type. -/
def render : FieldType → List Char
  | base type => [type.letter]
  | object name => 'L' :: name.toList ++ [';']
  | array element => '[' :: element.render

/-- The type that a text spells. -/
def parse (text : String) : Except Fault FieldType :=
  match take? text.toList with
  | some (type, []) => .ok type
  | _ => .error (.malformedDescriptor text)

end FieldType

namespace MethodDescriptor

/-- Types up to a closing parenthesis; `fuel` bounds their number. -/
def takeParameters? : Nat → List Char → Option (List FieldType × List Char)
  | _, ')' :: rest => some ([], rest)
  | 0, _ => none
  | fuel + 1, text => do
    let (first, rest) ← FieldType.take? text
    let (others, rest) ← takeParameters? fuel rest
    return (first :: others, rest)

/-- The type a method gives back. -/
def takeResult? : List Char → Option (Option FieldType × List Char)
  | 'V' :: rest => some (none, rest)
  | text => (FieldType.take? text).map fun (type, rest) => (some type, rest)

/-- The descriptor that a list of characters spells. -/
def ofChars? : List Char → Option MethodDescriptor
  | '(' :: text => do
    let (parameters, rest) ← takeParameters? text.length text
    let (result, rest) ← takeResult? rest
    if rest.isEmpty then some { parameters, result } else none
  | _ => none

/-- The spelling of a descriptor. -/
def render (d : MethodDescriptor) : List Char :=
  '(' :: d.parameters.flatMap FieldType.render ++ ')' :: (d.result.elim ['V'] FieldType.render)

/-- The descriptor that a text spells. -/
def parse (text : String) : Except Fault MethodDescriptor :=
  match ofChars? text.toList with
  | some descriptor => .ok descriptor
  | none => .error (.malformedDescriptor text)

end MethodDescriptor

end Conformance.ClassFile
