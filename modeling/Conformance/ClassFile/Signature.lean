import Conformance.ClassFile.Fault
import Conformance.Text.Split
import Conformance.Type.Primitive

/-!
# Generic signatures

The types of a class or method with their type parameters and type arguments, as the
`Signature` attribute spells them. A class type is written outermost class first: a package,
then one segment for each class down to the one that is meant, each with type arguments of
its own.

Every piece has a printer and a reader that takes the piece off the front of a text. Types
nest, so the readers are written over a reader for the types one level down, and
`takeReference?` ties the knot with a bound on the depth: a text never nests deeper than
it is long.
-/

namespace Conformance.ClassFile

mutual

inductive TypeSignature where
  | base (type : Primitive)
  | classType (type : ClassTypeSignature)
  | typeVar (name : String)
  | array (element : TypeSignature)

/-- A class by its package and the classes on the way down to it. -/
inductive ClassTypeSignature where
  | mk (package : List String) (segments : List ClassSegment)

/-- One class on the way, with the type arguments given to it. -/
inductive ClassSegment where
  | mk (name : String) (arguments : List TypeArgument)

inductive TypeArgument where
  | any
  | exact (type : TypeSignature)
  | upTo (type : TypeSignature)
  | downTo (type : TypeSignature)

end

instance : Inhabited TypeSignature := ⟨.typeVar ""⟩
instance : Inhabited ClassTypeSignature := ⟨.mk [] []⟩
instance : Inhabited ClassSegment := ⟨.mk "" []⟩
instance : Inhabited TypeArgument := ⟨.any⟩

namespace ClassSegment

def name : ClassSegment → String
  | mk name _ => name

def arguments : ClassSegment → List TypeArgument
  | mk _ arguments => arguments

end ClassSegment

namespace ClassTypeSignature

def package : ClassTypeSignature → List String
  | mk package _ => package

def segments : ClassTypeSignature → List ClassSegment
  | mk _ segments => segments

/-- The class in internal form: slashes after packages, dollar signs between classes. -/
def internalName (type : ClassTypeSignature) : String :=
  String.join (type.package.map (· ++ "/"))
    ++ "$".intercalate (type.segments.map ClassSegment.name)

end ClassTypeSignature

/-- A type parameter with its bounds. The bound that is a class may be left out. -/
structure TypeParameter where
  name : String
  classBound : Option TypeSignature
  interfaceBounds : List TypeSignature
  deriving Inhabited

structure ClassSignature where
  typeParameters : List TypeParameter
  superClass : ClassTypeSignature
  interfaces : List ClassTypeSignature
  deriving Inhabited

/-- The signature of a method; it has no result if it is `void`. -/
structure MethodSignature where
  typeParameters : List TypeParameter
  parameters : List TypeSignature
  result : Option TypeSignature
  throws : List TypeSignature
  deriving Inhabited

/-! ## Printing -/

/-- The package and name of the first segment, with slashes between the parts. -/
def qualifiedName (package : List String) (name : String) : List Char :=
  package.flatMap (fun part => part.toList ++ ['/']) ++ name.toList

mutual

def TypeSignature.render : TypeSignature → List Char
  | .base type => [type.letter]
  | .classType type => type.render
  | .typeVar name => 'T' :: name.toList ++ [';']
  | .array element => '[' :: element.render

def ClassTypeSignature.render : ClassTypeSignature → List Char
  | .mk package [] => 'L' :: qualifiedName package "" ++ [';']
  | .mk package (.mk name arguments :: inner) =>
    'L' :: qualifiedName package name ++ renderArguments arguments ++ renderSegments inner
      ++ [';']

/-- The segments after the first one, each behind a dot. -/
def renderSegments : List ClassSegment → List Char
  | [] => []
  | .mk name arguments :: others =>
    '.' :: name.toList ++ renderArguments arguments ++ renderSegments others

/-- The type arguments in angle brackets, or nothing if there are none. -/
def renderArguments : List TypeArgument → List Char
  | [] => []
  | first :: others => '<' :: first.render ++ renderEach others ++ ['>']

def renderEach : List TypeArgument → List Char
  | [] => []
  | first :: others => first.render ++ renderEach others

def TypeArgument.render : TypeArgument → List Char
  | .any => ['*']
  | .exact type => type.render
  | .upTo type => '+' :: type.render
  | .downTo type => '-' :: type.render

end

def TypeParameter.render (p : TypeParameter) : List Char :=
  p.name.toList ++ ':' :: p.classBound.elim [] TypeSignature.render
    ++ p.interfaceBounds.flatMap fun bound => ':' :: bound.render

/-- Type parameters in angle brackets, or nothing if there are none. -/
def renderTypeParameters : List TypeParameter → List Char
  | [] => []
  | parameters => '<' :: parameters.flatMap TypeParameter.render ++ ['>']

def ClassSignature.render (s : ClassSignature) : List Char :=
  renderTypeParameters s.typeParameters ++ s.superClass.render
    ++ s.interfaces.flatMap ClassTypeSignature.render

def MethodSignature.render (s : MethodSignature) : List Char :=
  renderTypeParameters s.typeParameters ++ '(' :: s.parameters.flatMap TypeSignature.render
    ++ ')' :: s.result.elim ['V'] TypeSignature.render
    ++ s.throws.flatMap fun type => '^' :: type.render

/-! ## Reading -/

/-- The text up to the first terminator, which must not come at once. -/
def takeIdentifier? (terminators : List Char) (text : List Char) : Option (String × List Char) :=
  match text.span (fun c => !terminators.contains c) with
  | ([], _) => none
  | (name, rest) => some (String.ofList name, rest)

/-- What follows a character that has to come next. -/
def takeChar? (c : Char) : List Char → Option (List Char)
  | [] => none
  | d :: rest => if d = c then some rest else none

/-- A qualified name as its package and the name after the last slash. -/
def splitQualified (name : String) : List String × String :=
  let parts := Text.split '/' name
  (parts.dropLast, parts.getLastD "")

/-- Repeats a step that takes an item off a text, until the text begins with `close`, which
is taken too; `fuel` bounds the number of items. -/
def takeUntil? {α : Type} (close : Char) (item : List Char → Option (α × List Char)) :
    Nat → List Char → Option (List α × List Char)
  | fuel, text =>
    match takeChar? close text with
    | some rest => some ([], rest)
    | none =>
      match fuel with
      | 0 => none
      | fuel + 1 => do
        let (first, rest) ← item text
        let (others, rest) ← takeUntil? close item fuel rest
        return (first :: others, rest)

/-- Repeats a step that takes an item off a text, as long as the text begins with `lead`,
which is taken first; `fuel` bounds the number of items. -/
def takeWhileLed? {α : Type} (lead : Char) (item : List Char → Option (α × List Char)) :
    Nat → List Char → Option (List α × List Char)
  | fuel, text =>
    match takeChar? lead text with
    | none => some ([], text)
    | some rest =>
      match fuel with
      | 0 => none
      | fuel + 1 => do
        let (first, rest) ← item rest
        let (others, rest) ← takeWhileLed? lead item fuel rest
        return (first :: others, rest)

/-- A list in angle brackets, or no list at all. -/
def takeBracketed? {α : Type} (item : List Char → Option (α × List Char)) (text : List Char) :
    Option (List α × List Char) :=
  match takeChar? '<' text with
  | none => some ([], text)
  | some rest => takeUntil? '>' item rest.length rest

/-- Where a class name ends inside a signature. -/
def classNameEnd : List Char := ['<', ';', '.']

section Nesting

variable (reference : List Char → Option (TypeSignature × List Char))

/-- A type of any sort, when `reference` takes those that are not primitive. -/
def takeType? (text : List Char) : Option (TypeSignature × List Char) :=
  match text.head?.bind Primitive.ofLetter? with
  | some type => some (.base type, text.tail)
  | none => reference text

def takeArgument? : List Char → Option (TypeArgument × List Char)
  | '*' :: rest => some (.any, rest)
  | '+' :: rest => (reference rest).map fun (type, rest) => (.upTo type, rest)
  | '-' :: rest => (reference rest).map fun (type, rest) => (.downTo type, rest)
  | text => (reference text).map fun (type, rest) => (.exact type, rest)

/-- A segment after the first. -/
def takeSegment? (text : List Char) : Option (ClassSegment × List Char) := do
  let (name, rest) ← takeIdentifier? classNameEnd text
  let (arguments, rest) ← takeBracketed? (takeArgument? reference) rest
  return (.mk name arguments, rest)

/-- A class type: `L`, the segments, a semicolon. -/
def takeClassType? (text : List Char) : Option (ClassTypeSignature × List Char) := do
  let rest ← takeChar? 'L' text
  let (qualified, rest) ← takeIdentifier? classNameEnd rest
  let (arguments, rest) ← takeBracketed? (takeArgument? reference) rest
  let (inner, rest) ← takeWhileLed? '.' (takeSegment? reference) rest.length rest
  let rest ← takeChar? ';' rest
  let (package, name) := splitQualified qualified
  return (.mk package (.mk name arguments :: inner), rest)

/-- A type variable: its name and a semicolon. -/
def takeVariable? (text : List Char) : Option (TypeSignature × List Char) := do
  let (name, rest) ← takeIdentifier? [';'] text
  let rest ← takeChar? ';' rest
  return (.typeVar name, rest)

/-- A type that is not primitive, when `reference` takes those nested in it. -/
def takeReferenceOver? : List Char → Option (TypeSignature × List Char)
  | 'L' :: rest =>
    (takeClassType? reference ('L' :: rest)).map fun (type, rest) => (.classType type, rest)
  | 'T' :: rest => takeVariable? rest
  | '[' :: rest =>
    (takeType? reference rest).map fun (element, rest) => (.array element, rest)
  | _ => none

end Nesting

/-- A type that is not primitive and nests at most `fuel` deep. -/
def takeReference? : Nat → List Char → Option (TypeSignature × List Char)
  | 0, _ => none
  | fuel + 1, text => takeReferenceOver? (takeReference? fuel) text

/-- The bound that is a class; it is left out if another bound or the end follows at once. -/
def takeClassBound? (fuel : Nat) : List Char → Option (Option TypeSignature × List Char)
  | ':' :: rest => some (none, ':' :: rest)
  | '>' :: rest => some (none, '>' :: rest)
  | text => (takeReference? fuel text).map fun (type, rest) => (some type, rest)

/-- A type parameter. Another one or the closing bracket has to follow. -/
def takeTypeParameter? (fuel : Nat) (text : List Char) : Option (TypeParameter × List Char) := do
  let (name, rest) ← takeIdentifier? [':', '>'] text
  let rest ← takeChar? ':' rest
  let (classBound, rest) ← takeClassBound? fuel rest
  let (interfaceBounds, rest) ← takeWhileLed? ':' (takeReference? fuel) rest.length rest
  return ({ name, classBound, interfaceBounds }, rest)

def ClassSignature.ofChars? (text : List Char) : Option ClassSignature := do
  let fuel := text.length
  let (typeParameters, rest) ← takeBracketed? (takeTypeParameter? fuel) text
  let (superClass, rest) ← takeClassType? (takeReference? fuel) rest
  let interfaces ← takeInterfaces? fuel rest.length rest
  return { typeParameters, superClass, interfaces }
where
  /-- Class types up to the end of the text. -/
  takeInterfaces? (depth : Nat) : Nat → List Char → Option (List ClassTypeSignature)
    | _, [] => some []
    | 0, _ => none
    | fuel + 1, text => do
      let (first, rest) ← takeClassType? (takeReference? depth) text
      let others ← takeInterfaces? depth fuel rest
      return first :: others

/-- The type a method gives back, if it is not `void`. -/
def takeResult? (fuel : Nat) : List Char → Option (Option TypeSignature × List Char)
  | 'V' :: rest => some (none, rest)
  | text => (takeType? (takeReference? fuel) text).map fun (type, rest) => (some type, rest)

def MethodSignature.ofChars? (text : List Char) : Option MethodSignature := do
  let fuel := text.length
  let (typeParameters, rest) ← takeBracketed? (takeTypeParameter? fuel) text
  let rest ← takeChar? '(' rest
  let (parameters, rest) ← takeUntil? ')' (takeType? (takeReference? fuel)) rest.length rest
  let (result, rest) ← takeResult? fuel rest
  let (throws, rest) ← takeWhileLed? '^' (takeReference? fuel) rest.length rest
  if rest.isEmpty then some { typeParameters, parameters, result, throws } else none

/-- The class signature that a text spells. -/
def ClassSignature.parse (text : String) : Except Fault ClassSignature :=
  match ofChars? text.toList with
  | some signature => .ok signature
  | none => .error (.malformedSignature text)

/-- The method signature that a text spells. -/
def MethodSignature.parse (text : String) : Except Fault MethodSignature :=
  match ofChars? text.toList with
  | some signature => .ok signature
  | none => .error (.malformedSignature text)

end Conformance.ClassFile
