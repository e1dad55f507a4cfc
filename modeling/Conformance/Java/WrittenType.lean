import Conformance.Java.Tree
import Conformance.Text.Blank

/-!
# Types as they are written

A `WrittenType` is a type the way a source file spells it: a class by as much of its name
as the author gave, so that what it means depends on where it stands. Only the arguments of
the last part of a name are kept, and anything found in the place of a type that is none,
such as a comment inside a list, is kept as its text.
-/

namespace Conformance.Java

inductive WrittenType where
  | void
  | primitive (keyword : String)
  | named (name : String) (arguments : List WrittenType)
  | array (element : WrittenType)
  | wildcard
  | wildcardExtends (bound : WrittenType)
  | wildcardSuper (bound : WrittenType)
  /-- Something that stands in the place of a type. -/
  | unknown (text : String)
  deriving Repr, Inhabited

namespace WrittenType

/-! ## Equality -/

mutual

/-- Compares two types piece by piece. -/
def same : WrittenType → WrittenType → Bool
  | void, void => true
  | primitive k, primitive l => k = l
  | named m as, named n bs => m = n && sameAll as bs
  | array s, array t => same s t
  | wildcard, wildcard => true
  | wildcardExtends s, wildcardExtends t => same s t
  | wildcardSuper s, wildcardSuper t => same s t
  | unknown s, unknown t => s = t
  | _, _ => false

def sameAll : List WrittenType → List WrittenType → Bool
  | [], [] => true
  | s :: ss, t :: ts => same s t && sameAll ss ts
  | _, _ => false

end

mutual

theorem same_iff : (s t : WrittenType) → same s t = true ↔ s = t
  | void, t => by cases t <;> simp [same]
  | wildcard, t => by cases t <;> simp [same]
  | primitive _, t => by cases t <;> simp [same]
  | unknown _, t => by cases t <;> simp [same]
  | named _ arguments, t => by cases t <;> simp [same, sameAll_iff arguments]
  | array s, t => by cases t <;> simp [same, same_iff s]
  | wildcardExtends s, t => by cases t <;> simp [same, same_iff s]
  | wildcardSuper s, t => by cases t <;> simp [same, same_iff s]

theorem sameAll_iff : (ss ts : List WrittenType) → sameAll ss ts = true ↔ ss = ts
  | [], ts => by cases ts <;> simp [sameAll]
  | s :: ss, ts => by cases ts <;> simp [sameAll, same_iff s, sameAll_iff ss]

end

instance : DecidableEq WrittenType := fun s t => decidable_of_iff _ (same_iff s t)

/-! ## Spelling -/

/-- The written name of a class type. -/
def name? : WrittenType → Option String
  | named name _ => some name
  | _ => none

/-- The type of arrays of arrays of a type, so many levels deep. -/
def arrays : Nat → WrittenType → WrittenType
  | 0, t => t
  | n + 1, t => arrays n (array t)

mutual

/-- The text of a type. -/
def text : WrittenType → String
  | void => "void"
  | primitive keyword => keyword
  | named name [] => name
  | named name (first :: others) => name ++ "<" ++ first.text ++ textOthers others ++ ">"
  | array element => element.text ++ "[]"
  | wildcard => "?"
  | wildcardExtends bound => "? extends " ++ bound.text
  | wildcardSuper bound => "? super " ++ bound.text
  | unknown text => text

/-- The text of the type arguments after the first. -/
def textOthers : List WrittenType → String
  | [] => ""
  | first :: others => ", " ++ first.text ++ textOthers others

end

/-! ## Reading a type from its tree -/

/-- How many dimensions a text in brackets spells. -/
def bracketCount (trees : List Tree) : Nat :=
  ((Tree.tokensOf trees).flatMap fun t => t.text.toList).count '['

/-- The dimensions among the trees below a node. -/
def dimensionCount (trees : List Tree) : Nat := bracketCount (trees.filter (·.isNode .dimensions))

/-- Whether a tree in a list of types is an entry of the list. -/
def isEntry (t : Tree) : Bool :=
  match t with
  | .leaf token => token.isComment
  | .node kind _ => kind ≠ .annotationUse && kind ≠ .dimensions

/-- The parts of a dotted name, which are the words below a node. -/
def dottedName (trees : List Tree) : String :=
  ".".intercalate <| trees.filterMap fun
    | .leaf token => if token.kind = .word then some token.text else none
    | .node _ _ => none

mutual

/-- The type that a tree spells. -/
def ofTree : Tree → WrittenType
  | .leaf token => unknown (Text.trim token.text)
  | .node kind children =>
    match kind with
    | .voidType => void
    | .primitiveType => primitive (dottedName children)
    | .classType => named (dottedName children) (argumentsOf children)
    | .arrayType => arrays (dimensionCount children) ((ofTrees children).head?.getD (unknown ""))
    | .annotatedType => (ofTrees children).getLast?.getD (unknown "")
    | .wildcard =>
      match (ofTrees children).getLast? with
      | none => wildcard
      | some bound =>
        if children.any (·.isWord "super") then wildcardSuper bound else wildcardExtends bound
    | _ => unknown ""

/-- The types that the entries of a list spell. -/
def ofTrees : List Tree → List WrittenType
  | [] => []
  | t :: others => if isEntry t then ofTree t :: ofTrees others else ofTrees others

/-- The type arguments of the last part of a name. -/
def argumentsOf : List Tree → List WrittenType
  | [] => []
  | t :: others => if others.isEmpty then argumentsOfLast t else argumentsOf others

def argumentsOfLast : Tree → List WrittenType
  | .leaf _ => []
  | .node kind children => if kind = .typeArguments then ofTrees children else []

end

end WrittenType

end Conformance.Java
