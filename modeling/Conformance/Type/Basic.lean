import Conformance.Type.Primitive

/-!
# Types

A type as it occurs in a declaration, with classes by their canonical names: dots
throughout, also between a class and one nested in it. Type arguments are types, and a
wildcard is a type that only occurs as an argument. A class without arguments stands both
for a class that has no parameters and for the raw use of one that has some.

Substitution replaces type variables all through a type. A substitution is a function, so
composing two of them is composing functions.
-/

namespace Conformance

inductive JavaType where
  | void
  | primitive (type : Primitive)
  | classType (name : String) (arguments : List JavaType)
  | array (element : JavaType)
  | typeVar (name : String)
  /-- The wildcard `?`, without a bound. -/
  | wildcard
  /-- A wildcard with an upper bound. -/
  | wildcardExtends (bound : JavaType)
  /-- A wildcard with a lower bound. -/
  | wildcardSuper (bound : JavaType)
  deriving Repr, Inhabited

namespace JavaType

/-! ## Equality -/

mutual

/-- Compares two types piece by piece. -/
def same : JavaType → JavaType → Bool
  | void, void => true
  | primitive p, primitive q => p = q
  | classType m as, classType n bs => m = n && sameAll as bs
  | array s, array t => same s t
  | typeVar m, typeVar n => m = n
  | wildcard, wildcard => true
  | wildcardExtends s, wildcardExtends t => same s t
  | wildcardSuper s, wildcardSuper t => same s t
  | _, _ => false

def sameAll : List JavaType → List JavaType → Bool
  | [], [] => true
  | s :: ss, t :: ts => same s t && sameAll ss ts
  | _, _ => false

end

mutual

theorem same_self : (t : JavaType) → same t t = true
  | void | wildcard => by simp [same]
  | primitive _ | typeVar _ => by simp [same]
  | classType _ arguments => by simp [same, sameAll_self arguments]
  | array t | wildcardExtends t | wildcardSuper t => by simp [same, same_self t]

theorem sameAll_self : (ts : List JavaType) → sameAll ts ts = true
  | [] => by simp [sameAll]
  | t :: ts => by simp [sameAll, same_self t, sameAll_self ts]

end

mutual

theorem eq_of_same : (s t : JavaType) → same s t = true → s = t
  | void, t, h => by cases t <;> simp_all [same]
  | wildcard, t, h => by cases t <;> simp_all [same]
  | primitive _, t, h => by cases t <;> simp_all [same]
  | typeVar _, t, h => by cases t <;> simp_all [same]
  | classType _ arguments, t, h => by
    cases t <;> simp_all [same]
    exact eq_of_sameAll arguments _ h.2
  | array s, t, h => by
    cases t <;> simp_all [same]
    exact eq_of_same s _ h
  | wildcardExtends s, t, h => by
    cases t <;> simp_all [same]
    exact eq_of_same s _ h
  | wildcardSuper s, t, h => by
    cases t <;> simp_all [same]
    exact eq_of_same s _ h

theorem eq_of_sameAll : (ss ts : List JavaType) → sameAll ss ts = true → ss = ts
  | [], ts, h => by cases ts <;> simp_all [sameAll]
  | s :: ss, ts, h => by
    cases ts <;> simp_all [sameAll]
    exact ⟨eq_of_same s _ h.1, eq_of_sameAll ss _ h.2⟩

end

theorem same_iff {s t : JavaType} : same s t = true ↔ s = t :=
  ⟨eq_of_same s t, fun h => h ▸ same_self s⟩

instance : DecidableEq JavaType := fun _ _ => decidable_of_iff _ same_iff

/-! ## Common types -/

/-- The name of the class at the top of the hierarchy. -/
def objectName : String := "java.lang.Object"

/-- A class without type arguments. -/
def raw (name : String) : JavaType := classType name []

/-- The type at the top of the hierarchy. -/
def object : JavaType := raw objectName

/-! ## Parts -/

/-- The name of a class type. -/
def className? : JavaType → Option String
  | classType name _ => some name
  | _ => none

/-- Whether a type is the top class, with whatever arguments. -/
def isObject : JavaType → Bool
  | classType name _ => name = objectName
  | _ => false

/-- Primitive types and `void` conform to themselves only. -/
def isPrimitiveOrVoid : JavaType → Bool
  | void | primitive _ => true
  | _ => false

/-- The class that a value of the type is boxed into; a reference type stays as it is. -/
def boxed : JavaType → JavaType
  | primitive p => raw p.wrapper
  | other => other

/-- The type without type arguments. Type variables and wildcards stay. -/
def erasure : JavaType → JavaType
  | classType name _ => raw name
  | array element => array element.erasure
  | other => other

mutual

/-- Whether a type variable occurs in the type. -/
def mentions (x : String) : JavaType → Bool
  | typeVar name => name = x
  | classType _ arguments => mentionsAny x arguments
  | array element => element.mentions x
  | wildcardExtends bound | wildcardSuper bound => bound.mentions x
  | void | primitive _ | wildcard => false

/-- Whether a type variable occurs in any of the types. -/
def mentionsAny (x : String) : List JavaType → Bool
  | [] => false
  | first :: others => first.mentions x || mentionsAny x others

end

end JavaType

/-- What the type variables stand for; a variable without a value stands for itself. -/
abbrev Substitution := String → Option JavaType

/-- The substitution that a list of pairs spells; the last pair for a variable counts. -/
def Substitution.ofPairs (pairs : List (String × JavaType)) : Substitution :=
  fun x => pairs.reverse.lookup x

namespace JavaType

mutual

/-- The type with every type variable replaced by what it stands for. -/
def substitute (s : Substitution) : JavaType → JavaType
  | typeVar name => (s name).getD (typeVar name)
  | classType name arguments => classType name (substituteAll s arguments)
  | array element => array (element.substitute s)
  | wildcardExtends bound => wildcardExtends (bound.substitute s)
  | wildcardSuper bound => wildcardSuper (bound.substitute s)
  | void => void
  | primitive p => primitive p
  | wildcard => wildcard

/-- The types with every type variable replaced by what it stands for. -/
def substituteAll (s : Substitution) : List JavaType → List JavaType
  | [] => []
  | first :: others => first.substitute s :: substituteAll s others

end

mutual

/-- The spelling of a type, class names in full. -/
def text : JavaType → String
  | void => "void"
  | primitive p => p.keyword
  | classType name [] => name
  | classType name (first :: others) => name ++ "<" ++ first.text ++ textOthers others ++ ">"
  | array element => element.text ++ "[]"
  | typeVar name => name
  | wildcard => "?"
  | wildcardExtends bound => "? extends " ++ bound.text
  | wildcardSuper bound => "? super " ++ bound.text

/-- The spelling of the type arguments after the first. -/
def textOthers : List JavaType → String
  | [] => ""
  | first :: others => ", " ++ first.text ++ textOthers others

end

end JavaType

end Conformance
