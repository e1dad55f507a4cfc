import Std.Data.ExtTreeMap
import Conformance.Type.Basic

/-!
# Class definitions and the store that holds them

A `ClassDef` is what is known about a class or interface, whatever it was learned from: its
type parameters, its direct supertypes and its methods. A `Store` holds one definition
under each name. Two stores with the same definitions are equal, however they were filled.

A class type may be used with type arguments or raw. Members seen through a use with
arguments have the arguments in place of the parameters (`ClassDef.instantiation`); where an
argument is missing its parameter is erased to its first bound.
-/

namespace Conformance

inductive ClassKind where
  | plainClass | interface | enum | record | annotationType
  deriving DecidableEq, Repr, Inhabited

/-- The word for a kind of class. -/
def ClassKind.label : ClassKind → String
  | .plainClass => "class"
  | .interface => "interface"
  | .enum => "enum"
  | .record => "record"
  | .annotationType => "annotation"

/-- A type parameter of a class or method. -/
structure TypeParam where
  name : String
  upperBounds : List JavaType := []
  deriving DecidableEq, Repr, Inhabited

/-- What a parameter stands for where generics are ignored: its first bound, if it has one. -/
def TypeParam.erasure (p : TypeParam) : JavaType :=
  match p.upperBounds with
  | [] => .object
  | first :: _ => first.erasure

/-- A method as a class declares or inherits it. -/
structure MethodDef where
  name : String
  typeParams : List TypeParam := []
  params : List JavaType
  returnType : JavaType
  isStatic : Bool := false
  isPrivate : Bool := false
  isAbstract : Bool := false
  deriving DecidableEq, Repr, Inhabited

namespace MethodDef

/-- Whether the method can be called on an instance from outside the class. -/
def isInstanceApi (m : MethodDef) : Bool := !m.isStatic && !m.isPrivate

/-- The method with type variables replaced in its parameters and its result. -/
def substitute (s : Substitution) (m : MethodDef) : MethodDef :=
  { m with
    params := JavaType.substituteAll s m.params
    returnType := m.returnType.substitute s }

/-- What the method's own type parameters stand for when they are erased. -/
def erasingSubstitution (m : MethodDef) : Substitution :=
  Substitution.ofPairs (m.typeParams.map fun p => (p.name, p.erasure))

/-- The method without type parameters of its own, each use of one erased. -/
def eraseTypeParams (m : MethodDef) : MethodDef :=
  { m.substitute m.erasingSubstitution with typeParams := [] }

/-- Whether the method has the signature of one that every object has. -/
def isObjectMethod (m : MethodDef) : Bool :=
  match m.name, m.params with
  | "equals", [param] => param.isObject
  | "hashCode", [] | "toString", [] | "getClass", [] => true
  | _, _ => false

end MethodDef

/-- A class or interface as a declaration. -/
structure ClassDef where
  name : String
  kind : ClassKind
  typeParams : List TypeParam := []
  superClass : Option JavaType := none
  interfaces : List JavaType := []
  methods : List MethodDef := []
  deriving DecidableEq, Repr, Inhabited

namespace ClassDef

def isInterface (d : ClassDef) : Bool := d.kind = .interface

def typeParamNames (d : ClassDef) : List String := d.typeParams.map (·.name)

/-- The class as a type, applied to its own parameters. -/
def selfType (d : ClassDef) : JavaType :=
  .classType d.name (d.typeParamNames.map .typeVar)

/-- Type parameters with the arguments given to them; a missing argument is filled in by
erasing the parameter. -/
def instantiationPairs : List TypeParam → List JavaType → List (String × JavaType)
  | [], _ => []
  | p :: params, [] => (p.name, p.erasure) :: instantiationPairs params []
  | p :: params, argument :: arguments => (p.name, argument) :: instantiationPairs params arguments

/-- What the parameters of the class stand for in a use with the given arguments. -/
def instantiation (d : ClassDef) (arguments : List JavaType) : Substitution :=
  Substitution.ofPairs (instantiationPairs d.typeParams arguments)

/-- The superclass, then the interfaces. Every interface also has the top class above it. -/
def directSupertypes (d : ClassDef) : List JavaType :=
  let declared := d.superClass.toList ++ d.interfaces
  if d.isInterface && declared.all (!·.isObject) then declared ++ [.object] else declared

end ClassDef

/-- Definitions by class name. -/
structure Store where
  classes : Std.ExtTreeMap String ClassDef
  /-- A definition is kept under its own name. -/
  named : ∀ (name : String) (d : ClassDef), classes[name]? = some d → d.name = name

namespace Store

def empty : Store := ⟨∅, by simp⟩

instance : Inhabited Store := ⟨empty⟩

/-- The definition of a class. -/
def find? (store : Store) (name : String) : Option ClassDef := store.classes[name]?

/-- The store with a definition added; it replaces one of the same name. -/
def insert (store : Store) (d : ClassDef) : Store where
  classes := store.classes.insert d.name d
  named := by
    intro name e h
    rw [Std.ExtTreeMap.getElem?_insert] at h
    split at h
    · next hc => simp_all
    · exact store.named name e h

/-- The store with several definitions added, one after the other. -/
def insertAll (store : Store) (defs : List ClassDef) : Store := defs.foldl insert store

def contains (store : Store) (name : String) : Bool := (store.find? name).isSome

def size (store : Store) : Nat := store.classes.size

/-- The names of the stored classes, in order. -/
def names (store : Store) : List String := store.classes.keys

/-- The stored definitions, by name. -/
def toList (store : Store) : List ClassDef := store.classes.values

theorem find?_insert (store : Store) (d : ClassDef) (name : String) :
    (store.insert d).find? name = if d.name = name then some d else store.find? name := by
  simp [find?, insert, Std.ExtTreeMap.getElem?_insert]

/-- What is found after definitions were added is one of them or was there before. -/
theorem find?_insertAll {store : Store} {defs : List ClassDef} {name : String} {d : ClassDef}
    (h : (store.insertAll defs).find? name = some d) :
    (d ∈ defs ∧ d.name = name) ∨ store.find? name = some d := by
  induction defs generalizing store with
  | nil => exact .inr h
  | cons e defs ih =>
    rcases @ih (store.insert e) h with ⟨hd, hname⟩ | h
    · exact .inl ⟨List.mem_cons_of_mem _ hd, hname⟩
    · rw [find?_insert] at h
      split at h
      · next he =>
        cases h
        exact .inl ⟨List.mem_cons_self .., he⟩
      · exact .inr h

/-- What is found among some definitions is one of them. -/
theorem mem_of_find?_insertAll {defs : List ClassDef} {name : String} {d : ClassDef}
    (h : (empty.insertAll defs).find? name = some d) : d ∈ defs := by
  rcases find?_insertAll h with ⟨hd, -⟩ | h
  · exact hd
  · simp [find?, empty] at h

theorem name_of_find? {store : Store} {name : String} {d : ClassDef}
    (h : store.find? name = some d) : d.name = name :=
  store.named name d h

theorem ext_find? {s t : Store} (h : ∀ name, s.find? name = t.find? name) : s = t := by
  obtain ⟨a, ha⟩ := s
  obtain ⟨b, hb⟩ := t
  have : a = b := Std.ExtTreeMap.ext_getElem? h
  subst this
  rfl

end Store

end Conformance
