import Std.Data.ExtTreeMap
import Conformance.Type.Basic

/-!
# Bindings of type parameters

While the methods of a generic interface are matched with those of a class, its type
parameters take on values. A `Binding` records them. A parameter that has a value keeps it:
`bind` accepts the same value again and refuses any other, so a binding only grows.
-/

namespace Conformance

/-- What is left of an outcome without its faults is the value that it has. -/
theorem toOption_eq_some_iff {ε α : Type} {outcome : Except ε α} {a : α} :
    outcome.toOption = some a ↔ outcome = .ok a := by
  cases outcome <;> simp [Except.toOption]

/-- The values of some type parameters, by name. -/
structure Binding where
  entries : Std.ExtTreeMap String JavaType

/-- An attempt to give a type parameter a second value. -/
structure BindingConflict where
  name : String
  existing : JavaType
  proposed : JavaType
  deriving DecidableEq, Repr

/-- What a report says about a conflict. -/
def BindingConflict.message (c : BindingConflict) : String :=
  "type variable `" ++ c.name ++ "` already bound to `" ++ c.existing.text
    ++ "`, cannot rebind to `" ++ c.proposed.text ++ "`"

namespace Binding

def empty : Binding := ⟨∅⟩

instance : Inhabited Binding := ⟨empty⟩

/-- The value of a type parameter. -/
def find? (b : Binding) (name : String) : Option JavaType := b.entries[name]?

/-- How many type parameters have a value. -/
def size (b : Binding) : Nat := b.entries.size

/-- The parameters that have a value, by name. -/
def toList (b : Binding) : List (String × JavaType) := b.entries.toList

/-- Gives a type parameter a value, unless it has another one. -/
def bind (b : Binding) (name : String) (type : JavaType) : Except BindingConflict Binding :=
  match b.find? name with
  | none => .ok ⟨b.entries.insert name type⟩
  | some existing =>
    if existing = type then .ok b else .error { name, existing, proposed := type }

/-- A type with the bound parameters replaced by their values. -/
def substitute (b : Binding) (type : JavaType) : JavaType := type.substitute b.find?

/-- The values of given parameters in order; a parameter without one gets the top class. -/
def arguments (b : Binding) (params : List String) : List JavaType :=
  params.map fun name => (b.find? name).getD .object

@[simp]
theorem find?_empty (name : String) : empty.find? name = none := by simp [find?, empty]

theorem ext_find? {b c : Binding} (h : ∀ name, b.find? name = c.find? name) : b = c := by
  obtain ⟨s⟩ := b
  obtain ⟨t⟩ := c
  exact congrArg Binding.mk (Std.ExtTreeMap.ext_getElem? h)

/-- A parameter that has been bound has the value it was bound to, and the others keep
theirs. -/
theorem find?_of_bind {b c : Binding} {name : String} {type : JavaType}
    (h : b.bind name type = .ok c) (x : String) :
    c.find? x = if name = x then some type else b.find? x := by
  unfold bind at h
  split at h
  · cases h
    simp [find?, Std.ExtTreeMap.getElem?_insert]
  · next existing he =>
    split at h
    · cases h
      split <;> simp_all
    · cases h

/-- What has a value after a parameter has been bound is this parameter, or had the value before. -/
theorem eq_or_find?_of_bind {b c : Binding} {name x : String} {type u : JavaType}
    (h : b.bind name type = .ok c) (hu : c.find? x = some u) :
    (x = name ∧ u = type) ∨ b.find? x = some u := by
  rw [find?_of_bind h] at hu
  split at hu
  · next hx => exact .inl ⟨hx.symm, (Option.some.inj hu).symm⟩
  · exact .inr hu

end Binding

end Conformance
