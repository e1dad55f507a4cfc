import Conformance.Interface.Descriptor
import Conformance.Store.Assignable

/-!
# Redundant interfaces

A class need not name an interface that it already has from one of its supertypes. A
supertype that cannot be compared with the interface counts as unrelated.

The interface is taken without type arguments here, and to compare something with such a type
always comes to an end (`isSome_assignable_rawType`).
-/

namespace Conformance

namespace Store

theorem isSome_assignable_rawType (store : Store) (interface : InterfaceDescriptor)
    (type : JavaType) : (store.assignable interface.rawType type).isSome :=
  store.isSome_assignable_raw interface.name type

/-- Whether one of the types is the interface or below it. -/
def isCovered (store : Store) (interface : InterfaceDescriptor) (types : List JavaType) : Bool :=
  types.any fun type =>
    match (store.assignable interface.rawType type).get (isSome_assignable_rawType ..) with
    | .ok answer => answer
    | .error _ => false

/-- Whether something above the class is the interface or below it. -/
def isRedundant (store : Store) (className : String) (interface : InterfaceDescriptor) : Bool :=
  match store.ancestors className with
  | .ok ancestors => store.isCovered interface ancestors
  | .error _ => false

end Store

end Conformance
