import Conformance.Interface.Descriptor

/-!
# Catalogs of interfaces

A catalog lists the interfaces that classes are compared with, the most demanding first:
those with more methods come before those with fewer, and among equals the names decide.
-/

namespace Conformance

namespace InterfaceDescriptor

/-- Whether an interface may come before another in a catalog. -/
def comesBefore (i j : InterfaceDescriptor) : Bool :=
  ((compare j.methods.length i.methods.length).then (compare i.name j.name)).isLE

end InterfaceDescriptor

/-- Interfaces in the order in which classes are compared with them. -/
structure Catalog where
  entries : List InterfaceDescriptor
  deriving DecidableEq, Repr, Inhabited

namespace Catalog

/-- The catalog of given interfaces. Interfaces that tie keep their order. -/
def ofList (entries : List InterfaceDescriptor) : Catalog :=
  ⟨entries.mergeSort InterfaceDescriptor.comesBefore⟩

/-- The first interface of a given name. -/
def find? (catalog : Catalog) (name : String) : Option InterfaceDescriptor :=
  catalog.entries.find? (·.name = name)

def size (catalog : Catalog) : Nat := catalog.entries.length

end Catalog

end Conformance
