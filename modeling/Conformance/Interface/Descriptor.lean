import Conformance.Interface.Binding
import Conformance.Text.Split

/-!
# Interfaces as a class has to provide them

An `InterfaceDescriptor` lists the instance methods that a class needs in order to conform
to an interface, inherited ones included, together with the type parameters that matching
may choose.
-/

namespace Conformance

/-- Where an interface was found. -/
inductive InterfaceOrigin where
  | classpath
  | source (path : String)
  deriving DecidableEq, Repr, Inhabited

/-- A method that an interface asks for. -/
structure WantedMethod where
  name : String
  returnType : JavaType
  params : List JavaType
  deriving DecidableEq, Repr, Inhabited

/-- How many parameters the method takes. -/
def WantedMethod.arity (m : WantedMethod) : Nat := m.params.length

structure InterfaceDescriptor where
  name : String
  typeParams : List String
  methods : List WantedMethod
  origin : InterfaceOrigin
  deriving DecidableEq, Repr, Inhabited

namespace InterfaceDescriptor

/-- The name without the package. -/
def simpleName (i : InterfaceDescriptor) : String := Text.lastSegment i.name

def isGeneric (i : InterfaceDescriptor) : Bool := !i.typeParams.isEmpty

def isTypeParam (i : InterfaceDescriptor) (name : String) : Bool := i.typeParams.contains name

/-- The interface without type arguments. -/
def rawType (i : InterfaceDescriptor) : JavaType := .raw i.name

/-- The interface with its parameters replaced by their values. -/
def parameterized (i : InterfaceDescriptor) (b : Binding) : JavaType :=
  .classType i.name (b.arguments i.typeParams)

end InterfaceDescriptor

end Conformance
