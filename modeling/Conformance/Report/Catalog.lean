import Conformance.Interface.Catalog
import Conformance.Text.Json

/-!
# Reports of catalogs

The interfaces of a catalog, for machines and for readers. For machines, a type is an object
with one member that names the sort of type, or just the name of the sort where there is
nothing more to say.
-/

namespace Conformance

mutual

def JavaType.toJson : JavaType → Json
  | .void => .str "Void"
  | .primitive p => .obj [("Primitive", .str p.keyword)]
  | .classType name arguments =>
    .obj [("Class", .obj [("name", .str name), ("args", .arr (JavaType.toJsonList arguments))])]
  | .array element => .obj [("Array", element.toJson)]
  | .typeVar name => .obj [("TypeVar", .str name)]
  | .wildcard => .obj [("Wildcard", .str "Unbounded")]
  | .wildcardExtends bound => .obj [("Wildcard", .obj [("Extends", bound.toJson)])]
  | .wildcardSuper bound => .obj [("Wildcard", .obj [("Super", bound.toJson)])]

def JavaType.toJsonList : List JavaType → List Json
  | [] => []
  | first :: others => first.toJson :: JavaType.toJsonList others

end

def WantedMethod.toJson (m : WantedMethod) : Json :=
  .obj [("name", .str m.name), ("return_type", m.returnType.toJson),
    ("params", .arr (m.params.map JavaType.toJson))]

def InterfaceOrigin.toJson : InterfaceOrigin → Json
  | classpath => .obj [("kind", .str "classpath")]
  | source path => .obj [("kind", .str "source"), ("path", .str path)]

def InterfaceDescriptor.toJson (i : InterfaceDescriptor) : Json :=
  .obj [("name", .str i.name), ("type_params", .arr (i.typeParams.map .str)),
    ("methods", .arr (i.methods.map WantedMethod.toJson)), ("origin", i.origin.toJson)]

def Catalog.toJson (catalog : Catalog) : Json :=
  .arr (catalog.entries.map InterfaceDescriptor.toJson)

/-! ## For readers -/

/-- The line about a method. -/
def WantedMethod.line (m : WantedMethod) : String :=
  let params := ", ".intercalate (m.params.map JavaType.text)
  s!"  {m.returnType.text} {m.name}({params})"

def InterfaceOrigin.label : InterfaceOrigin → String
  | classpath => "classpath"
  | source path => path

/-- The lines about an interface. -/
def InterfaceDescriptor.lines (i : InterfaceDescriptor) : List String :=
  let params := if i.isGeneric then "<" ++ ", ".intercalate i.typeParams ++ ">" else ""
  s!"{i.name}{params} ({i.origin.label})" :: i.methods.map WantedMethod.line

def Catalog.lines (catalog : Catalog) : List String :=
  catalog.entries.flatMap InterfaceDescriptor.lines

end Conformance
