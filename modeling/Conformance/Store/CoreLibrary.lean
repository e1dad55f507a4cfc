import Conformance.Store.Basic

/-!
# The core library

The definitions of the standard library that conformance needs even where no class file of
the library is at hand: the top class, strings, the wrapper classes and the collections.
Only hierarchy and type parameters are given; apart from the top class none has methods.
-/

namespace Conformance

namespace CoreLibrary

open JavaType

def serializable : JavaType := raw "java.io.Serializable"

def comparable (argument : JavaType) : JavaType := classType "java.lang.Comparable" [argument]

def params (names : List String) : List TypeParam := names.map fun name => { name }

/-- A use of a class with type variables as arguments. -/
def useOf (name : String) (arguments : List String) : JavaType :=
  classType name (arguments.map typeVar)

/-- An interface with given parameters and superinterfaces. -/
def interface (name : String) (parameters : List String) (supers : List JavaType) : ClassDef :=
  { name, kind := .interface, typeParams := params parameters, interfaces := supers }

/-- A class right below the top class. -/
def classBelowObject (name : String) (parameters : List String) (supers : List JavaType) :
    ClassDef :=
  { name, kind := .plainClass, typeParams := params parameters, superClass := some object
    interfaces := supers }

/-- The methods that every object has. -/
def objectMethods : List MethodDef :=
  [ { name := "equals", params := [object], returnType := primitive .boolean },
    { name := "hashCode", params := [], returnType := primitive .int },
    { name := "toString", params := [], returnType := raw "java.lang.String" },
    { name := "getClass", params := [], returnType := classType "java.lang.Class" [wildcard] } ]

/-- The wrapper class of a primitive type. Those of numbers are below `Number`. -/
def wrapperClass (p : Primitive) : ClassDef :=
  { name := p.wrapper
    kind := .plainClass
    superClass := some (if p = .boolean || p = .char then object else raw "java.lang.Number")
    interfaces := [serializable, comparable (raw p.wrapper)] }

def topClass : ClassDef := { name := objectName, kind := .plainClass, methods := objectMethods }

def languageClasses : List ClassDef :=
  [ interface "java.io.Serializable" [] [],
    interface "java.lang.Cloneable" [] [],
    interface "java.lang.CharSequence" [] [],
    interface "java.lang.Runnable" [] [],
    interface "java.lang.AutoCloseable" [] [],
    interface "java.util.RandomAccess" [] [],
    interface "java.io.Closeable" [] [raw "java.lang.AutoCloseable"],
    interface "java.lang.Comparable" ["T"] [],
    interface "java.lang.Iterable" ["T"] [],
    classBelowObject "java.lang.Class" ["T"] [],
    classBelowObject "java.lang.String" []
      [serializable, comparable (raw "java.lang.String"), raw "java.lang.CharSequence"],
    classBelowObject "java.lang.Number" [] [serializable],
    classBelowObject "java.lang.Void" [] [],
    { name := "java.lang.Enum"
      kind := .plainClass
      typeParams := [⟨"E", [useOf "java.lang.Enum" ["E"]]⟩]
      superClass := some object
      interfaces := [comparable (typeVar "E"), serializable] },
    classBelowObject "java.lang.Record" [] [] ]

def collectionClasses : List ClassDef :=
  [ interface "java.util.Iterator" ["E"] [],
    interface "java.util.Collection" ["E"] [useOf "java.lang.Iterable" ["E"]],
    interface "java.util.List" ["E"] [useOf "java.util.Collection" ["E"]],
    interface "java.util.Set" ["E"] [useOf "java.util.Collection" ["E"]],
    interface "java.util.Queue" ["E"] [useOf "java.util.Collection" ["E"]],
    interface "java.util.Map" ["K", "V"] [],
    interface "java.util.Map.Entry" ["K", "V"] [],
    classBelowObject "java.util.Optional" ["T"] [],
    classBelowObject "java.util.ArrayList" ["E"] [useOf "java.util.List" ["E"], serializable],
    classBelowObject "java.util.LinkedList" ["E"] [useOf "java.util.List" ["E"], serializable],
    classBelowObject "java.util.HashSet" ["E"] [useOf "java.util.Set" ["E"], serializable],
    classBelowObject "java.util.TreeSet" ["E"] [useOf "java.util.Set" ["E"], serializable],
    classBelowObject "java.util.HashMap" ["K", "V"]
      [useOf "java.util.Map" ["K", "V"], serializable],
    classBelowObject "java.util.TreeMap" ["K", "V"]
      [useOf "java.util.Map" ["K", "V"], serializable],
    classBelowObject "java.util.LinkedHashMap" ["K", "V"]
      [useOf "java.util.Map" ["K", "V"], serializable] ]

end CoreLibrary

/-- The definitions that are known before any source or class file is read. -/
def Store.coreLibrary : Store :=
  Store.empty.insertAll
    (CoreLibrary.topClass :: CoreLibrary.languageClasses ++ CoreLibrary.collectionClasses
      ++ Primitive.all.map CoreLibrary.wrapperClass)

end Conformance
