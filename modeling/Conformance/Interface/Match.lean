import Conformance.Interface.Descriptor
import Conformance.Interface.Search
import Conformance.Store.Assignable

/-!
# Structural conformance

A class conforms to an interface if, for every method of the interface, it has an instance
method of the same name and arity whose result may stand for the wanted one and whose
parameters may be passed where the wanted ones are. Primitive results have to be the same.

For a generic interface the type parameters are found on the way. `unify` walks a wanted
type along the type the class offers and binds the parameters it meets; a conflict rules
the candidate out. Where the two types do not line up nothing is bound, and assignability
decides. The first candidate that is accepted settles the binding for the methods that
follow. A comparison that never ends is no refusal: there is no other candidate after it.

An interface without methods asks for nothing, and no class is taken to conform to it.
-/

namespace Conformance

namespace Store

mutual

/-- Binds the type parameters met while walking a wanted type along an offered one, or
fails if one would be bound to a second type or to what no type argument can be. -/
def unify (store : Store) (params : List String) :
    JavaType → JavaType → Binding → Option Binding
  | .typeVar x, offered, b =>
    if params.contains x then
      match offered with
      | .void | .primitive _ | .wildcard | .wildcardExtends _ | .wildcardSuper _ => none
      | _ => (b.bind x offered).toOption
    else some b
  | .classType name arguments, offered, b =>
    if arguments.isEmpty then some b
    else
      match store.supertypeView offered name with
      | .ok (some (.classType _ offeredArguments)) =>
        if offeredArguments.length = arguments.length then
          unifyAll store params arguments offeredArguments b
        else some b
      | _ => some b
  | .array element, offered, b =>
    match offered with
    | .array offeredElement => unify store params element offeredElement b
    | _ => some b
  | .wildcardExtends bound, offered, b | .wildcardSuper bound, offered, b =>
    match offered with
    | .wildcardExtends inner | .wildcardSuper inner => unify store params bound inner b
    | .wildcard => some b
    | other => unify store params bound other b
  | .void, _, b | .primitive _, _, b | .wildcard, _, b => some b

/-- Unifies type arguments one by one. -/
def unifyAll (store : Store) (params : List String) :
    List JavaType → List JavaType → Binding → Option Binding
  | wanted :: wanteds, offered :: offereds, b =>
    (unify store params wanted offered b).bind (unifyAll store params wanteds offereds)
  | _, _, b => some b

end

/-- Unifies a wanted type with an offered one, which must then be assignable to it. -/
def fit (store : Store) (params : List String) (wanted offered : JavaType) (b : Binding) :
    Search :=
  match store.unify params wanted offered b with
  | none => .failed
  | some b =>
    match store.assignable (b.substitute wanted) offered with
    | none => .endless
    | some (.ok true) => .found b
    | some _ => .failed

theorem fit_eq_found {store : Store} {params : List String} {wanted offered : JavaType}
    {b b' : Binding} : store.fit params wanted offered b = .found b'
      ↔ store.unify params wanted offered b = some b'
        ∧ store.assignable (b'.substitute wanted) offered = some (.ok true) := by
  unfold fit
  cases store.unify params wanted offered b with
  | none => simp
  | some c =>
    dsimp only
    constructor
    · intro h
      split at h
      · cases h
      · next hassignable =>
        cases h
        exact ⟨rfl, hassignable⟩
      · cases h
    · rintro ⟨hc, hassignable⟩
      cases hc
      rw [hassignable]

theorem fit_eq_endless {store : Store} {params : List String} {wanted offered : JavaType}
    {b : Binding} : store.fit params wanted offered b = .endless
      ↔ ∃ b', store.unify params wanted offered b = some b'
        ∧ store.assignable (b'.substitute wanted) offered = none := by
  unfold fit
  cases store.unify params wanted offered b with
  | none => simp
  | some c =>
    simp only [Option.some.injEq, exists_eq_left']
    split <;> simp_all

/-- Fits wanted parameters to offered ones in order. -/
def fitAll (store : Store) (params : List String) :
    List JavaType → List JavaType → Binding → Search
  | wanted :: wanteds, offered :: offereds, b =>
    (store.fit params wanted offered b).andThen (store.fitAll params wanteds offereds)
  | _, _, b => .found b

@[simp] theorem fitAll_nil_left {store : Store} {params : List String} {offereds : List JavaType} :
    store.fitAll params [] offereds = .found := funext fun _ => rfl

@[simp] theorem fitAll_cons {store : Store} {params : List String} {wanted offered : JavaType}
    {wanteds offereds : List JavaType} :
    store.fitAll params (wanted :: wanteds) (offered :: offereds)
      = fun b => (store.fit params wanted offered b).andThen
          (store.fitAll params wanteds offereds) :=
  funext fun _ => rfl

/-- Fits the result of a method. -/
def fitResult (store : Store) (params : List String) (wanted offered : JavaType) (b : Binding) :
    Search :=
  if wanted.isPrimitiveOrVoid then if wanted = offered then .found b else .failed
  else store.fit params wanted offered b

/-- The binding under which a candidate implements a wanted method. -/
def accept (store : Store) (params : List String) (wanted : WantedMethod)
    (candidate : MethodDef) (b : Binding) : Search :=
  (store.fitResult params wanted.returnType candidate.returnType b).andThen
    (store.fitAll params wanted.params candidate.params)

/-- The methods of a class that may implement one of an interface. -/
def candidates (store : Store) (className : String) : Except TypeFault (List MethodDef) := do
  let methods ← store.methods className
  return (methods.filter MethodDef.isInstanceApi).map MethodDef.eraseTypeParams

/-- Whether name and arity of a candidate are the wanted ones. -/
def WantedMethod.isNamedLike (wanted : WantedMethod) (candidate : MethodDef) : Bool :=
  candidate.name = wanted.name && candidate.params.length = wanted.arity

/-- The binding after a wanted method: that of the first candidate accepted. -/
def implement (store : Store) (params : List String) (offered : List MethodDef)
    (wanted : WantedMethod) (b : Binding) : Search :=
  Search.firstOf (fun candidate => store.accept params wanted candidate b)
    (offered.filter (WantedMethod.isNamedLike wanted))

/-- The binding after all wanted methods, each under the binding left by those before. -/
def implementAll (store : Store) (params : List String) (offered : List MethodDef) :
    List WantedMethod → Binding → Search
  | [], b => .found b
  | wanted :: others, b =>
    (store.implement params offered wanted b).andThen (store.implementAll params offered others)

/-- The search for values of the interface's type parameters under which the class conforms to
it. -/
def search (store : Store) (className : String) (interface : InterfaceDescriptor) : Search :=
  if interface.methods.isEmpty then .failed
  else
    match store.candidates className with
    | .error _ => .failed
    | .ok offered =>
      store.implementAll interface.typeParams offered interface.methods Binding.empty

/-- The values of the interface's type parameters under which the class conforms to it, if the
search ends and finds them. -/
def matchClass (store : Store) (className : String) (interface : InterfaceDescriptor) :
    Option Binding :=
  (store.search className interface).binding?

theorem matchClass_eq_some {store : Store} {className : String} {interface : InterfaceDescriptor}
    {b : Binding} : store.matchClass className interface = some b
      ↔ store.search className interface = .found b :=
  Search.binding?_eq_some

end Store

end Conformance
