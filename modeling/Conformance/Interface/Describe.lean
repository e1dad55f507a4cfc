import Conformance.Interface.Descriptor
import Conformance.Store.Hierarchy

/-!
# Describing an interface

The methods of an interface are its own and those of the interfaces above it, each seen with
the type arguments that lead to it. The interfaces are visited depth first, in the order in
which they are named, and each name once. Of two methods with the same name and parameter
types the one met first stays. Methods that every object has are nobody's to provide.

The visit keeps a stack of the interfaces that are still to come. It ends because each
interface that adds to the stack is stored and was not visited before.
-/

namespace Conformance

namespace Store

/-- The interfaces that a definition names, as seen in a use of it: the name of each, and
what its own type parameters stand for there. -/
def superInterfaceUses (store : Store) (d : ClassDef) (s : Substitution) :
    List (String × Substitution) :=
  d.interfaces.filterMap fun type =>
    match type.substitute s with
    | .classType name arguments =>
      some (name, (store.find? name).elim (fun _ => none) (·.instantiation arguments))
    | _ => none

/-- The stored interfaces met from a stack of interfaces to visit, with what their type
parameters stand for. -/
def interfaceVisits (store : Store) (visited : List String) :
    List (String × Substitution) → List (ClassDef × Substitution)
  | [] => []
  | (name, s) :: stack =>
    if _hn : name ∈ visited then store.interfaceVisits visited stack
    else
      match _hd : store.find? name with
      | none => store.interfaceVisits (name :: visited) stack
      | some d =>
        (d, s) :: store.interfaceVisits (name :: visited) (store.superInterfaceUses d s ++ stack)
termination_by stack => (store.unseen visited, stack.length)
decreasing_by
  · exact Prod.Lex.right _ (by simp)
  · rcases Nat.lt_or_eq_of_le (unseen_cons_le store visited name) with h | h
    · exact Prod.Lex.left _ _ h
    · rw [h]
      exact Prod.Lex.right _ (by simp)
  · exact Prod.Lex.left _ _ (unseen_cons_lt _hd _hn)

end Store

/-- The methods that a use of a definition asks for. -/
def ClassDef.wantedMethods (d : ClassDef) (s : Substitution) : List WantedMethod :=
  let seen := (d.methods.filter MethodDef.isInstanceApi).map fun m => m.eraseTypeParams.substitute s
  (seen.filter (!·.isObjectMethod)).map fun m =>
    { name := m.name, returnType := m.returnType, params := m.params }

/-- Whether two methods would be the same one to a caller. -/
def WantedMethod.sameSignature (m n : WantedMethod) : Bool := m.name = n.name && m.params = n.params

/-- The list without those elements that an earlier one stands for. -/
def keepFirst {α : Type} (same : α → α → Bool) : List α → List α
  | [] => []
  | a :: others => a :: (keepFirst same others).filter (!same a ·)

/-- What a class has to provide for the interface of a given name. -/
def Store.describe (store : Store) (name : String) (origin : InterfaceOrigin) :
    Option InterfaceDescriptor := do
  let d ← store.find? name
  if d.isInterface then
    let visits := store.interfaceVisits [] [(name, fun _ => none)]
    let methods := visits.flatMap fun (d, s) => d.wantedMethods s
    some {
      name := d.name
      typeParams := d.typeParamNames
      methods := keepFirst WantedMethod.sameSignature methods
      origin }
  else none

end Conformance
