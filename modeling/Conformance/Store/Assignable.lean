import Conformance.Store.Hierarchy

/-!
# Assignability

Whether a value of one type may be used where another is expected. Primitive values widen,
box and unbox; arrays of references are covariant; a class is assignable to whatever lies
above it, with type arguments compared by containment. A raw type is assignable to and from
every use of its class.

Comparing type arguments leads back to comparing types, and a wildcard with a lower bound
exchanges the two sides, so neither side need get smaller. The rules are therefore written
over a relation `assign` for the comparisons one level down, and `assignable` is the least
answer that agrees with them: a comparison that leads to ever new ones has none.
-/

namespace Conformance

/-- The answer to a question about types, a fault included; `none` stands for a question that
leads to ever new ones. -/
abbrev Verdict := Option (Except TypeFault Bool)

namespace Store

section OneLevel

variable (store : Store) (assign : JavaType → JavaType → Verdict)

/-- Assignability between type arguments: nothing is boxed there, so a primitive type is
assignable to itself only. -/
def referenceAssignableOver (target candidate : JavaType) : Verdict :=
  match target, candidate with
  | .primitive _, _ | _, .primitive _ => some (.ok (target = candidate))
  | _, _ => assign target candidate

/-- Whether a type argument contains another: a wildcard contains what is within its bound,
any other type contains itself. -/
def containsOver (target argument : JavaType) : Verdict :=
  match target with
  | .wildcard => some (.ok true)
  | .wildcardExtends bound =>
    match argument with
    | .wildcardExtends inner => referenceAssignableOver assign bound inner
    | .wildcard | .wildcardSuper _ => some (.ok bound.isObject)
    | concrete => referenceAssignableOver assign bound concrete
  | .wildcardSuper bound =>
    match argument with
    | .wildcardSuper inner => referenceAssignableOver assign inner bound
    | .wildcard | .wildcardExtends _ => some (.ok false)
    | concrete => referenceAssignableOver assign concrete bound
  | exact => some (.ok (exact = argument))

/-- Whether each type argument contains the one at its place, the first failure deciding. -/
def containsAllOver : List JavaType → List JavaType → Verdict
  | target :: targets, argument :: arguments =>
    match containsOver assign target argument with
    | some (.ok true) => containsAllOver targets arguments
    | other => other
  | _, _ => some (.ok true)

/-- Assignability between class types: `candidate` is seen as a use of the target's class. -/
def subclassOver (target : String) (targetArguments : List JavaType) (candidate : JavaType) :
    Verdict :=
  if target = JavaType.objectName then some (.ok true)
  else
    match store.supertypeView candidate target with
    | .error fault => some (.error fault)
    | .ok (some (.classType _ arguments)) =>
      if targetArguments.isEmpty || arguments.isEmpty then some (.ok true)
      else if targetArguments.length ≠ arguments.length then some (.ok false)
      else containsAllOver assign targetArguments arguments
    | .ok _ => some (.ok false)

/-- The classes above every array type. -/
def arraySupertypes : List String :=
  [JavaType.objectName, "java.lang.Cloneable", "java.io.Serializable"]

/-- The rules of assignability, given the answers one level down. -/
def assignableOver (target candidate : JavaType) : Verdict :=
  if target = candidate then some (.ok true)
  else
    match target, candidate with
    | .void, _ | _, .void => some (.ok false)
    | .primitive t, .primitive c => some (.ok (c.widensTo t))
    | .primitive t, .classType name _ =>
      some (.ok ((Primitive.ofWrapper? name).any fun c => c = t || c.widensTo t))
    | .classType _ _, .primitive _ => assign target candidate.boxed
    | .classType name _, .array _ => some (.ok (arraySupertypes.contains name))
    | .array t, .array c =>
      match t, c with
      | .primitive _, _ | _, .primitive _ => some (.ok (t = c))
      | _, _ => assign t c
    | .array _, _ => some (.ok false)
    | .typeVar name, _ => some (.error (.unboundTypeVariable name))
    | _, .typeVar name =>
      if target.isObject then some (.ok true) else some (.error (.unboundTypeVariable name))
    | .classType name arguments, .classType _ _ => subclassOver store assign name arguments candidate
    | _, _ => some (.ok false)

end OneLevel

/-! ## More answers one level down

An answer that was reached stays when more is answered one level down, which is why there is
a least answer.
-/

section Monotone

variable {f g : JavaType → JavaType → Verdict} (h : ∀ t c, f t c = none ∨ f t c = g t c)
include h

theorem referenceAssignableOver_mono (t c : JavaType) :
    referenceAssignableOver f t c = none
      ∨ referenceAssignableOver f t c = referenceAssignableOver g t c := by
  unfold referenceAssignableOver
  split
  · exact .inr rfl
  · exact .inr rfl
  · exact h t c

theorem containsOver_mono (t a : JavaType) :
    containsOver f t a = none ∨ containsOver f t a = containsOver g t a := by
  unfold containsOver
  repeat' split
  all_goals first | exact .inr rfl | exact referenceAssignableOver_mono h _ _

theorem containsAllOver_mono (ts as : List JavaType) :
    containsAllOver f ts as = none ∨ containsAllOver f ts as = containsAllOver g ts as := by
  fun_induction containsAllOver f ts as with
  | case1 t ts a as hc ih =>
    rw [containsAllOver]
    rcases containsOver_mono h t a with h' | h'
    · simp [h'] at hc
    · rwa [← h', hc]
  | case2 t ts a as hc =>
    rw [containsAllOver]
    rcases containsOver_mono h t a with h' | h'
    · exact .inl h'
    · rw [← h']
      split
      · contradiction
      · exact .inr rfl
  | case3 ts as hn =>
    right
    rw [containsAllOver]
    exact fun t ts' a as' ht ha => hn t ts' a as' ht ha

theorem assignableOver_mono (store : Store) (t c : JavaType) :
    assignableOver store f t c = none ∨ assignableOver store f t c = assignableOver store g t c := by
  unfold assignableOver
  repeat' split
  all_goals first | exact .inr rfl | exact h _ _ | skip
  unfold subclassOver
  repeat' split
  all_goals first | exact .inr rfl | exact containsAllOver_mono h _ _

end Monotone

/-- Whether a value of type `candidate` may be used as one of type `target`, if the comparison
ends. -/
def assignable (store : Store) (target candidate : JavaType) : Verdict :=
  assignableOver store (fun t c => store |>.assignable t c) target candidate
partial_fixpoint monotonicity by
  intro f g hfg target candidate
  have h : ∀ t c, f t c = none ∨ f t c = g t c := by
    intro t c
    have := hfg t c
    generalize f t c = x at this
    generalize g t c = y at this
    cases this with
    | bot => exact .inl rfl
    | refl => exact .inr rfl
  have hover := assignableOver_mono h store target candidate
  dsimp only
  generalize store.assignableOver g target candidate = y at hover
  generalize store.assignableOver f target candidate = x at hover
  rcases hover with rfl | rfl
  · exact .bot
  · exact .refl

/-- Comparing with a raw type leads to no other questions, but for one about a boxed value. -/
theorem isSome_assignableOver_raw (store : Store) {assign : JavaType → JavaType → Verdict}
    {name : String} {candidate : JavaType}
    (hboxed : ∀ p, candidate = .primitive p → (assign (.raw name) candidate.boxed).isSome) :
    (store.assignableOver assign (.raw name) candidate).isSome := by
  change (store.assignableOver assign (.classType name []) candidate).isSome
  unfold assignableOver
  split
  · rfl
  · cases candidate with
    | primitive p => exact hboxed p rfl
    | typeVar x =>
      dsimp only
      split <;> rfl
    | classType other arguments =>
      dsimp only [subclassOver]
      repeat' split
      all_goals rfl
    | _ => rfl

/-- Comparing with a raw type always ends. -/
theorem isSome_assignable_raw (store : Store) (name : String) (candidate : JavaType) :
    (store.assignable (.raw name) candidate).isSome := by
  rw [assignable]
  refine isSome_assignableOver_raw store fun p hp => ?_
  rw [hp, assignable]
  exact isSome_assignableOver_raw store nofun

end Store

end Conformance
