import Conformance.Proofs.Acceptance

/-!
# Results that are boxed

In an override a reference type stands for a reference type. A match does not ask for that: the
result of a candidate has to be assignable to the wanted one, as a value would, and a value of a
primitive type is boxed on the way. Where a type parameter would have to be bound to a primitive
type the candidate is rejected, and an array or a variable has no primitive type below it. So there
is one case in which a method without a reference as its result is taken for one with: it has a
primitive result, a class type is wanted, and the wrapper class of the one is below the other
(`Boxes`, `fit_iff_boxes`). Nothing is bound then.

In all other cases the result of the method that settles a wanted one is a reference type
(`matchClass_result`).
-/

namespace Conformance

open JavaType

/-- In a binding of what type arguments can be, what is wanted stays something. -/
theorem Binding.Proper.substitute_ne_void {params : List String} {b : Binding}
    (hb : b.Proper params) {t : JavaType} (ht : t.isPrimitiveOrVoid = false) :
    b.substitute t ≠ .void := by
  intro h
  cases t with
  | typeVar x =>
    rw [substitute, JavaType.substitute] at h
    cases hx : b.find? x with
    | none => simp [hx] at h
    | some u =>
      rw [hx, Option.getD_some] at h
      have := hb.bindable x u hx
      rw [h] at this
      cases this
  | classType name arguments =>
    rw [substitute, substitute_classType] at h
    cases h
  | void => cases ht
  | _ => cases h

namespace Store

variable {store : Store} {params : List String} {b b' : Binding}

/-- A primitive result is taken for one of a class type, since its wrapper class is below it. -/
def Boxes (store : Store) (b : Binding) (wanted result : JavaType) : Prop :=
  ∃ p name arguments, result = primitive p ∧ wanted = classType name arguments
    ∧ store.Passes b (wanted, raw p.wrapper)

/-! ## Comparing with a primitive type -/

/-- Where something is wanted, nothing is not assignable. -/
theorem not_assignable_void {t : JavaType} (ht : t ≠ .void) :
    store.assignable t .void ≠ some (.ok true) := by
  rw [assignable_eq]
  unfold assignableOver
  rw [if_neg ht]
  cases t <;> simp

/-- A primitive type is compared with a class type by its wrapper class. -/
theorem passes_primitive {name : String} {arguments : List JavaType} {p : Primitive} :
    store.Passes b (classType name arguments, primitive p)
      ↔ store.Passes b (classType name arguments, raw p.wrapper) := by
  rw [Passes, Passes, Binding.substitute, substitute_classType, assignable_eq]
  unfold assignableOver
  rw [if_neg (by simp)]
  rfl

/-- Of the types that are no primitive ones only classes have primitive types below them. -/
theorem exists_classType_of_assignable {t : JavaType} {p : Primitive}
    (ht : t.isPrimitiveOrVoid = false) (h : store.assignable t (primitive p) = some (.ok true)) :
    ∃ name arguments, t = classType name arguments := by
  cases t with
  | classType name arguments => exact ⟨name, arguments, rfl⟩
  | void => cases ht
  | primitive q => cases ht
  | _ =>
    rw [assignable_eq] at h
    unfold assignableOver at h
    rw [if_neg (by simp)] at h
    cases h

/-- Seen as a use of a class, a primitive type is none, and so nothing is bound to it. -/
theorem unify_primitive (name : String) (arguments : List JavaType) (p : Primitive) (b : Binding) :
    store.unify params (classType name arguments) (primitive p) b = some b := by
  have habove : store.supertypes (primitive p) = [] := by
    rw [supertypes, walk]
    rfl
  have hview : store.supertypeView (primitive p) name = .ok none := by
    rw [supertypeView, habove]
    rfl
  unfold unify
  rw [hview]
  split <;> rfl

/-- No parameter is bound to a primitive type, and a variable that is no parameter has none below
it. -/
theorem not_fit_typeVar {x : String} {p : Primitive} (hb : b.Proper params) :
    store.fit params (typeVar x) (primitive p) b ≠ .found b' := by
  intro h
  obtain ⟨hunify, hpasses⟩ := fit_eq_found.mp h
  unfold unify at hunify
  split at hunify
  · cases hunify
  · next hx =>
    cases hunify
    have hnone : b.find? x = none := Option.eq_none_iff_forall_not_mem.mpr fun u hu =>
      hx (by simpa using hb.param x u hu)
    rw [Binding.substitute, substitute, hnone, Option.getD_none] at hpasses
    obtain ⟨name, arguments, heq⟩ := exists_classType_of_assignable rfl hpasses
    cases heq

/-- **When a result that is no reference fits a reference.** Nothing is bound to it, and its wrapper
class has to be below the wanted class. -/
theorem fit_iff_boxes {wanted offered : JavaType} (hb : b.Proper params)
    (hwanted : wanted.isPrimitiveOrVoid = false) (ho : offered.isPrimitiveOrVoid = true) :
    store.fit params wanted offered b = .found b' ↔ b' = b ∧ store.Boxes b wanted offered := by
  constructor
  · intro h
    obtain ⟨hunify, hpasses⟩ := fit_eq_found.mp h
    have hproper : b'.Proper params := unify_proper hunify hb
    cases offered with
    | void => exact absurd hpasses (not_assignable_void (hproper.substitute_ne_void hwanted))
    | primitive p =>
      cases wanted with
      | classType name arguments =>
        rw [unify_primitive, Option.some.injEq] at hunify
        subst hunify
        exact ⟨rfl, p, name, arguments, rfl, rfl, passes_primitive.mp hpasses⟩
      | typeVar x => exact absurd h (not_fit_typeVar hb)
      | void => cases hwanted
      | primitive q => cases hwanted
      | _ =>
        -- an array or a wildcard stays one under a binding, and has no primitive type below it
        obtain ⟨name, arguments, heq⟩ := exists_classType_of_assignable rfl hpasses
        cases heq
    | _ => cases ho
  · rintro ⟨rfl, p, name, arguments, rfl, rfl, hpasses⟩
    exact fit_eq_found.mpr ⟨unify_primitive name arguments p b', passes_primitive.mpr hpasses⟩

/-! ## The results of a match -/

section Turn

variable {offered : List MethodDef} {wanted : WantedMethod} {accepted : MethodDef}
  (h : store.Turn params offered wanted b b' accepted)
  (hreference : wanted.returnType.isPrimitiveOrVoid = false)
include h hreference

/-- When a method has its turn that wants a reference, the result is fitted before anything else. -/
theorem Turn.fits_result : ∃ b₀,
    store.fit params wanted.returnType accepted.returnType b = .found b₀ ∧ b₀ ≤ b' := by
  have hfits := (accept_eq_found.mp h.accepts).2
  rw [WantedMethod.comparedWith, if_neg (by simp [hreference]), fitPairs,
    Search.andThen_eq_found] at hfits
  obtain ⟨b₀, hresult, hparams⟩ := hfits
  exact ⟨b₀, hresult, (settling_unifyPairs _).grows (unifyPairs_of_fitPairs hparams)⟩

/-- Where comparisons stay, the result fits under all bindings that come later. -/
theorem Turn.passes_later (hstore : store.ClosedSupertypes) (hb : b.Closed params)
    (ho : ∀ t ∈ accepted.returnType :: accepted.params, ∀ y ∈ params, t.mentions y = false)
    {later : Binding} (hlater : b'.Grows params later) :
    store.Passes later (wanted.returnType, accepted.returnType) := by
  have hprovides := (accept_grows hstore h.accepts hb h.mem.2 ho).2 later hlater
  have hresult := hprovides.result
  rwa [if_neg (by simp [hreference])] at hresult

end Turn

/-- **A reference is wanted, a reference is offered, or a primitive type is boxed.** Each method of
the interface with a reference as its result has a candidate of its name and its arity whose result
is assignable to what is wanted when it has its turn, and also in the end where comparisons stay.
This result is a reference, unless it is a primitive type whose wrapper class is below the wanted
class. -/
theorem matchClass_result {className : String} {i : InterfaceDescriptor} {wanted : WantedMethod}
    (h : store.matchClass className i = some b) (hwanted : wanted ∈ i.methods)
    (hreference : wanted.returnType.isPrimitiveOrVoid = false) :
    ∃ methods m b₀, store.methods className = .ok methods ∧ m ∈ methods ∧ m.isInstanceApi = true
      ∧ m.name = wanted.name ∧ m.params.length = wanted.arity
      ∧ b₀ ≤ b ∧ store.Passes b₀ (wanted.returnType, m.eraseTypeParams.returnType)
      ∧ (store.ClosedSupertypes → store.OffersFree className i.typeParams →
        store.Passes b (wanted.returnType, m.eraseTypeParams.returnType))
      ∧ (m.eraseTypeParams.returnType.isPrimitiveOrVoid = true
        ↔ store.Boxes b₀ wanted.returnType m.eraseTypeParams.returnType) := by
  obtain ⟨offered, hoffered, hall⟩ := matchClass_eq_ok h
  obtain ⟨methods, hmethods, rfl⟩ := candidates_eq_ok.mp hoffered
  obtain ⟨before, after, hsplit⟩ := List.append_of_mem hwanted
  rw [hsplit] at hall
  obtain ⟨b₁, b₂, accepted, hbefore, hturn, hafter⟩ := implementAll_split hall
  obtain ⟨hmem, hlike⟩ := hturn.mem
  obtain ⟨m, hm, rfl⟩ := List.mem_map.mp hmem
  rw [isNamedLike_iff] at hlike
  obtain ⟨b₀, hfit, hle⟩ := hturn.fits_result hreference
  refine ⟨methods, m, b₀, hmethods, List.mem_of_mem_filter hm, List.of_mem_filter hm, hlike.1,
    ?_, le_trans hle (le_of_implementAll hafter), (fit_eq_found.mp hfit).2, fun hstore hfree => ?_,
    fun hprim => ?_, ?_⟩
  · have hlength : m.eraseTypeParams.params.length = m.params.length := by
      rw [MethodDef.eraseTypeParams, MethodDef.substitute, substituteAll_eq_map, List.length_map]
    exact hlength.symm.trans hlike.2
  · -- the bindings before and behind the turn are closed, and so the comparison stays
    have ho : ∀ n ∈ (methods.filter MethodDef.isInstanceApi).map MethodDef.eraseTypeParams,
        ∀ t ∈ n.returnType :: n.params, ∀ y ∈ i.typeParams, t.mentions y = false := by
      intro n hn
      obtain ⟨n, hfiltered, rfl⟩ := List.mem_map.mp hn
      exact hfree methods hmethods n (List.mem_of_mem_filter hfiltered)
        (List.of_mem_filter hfiltered)
    have hclosed := (implementAll_grows hstore hbefore Binding.closed_empty ho).1.closed
    have hnext := (accept_grows hstore hturn.accepts hclosed hturn.mem.2 (ho _ hmem)).1.closed
    exact hturn.passes_later hreference hstore hclosed (ho _ hmem)
      (implementAll_grows hstore hafter hnext ho).1
  · have hproper := proper_implementAll hbefore Binding.proper_empty
    obtain ⟨rfl, hboxes⟩ := (fit_iff_boxes hproper hreference hprim).mp hfit
    exact hboxes
  · rintro ⟨p, name, arguments, heq, -⟩
    rw [heq]
    rfl

/-! ### Counting -/

/-- The interface that wants `Integer getCount()`. -/
def wantsCount : InterfaceDescriptor where
  name := "p.Counted"
  typeParams := []
  methods := [{ name := "getCount", params := [], returnType := integer }]
  origin := .classpath

/-- A class `K` with a method `getCount` of a given result. -/
def countStore (result : JavaType) : Store :=
  Store.empty.insertAll
    [ { name := objectName, kind := .plainClass },
      { name := "java.lang.Integer", kind := .plainClass, superClass := some object },
      { name := "p.K"
        kind := .plainClass
        superClass := some object
        methods := [{ name := "getCount", params := [], returnType := result }] } ]

theorem matchClass_countStore {n : Nat} {result : JavaType}
    (hmethods : (countStore result).methods "p.K"
      = .ok [{ name := "getCount", params := [], returnType := result }])
    (h : (countStore result).assignableWithin n integer result = some (.ok true)) :
    (countStore result).matchClass "p.K" wantsCount = some Binding.empty := by
  have hoffered : (countStore result).candidates "p.K"
      = .ok [{ name := "getCount", params := [], returnType := result }] :=
    candidates_eq_ok.mpr ⟨_, hmethods, by
      simp [MethodDef.isInstanceApi, MethodDef.eraseTypeParams_eq_self]⟩
  have hfit : (countStore result).fit [] integer result Binding.empty = .found Binding.empty :=
    fit_of_within (n := n) rfl h
  have hreference : integer.isPrimitiveOrVoid = false := rfl
  rw [matchClass_eq_some, search, if_neg (by decide), hoffered]
  simp [wantsCount, implementAll, implement, WantedMethod.isNamedLike, WantedMethod.arity, accept,
    fitResult, hreference, hfit]

/-- A class with `Integer getCount()` has an `Integer` for the interface. -/
theorem integerStore_result :
    (countStore integer).matchClass "p.K" wantsCount = some Binding.empty
      ∧ ⟨"getCount", integer, []⟩ ∈ wantsCount.methods
      ∧ ∃ methods m, (countStore integer).methods "p.K" = .ok methods ∧ m ∈ methods
        ∧ m.isInstanceApi = true ∧ m.name = "getCount" ∧ m.params.length = 0
        ∧ m.eraseTypeParams.returnType.isPrimitiveOrVoid = false
        ∧ (countStore integer).Passes Binding.empty (integer, m.eraseTypeParams.returnType) := by
  have hmethods : (countStore integer).methods "p.K"
      = .ok [{ name := "getCount", params := [], returnType := integer }] := by decide +kernel
  have hmatch := matchClass_countStore (n := 1) hmethods (by decide)
  have hmem : ⟨"getCount", integer, []⟩ ∈ wantsCount.methods := List.mem_singleton_self _
  obtain ⟨methods, m, b₀, hm, hin, hinstance, hname, harity, hle, hpasses, -, -⟩ :=
    matchClass_result hmatch hmem rfl
  obtain rfl : b₀ = Binding.empty := le_antisymm hle (Binding.empty_le b₀)
  refine ⟨hmatch, hmem, methods, m, hm, hin, hinstance, hname, harity, ?_, hpasses⟩
  rw [hmethods, Except.ok.injEq] at hm
  subst hm
  rw [List.mem_singleton.mp hin, MethodDef.eraseTypeParams_eq_self rfl]
  rfl

/-- **A class with `int getCount()` is taken for one with `Integer getCount()`.** It has no method
of this name with a reference as its result. -/
theorem intStore_boxes :
    (countStore (primitive .int)).matchClass "p.K" wantsCount = some Binding.empty
      ∧ ∀ methods, (countStore (primitive .int)).methods "p.K" = .ok methods →
        ∀ m ∈ methods, m.name = "getCount" → m.eraseTypeParams.returnType = primitive .int := by
  have hmethods : (countStore (primitive .int)).methods "p.K"
      = .ok [{ name := "getCount", params := [], returnType := primitive .int }] := by
    decide +kernel
  refine ⟨matchClass_countStore (n := 2) hmethods (by decide), fun methods hm m hin _ => ?_⟩
  rw [hmethods, Except.ok.injEq] at hm
  subst hm
  rw [List.mem_singleton.mp hin, MethodDef.eraseTypeParams_eq_self rfl]

end Store

end Conformance
