import Conformance.Interface.Match
import Conformance.Proofs.Comparison
import Conformance.Proofs.Stability

/-!
# What a match promises

A class is matched with an interface method by method, and each method is checked under the
binding that there is when its turn comes. Later methods may bind further parameters, so the
question is what the first checks are worth in the end.

The binding only grows, and what it gives to a parameter mentions no parameter (`Grows`). A
check that was passed under one binding is therefore passed under every later one: it is the
old check with the new values put in the place of the variables that were left
(`fit_grows`, by `assignable_substitute`). So the complete binding is right for all methods
together (`matchClass_sound`).
-/

namespace Conformance

open JavaType

/-! ## Bindings that grow -/

namespace Binding

/-- A binding of some type parameters to what type arguments can be. -/
structure Proper (params : List String) (b : Binding) : Prop where
  param : ∀ x u, b.find? x = some u → x ∈ params
  bindable : ∀ x u, b.find? x = some u → u.isBindable = true

/-- A binding of some type parameters to types that mention none of them. -/
structure Closed (params : List String) (b : Binding) : Prop extends Proper params b where
  ground : ∀ x u, b.find? x = some u → ∀ y ∈ params, u.mentions y = false

/-- The second binding has all values of the first, and may have more. -/
structure Grows (params : List String) (b b' : Binding) : Prop where
  keeps : ∀ x u, b.find? x = some u → b'.find? x = some u
  closed : b'.Closed params

variable {params : List String} {b b' b'' : Binding}

theorem proper_empty : Proper params empty := ⟨by simp, by simp⟩

theorem Proper.bind {x : String} {u : JavaType} (hb : b.Proper params) (hx : x ∈ params)
    (hu : u.isBindable = true) (h : b.bind x u = .ok b') : b'.Proper params := by
  refine ⟨fun y v hv => ?_, fun y v hv => ?_⟩
  · rcases eq_or_find?_of_bind h hv with ⟨rfl, -⟩ | hv
    · exact hx
    · exact hb.param y v hv
  · rcases eq_or_find?_of_bind h hv with ⟨-, rfl⟩ | hv
    · exact hu
    · exact hb.bindable y v hv

theorem closed_empty : Closed params empty := ⟨proper_empty, by simp⟩

theorem Closed.refl (h : b.Closed params) : Grows params b b := ⟨fun _ _ h => h, h⟩

theorem Grows.trans (h : Grows params b b') (h' : Grows params b' b'') : Grows params b b'' :=
  ⟨fun x u hx => h'.keeps x u (h.keeps x u hx), h'.closed⟩

/-- A type that mentions no parameter is what it is under every binding. -/
theorem Closed.substitute_eq_self (h : b.Closed params) {t : JavaType}
    (ht : ∀ y ∈ params, t.mentions y = false) : b.substitute t = t := by
  refine JavaType.substitute_eq_self fun x hx => ?_
  cases hb : b.find? x with
  | none => rfl
  | some u =>
    rw [ht x (h.param x u hb)] at hx
    cases hx

/-- Giving values to the parameters that were left is giving values to all at once. -/
theorem Grows.substitute_substitute (h : Grows params b b') (t : JavaType) :
    b'.substitute (b.substitute t) = b'.substitute t := by
  rw [substitute, substitute, JavaType.substitute_substitute]
  refine JavaType.substitute_congr fun x _ => ?_
  rw [Option.getD_some]
  cases hb : b.find? x with
  | none => rfl
  | some u =>
    rw [h.keeps x u hb, Option.getD_some]
    refine h.closed.substitute_eq_self fun y hy => ?_
    exact h.closed.ground x u (h.keeps x u hb) y hy

/-- Binding a parameter to a type without parameters lets the binding grow. -/
theorem grows_of_bind {x : String} {u : JavaType} (hb : b.Closed params) (hx : x ∈ params)
    (hu : u.isBindable = true) (hground : ∀ y ∈ params, u.mentions y = false)
    (h : b.bind x u = .ok b') : Grows params b b' := by
  refine ⟨fun y v hv => ?_, hb.toProper.bind hx hu h, fun y v hv => ?_⟩
  · rw [find?_of_bind h]
    split
    · next hxy =>
      subst hxy
      unfold bind at h
      rw [hv] at h
      dsimp only at h
      split at h
      · next heq => rw [heq]
      · cases h
    · exact hv
  · rcases eq_or_find?_of_bind h hv with ⟨-, rfl⟩ | hv
    · exact hground
    · exact hb.ground y v hv

end Binding

/-- The definition mentions the type variables only that it declares, and no type parameter has
a variable as its first bound. -/
structure ClassDef.DeclaresVariables (d : ClassDef) : Prop where
  supertypes : ∀ u ∈ d.directSupertypes, ∀ x, u.mentions x = true → x ∈ d.typeParamNames
  methods : ∀ m ∈ d.methods, ∀ t ∈ m.returnType :: m.params, ∀ x, t.mentions x = true →
    x ∈ d.typeParamNames ∨ x ∈ m.typeParams.map (·.name)
  bounds : ∀ p ∈ d.typeParams ++ d.methods.flatMap (·.typeParams), ∀ x,
    p.upperBounds.head? ≠ some (typeVar x)

namespace Store

/-! ## What is promised -/

/-- A method may stand for a wanted one as it is seen: they have the same name and as many
parameters, a primitive result or none is the wanted one, any other result is assignable to
the wanted one, and each parameter to the wanted one at its place. -/
structure Provides (store : Store) (view : JavaType → JavaType) (wanted : WantedMethod)
    (offered : MethodDef) : Prop where
  name : offered.name = wanted.name
  result : if wanted.returnType.isPrimitiveOrVoid then wanted.returnType = offered.returnType
    else store.assignable (view wanted.returnType) offered.returnType = some (.ok true)
  params : List.Forall₂ (fun w o => store.assignable (view w) o = some (.ok true))
    wanted.params offered.params

/-- The class is known, and each method that the interface asks for is provided by one of its
instance methods, with the type parameters of the method itself erased. -/
def Conforms (store : Store) (view : JavaType → JavaType) (className : String)
    (interface : InterfaceDescriptor) : Prop :=
  ∃ methods, store.methods className = .ok methods ∧
    ∀ wanted ∈ interface.methods, ∃ m ∈ methods, m.isInstanceApi = true
      ∧ store.Provides view wanted m.eraseTypeParams

/-- No method that the class offers has a type variable that is named like a parameter. -/
def OffersFree (store : Store) (className : String) (params : List String) : Prop :=
  ∀ methods, store.methods className = .ok methods → ∀ m ∈ methods, m.isInstanceApi = true →
    ∀ t ∈ m.eraseTypeParams.returnType :: m.eraseTypeParams.params, ∀ y ∈ params,
      t.mentions y = false

variable {store : Store} {params : List String} {b b' : Binding}

theorem isNamedLike_iff {wanted : WantedMethod} {candidate : MethodDef} :
    WantedMethod.isNamedLike wanted candidate = true
      ↔ candidate.name = wanted.name ∧ candidate.params.length = wanted.params.length := by
  rw [WantedMethod.isNamedLike, Bool.and_eq_true, decide_eq_true_iff, decide_eq_true_iff,
    WantedMethod.arity]

/-! ## What unification keeps -/

/-- A property of an offered type that all types have with which unification goes on from there. -/
structure PassesDown (store : Store) (offer : JavaType → Prop) : Prop where
  view : ∀ t name viewed arguments, offer t →
    store.supertypeView t name = .ok (some (classType viewed arguments)) → ∀ a ∈ arguments, offer a
  element : ∀ t, offer (array t) → offer t
  upper : ∀ t, offer (wildcardExtends t) → offer t
  lower : ∀ t, offer (wildcardSuper t) → offer t

section Keeping

variable {offer : JavaType → Prop} (keeps : Binding → Prop)

theorem unifyAll_keeps {wanteds offereds : List JavaType}
    (ih : ∀ w ∈ wanteds, ∀ o b b', store.unify params w o b = some b' → keeps b → offer o → keeps b')
    (h : store.unifyAll params wanteds offereds b = some b') (hb : keeps b)
    (ho : ∀ o ∈ offereds, offer o) : keeps b' := by
  induction wanteds generalizing offereds b with
  | nil =>
    cases h
    exact hb
  | cons w wanteds ihs =>
    cases offereds with
    | nil =>
      cases h
      exact hb
    | cons o offereds =>
      rw [unifyAll, Option.bind_eq_some_iff] at h
      obtain ⟨b₁, h₁, h⟩ := h
      rw [List.forall_mem_cons] at ih ho
      exact ihs ih.2 h (ih.1 o b b₁ h₁ hb ho.1) ho.2

/-- What is kept when one parameter is bound to an offered type is kept by unification. -/
theorem unify_keeps (hoffer : store.PassesDown offer)
    (hbind : ∀ x u c c', x ∈ params → u.isBindable = true → offer u → keeps c →
      c.bind x u = .ok c' → keeps c')
    {wanted offered : JavaType} (h : store.unify params wanted offered b = some b') (hb : keeps b)
    (ho : offer offered) : keeps b' := by
  induction wanted generalizing offered b b' with
  | typeVar x =>
    unfold unify at h
    split at h
    · next hx =>
      have hbound : offered.isBindable = true ∧ (b.bind x offered).toOption = some b' := by
        cases offered <;> simp_all [isBindable]
      exact hbind x offered b b' (by simpa using hx) hbound.1 ho hb
        (toOption_eq_some_iff.mp hbound.2)
    · cases h
      exact hb
  | classType name arguments ih =>
    unfold unify at h
    split at h
    · cases h
      exact hb
    · split at h
      · next viewed offeredArguments hview =>
        split at h
        · exact unifyAll_keeps keeps (fun w hw o b b' h hb ho => ih w hw h hb ho) h hb
            (hoffer.view offered name viewed offeredArguments ho hview)
        · cases h
          exact hb
      · cases h
        exact hb
  | array element ih =>
    unfold unify at h
    split at h
    · exact ih h hb (hoffer.element _ ho)
    · cases h
      exact hb
  | wildcardExtends bound ih =>
    unfold unify at h
    split at h
    · exact ih h hb (hoffer.upper _ ho)
    · exact ih h hb (hoffer.lower _ ho)
    · cases h
      exact hb
    · exact ih h hb ho
  | wildcardSuper bound ih =>
    unfold unify at h
    split at h
    · exact ih h hb (hoffer.upper _ ho)
    · exact ih h hb (hoffer.lower _ ho)
    · cases h
      exact hb
    · exact ih h hb ho
  | _ =>
    unfold unify at h
    cases h
    exact hb

end Keeping

/-- Unification binds type parameters only, and to nothing but what type arguments can be. -/
theorem unify_proper {wanted offered : JavaType} (h : store.unify params wanted offered b = some b')
    (hb : b.Proper params) : b'.Proper params := by
  have hall : store.PassesDown fun _ => True :=
    ⟨fun _ _ _ _ _ _ _ _ => trivial, fun _ _ => trivial, fun _ _ => trivial, fun _ _ => trivial⟩
  exact unify_keeps (Binding.Proper params) hall
    (fun _ _ _ _ hx hu _ hc hbind => hc.bind hx hu hbind) h hb trivial

/-! ## A check stays passed -/

section Growth

variable (hstore : store.ClosedSupertypes)
include hstore

/-- A view has no variables that the type does not have. -/
theorem passesDown_ground :
    store.PassesDown fun t => ∀ y ∈ params, t.mentions y = false where
  view t name viewed arguments ht hview a ha y hy := by
    by_contra hn
    rw [Bool.not_eq_false] at hn
    have := mentions_supertypes hstore t (mem_supertypes_of_view hview)
      (mentions_classType.mpr ⟨a, ha, hn⟩)
    rw [ht y hy] at this
    cases this
  element _ ht := ht
  upper _ ht := ht
  lower _ ht := ht

/-- Unifying with a type without parameters lets a binding grow. -/
theorem unify_grows {wanted offered : JavaType} (h : store.unify params wanted offered b = some b')
    (hb : b.Closed params) (ho : ∀ y ∈ params, offered.mentions y = false) :
    b.Grows params b' := by
  refine unify_keeps (b.Grows params) (passesDown_ground hstore)
    (fun x u c c' hx hu hground hg hbind => ?_) h hb.refl ho
  exact hg.trans (Binding.grows_of_bind hg.closed hx hu hground hbind)

/-- A type that fits under a binding fits under all that grow from it. -/
theorem fit_grows {wanted offered : JavaType} (h : store.fit params wanted offered b = .found b')
    (hb : b.Closed params) (ho : ∀ y ∈ params, offered.mentions y = false) :
    b.Grows params b' ∧ ∀ b'', b'.Grows params b'' →
      store.assignable (b''.substitute wanted) offered = some (.ok true) := by
  obtain ⟨hunify, hassign⟩ := fit_eq_found.mp h
  refine ⟨unify_grows hstore hunify hb ho, fun b'' hg' => ?_⟩
  -- the values that came later are substituted in the check that was passed
  have := assignable_substitute hstore (fun x u => hg'.closed.bindable x u) hassign
  change store.assignable (b''.substitute (b'.substitute wanted)) (b''.substitute offered)
    = some (.ok true) at this
  rwa [hg'.substitute_substitute, hg'.closed.substitute_eq_self ho] at this

theorem fitAll_grows {wanteds offereds : List JavaType}
    (h : store.fitAll params wanteds offereds b = .found b') (hb : b.Closed params)
    (hlength : wanteds.length = offereds.length)
    (ho : ∀ o ∈ offereds, ∀ y ∈ params, o.mentions y = false) :
    b.Grows params b' ∧ ∀ b'', b'.Grows params b'' →
      List.Forall₂ (fun w o => store.assignable (b''.substitute w) o = some (.ok true))
        wanteds offereds := by
  induction wanteds generalizing offereds b with
  | nil =>
    cases List.length_eq_zero_iff.mp hlength.symm
    cases h
    exact ⟨hb.refl, fun _ _ => .nil⟩
  | cons w wanteds ih =>
    cases offereds with
    | nil => cases hlength
    | cons o offereds =>
      rw [fitAll, Search.andThen_eq_found] at h
      obtain ⟨b₁, hfit, h⟩ := h
      rw [List.forall_mem_cons] at ho
      obtain ⟨hg, hhead⟩ := fit_grows hstore hfit hb ho.1
      obtain ⟨hg', htail⟩ := ih h hg.closed (Nat.succ.inj hlength) ho.2
      exact ⟨hg.trans hg', fun b'' hg'' => .cons (hhead b'' (hg'.trans hg'')) (htail b'' hg'')⟩

/-- A candidate that is accepted under a binding provides for the wanted method under all
that grow from it. -/
theorem accept_grows {wanted : WantedMethod} {candidate : MethodDef}
    (h : store.accept params wanted candidate b = .found b') (hb : b.Closed params)
    (hlike : WantedMethod.isNamedLike wanted candidate = true)
    (ho : ∀ o ∈ candidate.returnType :: candidate.params, ∀ y ∈ params, o.mentions y = false) :
    b.Grows params b' ∧ ∀ b'', b'.Grows params b'' →
      store.Provides b''.substitute wanted candidate := by
  rw [isNamedLike_iff] at hlike
  rw [List.forall_mem_cons] at ho
  obtain ⟨b₁, hresult, hparams⟩ := Search.andThen_eq_found.mp h
  -- the result is settled before the parameters
  have hres : b.Grows params b₁ ∧ ∀ b'', b₁.Grows params b'' →
      if wanted.returnType.isPrimitiveOrVoid then wanted.returnType = candidate.returnType
      else store.assignable (b''.substitute wanted.returnType) candidate.returnType
        = some (.ok true) := by
    unfold fitResult at hresult
    split at hresult
    · next hprim =>
      split at hresult
      · next heq =>
        cases hresult
        exact ⟨hb.refl, fun _ _ => by rw [if_pos hprim]; exact heq⟩
      · cases hresult
    · next hprim =>
      obtain ⟨hg, hfit⟩ := fit_grows hstore hresult hb ho.1
      exact ⟨hg, fun b'' hg' => by rw [if_neg hprim]; exact hfit b'' hg'⟩
  obtain ⟨hg, hresult⟩ := hres
  obtain ⟨hg', hparams⟩ := fitAll_grows hstore hparams hg.closed hlike.2.symm ho.2
  exact ⟨hg.trans hg', fun b'' hg'' =>
    ⟨hlike.1, hresult b'' (hg'.trans hg''), hparams b'' hg''⟩⟩

/-- The methods settled one after the other are all provided under the last binding. -/
theorem implementAll_grows {offered : List MethodDef} {wanteds : List WantedMethod}
    (h : store.implementAll params offered wanteds b = .found b') (hb : b.Closed params)
    (ho : ∀ m ∈ offered, ∀ o ∈ m.returnType :: m.params, ∀ y ∈ params, o.mentions y = false) :
    b.Grows params b' ∧ ∀ b'', b'.Grows params b'' →
      ∀ wanted ∈ wanteds, ∃ m ∈ offered, store.Provides b''.substitute wanted m := by
  induction wanteds generalizing b with
  | nil =>
    cases h
    exact ⟨hb.refl, by simp⟩
  | cons w wanteds ih =>
    rw [implementAll, Search.andThen_eq_found] at h
    obtain ⟨b₁, himplement, h⟩ := h
    obtain ⟨m, hm, haccept⟩ := Search.exists_of_firstOf_eq_found himplement
    rw [List.mem_filter] at hm
    obtain ⟨hg, hprovides⟩ := accept_grows hstore haccept hb hm.2 (ho m hm.1)
    obtain ⟨hg', hothers⟩ := ih h hg.closed
    refine ⟨hg.trans hg', fun b'' hg'' => ?_⟩
    rw [List.forall_mem_cons]
    exact ⟨⟨m, hm.1, hprovides b'' (hg'.trans hg'')⟩, hothers b'' hg''⟩

end Growth

theorem methods_eq_ok {className : String} :
    (∃ methods, store.methods className = .ok methods) ↔ store.contains className = true := by
  unfold methods contains require
  cases store.find? className <;> simp [bind, Except.bind, pure, Except.pure]

theorem candidates_eq_ok {className : String} {offered : List MethodDef} :
    store.candidates className = .ok offered ↔ ∃ methods, store.methods className = .ok methods
      ∧ offered = (methods.filter MethodDef.isInstanceApi).map MethodDef.eraseTypeParams := by
  unfold candidates
  cases store.methods className with
  | error fault => simp [bind, Except.bind]
  | ok methods => simp [bind, Except.bind, pure, Except.pure, eq_comm]

/-- **The complete binding is right for all methods together.** If a class matches an
interface and its methods have no variables that are named like type parameters of the
interface, then under the binding of the match each wanted method is provided by a method of
the class. -/
theorem matchClass_sound (hstore : store.ClosedSupertypes) {className : String}
    {interface : InterfaceDescriptor} (hfree : store.OffersFree className interface.typeParams)
    (h : store.matchClass className interface = some b) :
    store.Conforms b.substitute className interface := by
  rw [matchClass_eq_some, search] at h
  split at h
  · cases h
  · split at h
    · cases h
    · next offered hoffered =>
      obtain ⟨methods, hmethods, rfl⟩ := candidates_eq_ok.mp hoffered
      obtain ⟨hg, hprovides⟩ := implementAll_grows hstore h Binding.closed_empty (by
        intro m hm
        obtain ⟨n, hn, rfl⟩ := List.mem_map.mp hm
        exact hfree methods hmethods n (List.mem_of_mem_filter hn) (List.of_mem_filter hn))
      refine ⟨methods, hmethods, fun wanted hwanted => ?_⟩
      obtain ⟨m, hm, hp⟩ := hprovides b hg.closed.refl wanted hwanted
      obtain ⟨n, hn, rfl⟩ := List.mem_map.mp hm
      exact ⟨n, List.mem_of_mem_filter hn, List.of_mem_filter hn, hp⟩

/-! ### Conformance on two methods

A class with methods `get` and `other` is compared with an interface `I<E>` that wants the same
methods, `other` with the result `E`.
-/

/-- The methods `get` and `other` with given results. -/
def getAndOther (get other : JavaType) : List MethodDef :=
  [ { name := "get", params := [], returnType := get },
    { name := "other", params := [], returnType := other } ]

/-- The interface `I<E>` that wants `get` with a given result and `other` with the result `E`. -/
def wantsGetAndOther (get : JavaType) : InterfaceDescriptor where
  name := "p.I"
  typeParams := ["E"]
  methods :=
    [ { name := "get", params := [], returnType := get },
      { name := "other", params := [], returnType := typeVar "E" } ]
  origin := .classpath

theorem fit_of_within {n : Nat} {wanted offered : JavaType}
    (hunify : store.unify params wanted offered b = some b')
    (h : store.assignableWithin n (b'.substitute wanted) offered = some (.ok true)) :
    store.fit params wanted offered b = .found b' :=
  fit_eq_found.mpr ⟨hunify, assignable_of_within h⟩

section GetAndOther

variable {className : String} {wanted get other : JavaType}
  (hmethods : store.methods className = .ok (getAndOther get other))
include hmethods

theorem candidates_getAndOther : store.candidates className = .ok (getAndOther get other) := by
  refine candidates_eq_ok.mpr ⟨_, hmethods, ?_⟩
  simp [getAndOther, MethodDef.isInstanceApi, MethodDef.eraseTypeParams_eq_self]

/-- The types of `get` are fitted first, and those of `other` under the binding that they leave. -/
theorem search_getAndOther (hwanted : wanted.isPrimitiveOrVoid = false) :
    store.search className (wantsGetAndOther wanted)
      = (store.fit ["E"] wanted get Binding.empty).andThen (store.fit ["E"] (typeVar "E") other) := by
  have hvar : (typeVar "E").isPrimitiveOrVoid = false := rfl
  unfold search
  rw [candidates_getAndOther hmethods]
  simp [wantsGetAndOther, getAndOther, implementAll, implement, WantedMethod.isNamedLike,
    WantedMethod.arity, accept, fitResult, hwanted, hvar]

theorem matchClass_getAndOther (hwanted : wanted.isPrimitiveOrVoid = false)
    (hget : store.fit ["E"] wanted get Binding.empty = .found Binding.empty)
    (hother : store.fit ["E"] (typeVar "E") other Binding.empty = .found b) :
    store.matchClass className (wantsGetAndOther wanted) = some b := by
  rw [matchClass_eq_some, search_getAndOther hmethods hwanted, hget, Search.andThen_found, hother]

theorem not_conforms_getAndOther (hwanted : wanted.isPrimitiveOrVoid = false)
    (hget : store.assignable (b.substitute wanted) get ≠ some (.ok true)) :
    ¬ store.Conforms b.substitute className (wantsGetAndOther wanted) := by
  rintro ⟨methods, hm, hprovides⟩
  rw [hmethods] at hm
  cases hm
  obtain ⟨m, hm, -, hp⟩ := hprovides _ (List.mem_cons_self ..)
  -- only the method of the same name may provide for `get`
  have hname := hp.name
  have hresult := hp.result
  rw [if_neg (by simp [hwanted])] at hresult
  simp only [getAndOther, List.mem_cons, List.not_mem_nil, or_false] at hm
  rcases hm with rfl | rfl
  · rw [MethodDef.eraseTypeParams_eq_self rfl] at hresult
    exact hget hresult
  · rw [MethodDef.eraseTypeParams_eq_self rfl] at hname
    simp at hname

theorem offersFree_getAndOther (hget : get.mentions "E" = false) (hother : other.mentions "E" = false) :
    store.OffersFree className ["E"] := by
  intro methods hm
  rw [hmethods] at hm
  cases hm
  simp [getAndOther, MethodDef.eraseTypeParams_eq_self, hget, hother]

end GetAndOther

/-- A binding of a single parameter. -/
def single (x : String) (t : JavaType) : Binding := ⟨Binding.empty.entries.insert x t⟩

theorem unify_single {offered : JavaType} (ho : offered.isBindable = true) :
    store.unify ["E"] (typeVar "E") offered Binding.empty = some (single "E" offered) := by
  have hbind : (Binding.empty.bind "E" offered).toOption = some (single "E" offered) := by
    simp [Binding.bind, single, Except.toOption]
  unfold unify
  cases offered <;> simp_all [isBindable]

theorem fit_single {n : Nat} {offered : JavaType} (ho : offered.isBindable = true)
    (h : store.assignableWithin n ((single "E" offered).substitute (typeVar "E")) offered
      = some (.ok true)) :
    store.fit ["E"] (typeVar "E") offered Binding.empty = .found (single "E" offered) :=
  fit_of_within (unify_single ho) h

def integer : JavaType := raw "java.lang.Integer"

def string : JavaType := raw "java.lang.String"

def view (seen : JavaType) : JavaType := classType "p.View" [seen]

/-- A class `A<T>` with a given superclass that is a `Foo<Integer>`, and a class `K` that has a
view of a `Foo<Integer>`. -/
def fooClasses (superClass : JavaType) : List ClassDef :=
  [ { name := objectName, kind := .plainClass },
    { name := "p.Foo", kind := .interface, typeParams := [{ name := "X" }] },
    { name := "p.View", kind := .interface, typeParams := [{ name := "V" }] },
    { name := "p.A"
      kind := .plainClass
      typeParams := [{ name := "T" }]
      superClass := some superClass
      interfaces := [classType "p.Foo" [integer]] },
    { name := "p.K"
      kind := .plainClass
      superClass := some object
      methods := getAndOther (view (classType "p.Foo" [integer])) (classType "p.Foo" [string]) } ]

def fooStore (superClass : JavaType) : Store := Store.empty.insertAll (fooClasses superClass)

/-- What `I<E>` wants from `get`: a view of something above an `A<E>`. -/
def wantedFooView : JavaType := view (wildcardSuper (classType "p.A" [typeVar "E"]))

/-- A class that has a view of an `Up<? super E[]>` through a parameter that it leaves out, where
`Down<X>` is below `Up<X>`, and a class `K` with such a view. -/
def arrayClasses : List ClassDef :=
  [ { name := objectName, kind := .plainClass },
    { name := "p.Up", kind := .interface, typeParams := [{ name := "X" }] },
    { name := "p.Down"
      kind := .interface
      typeParams := [{ name := "X" }]
      interfaces := [classType "p.Up" [typeVar "X"]] },
    { name := "p.View", kind := .interface, typeParams := [{ name := "V" }] },
    { name := "p.H"
      kind := .plainClass
      typeParams := [{ name := "E" }, { name := "U", upperBounds := [array (typeVar "E")] }]
      superClass := some object
      interfaces := [view (classType "p.Up" [wildcardSuper (typeVar "U")])] },
    { name := "p.K"
      kind := .plainClass
      superClass := some object
      methods := getAndOther (classType "p.H" [string]) string } ]

def arrayStore : Store := Store.empty.insertAll arrayClasses

/-- What `I<E>` wants from `get`: a view of something above a `Down<E[]>`. -/
def wantedArrayView : JavaType :=
  view (wildcardSuper (classType "p.Down" [array (typeVar "E")]))

/-- A view of an `A<E>` is left open by the first method and settled by the second. -/
theorem fooStore_sound :
    (fooStore object).ClosedSupertypes ∧ (fooStore object).OffersFree "p.K" ["E"]
      ∧ (fooStore object).matchClass "p.K" (wantsGetAndOther wantedFooView)
          = some (single "E" (classType "p.Foo" [string]))
      ∧ (fooStore object).Conforms (single "E" (classType "p.Foo" [string])).substitute "p.K"
          (wantsGetAndOther wantedFooView) := by
  have hclosed : (fooStore object).ClosedSupertypes := by
    intro name d hd
    have hmem := mem_of_find?_insertAll hd
    simp only [fooClasses, List.mem_cons, List.not_mem_nil, or_false] at hmem
    rcases hmem with rfl | rfl | rfl | rfl | rfl <;> constructor <;>
      simp [ClassDef.directSupertypes, ClassDef.isInterface, mentions, mentionsAny, object, raw,
        integer, TypeParam.erasure]
  have hmethods : (fooStore object).methods "p.K"
      = .ok (getAndOther (view (classType "p.Foo" [integer])) (classType "p.Foo" [string])) := by
    decide +kernel
  have hfree := offersFree_getAndOther hmethods rfl rfl
  have hmatch : (fooStore object).matchClass "p.K" (wantsGetAndOther wantedFooView)
      = some (single "E" (classType "p.Foo" [string])) := by
    refine matchClass_getAndOther hmethods rfl ?_ (fit_single (n := 1) rfl (by decide))
    refine fit_of_within (n := 3) ?_ (by decide +kernel)
    have hview : (fooStore object).supertypeView (view (classType "p.Foo" [integer])) "p.View"
        = .ok (some (view (classType "p.Foo" [integer]))) := by decide +kernel
    have hnone : (fooStore object).supertypeView (classType "p.Foo" [integer]) "p.A" = .ok none := by
      decide +kernel
    simp only [view] at hview
    simp [wantedFooView, view, unify, unifyAll, hview, hnone]
  exact ⟨hclosed, hfree, hmatch, matchClass_sound hclosed hfree hmatch⟩

/-- That variables are declared, and bounds are no variables, is not enough. Where a supertype
is a variable, its value may be a nearer use of a class than the one that was found before; and
where a parameter is erased to an array of a variable, that variable is caught when an `E` of the
interface gets its value. -/
theorem complete_binding_fails :
    ((∀ name d, (fooStore (typeVar "T")).find? name = some d → d.DeclaresVariables)
      ∧ (fooStore (typeVar "T")).OffersFree "p.K" ["E"]
      ∧ (fooStore (typeVar "T")).matchClass "p.K" (wantsGetAndOther wantedFooView)
          = some (single "E" (classType "p.Foo" [string]))
      ∧ ¬ (fooStore (typeVar "T")).Conforms (single "E" (classType "p.Foo" [string])).substitute
          "p.K" (wantsGetAndOther wantedFooView))
    ∧ (∀ name d, arrayStore.find? name = some d → d.DeclaresVariables)
      ∧ arrayStore.OffersFree "p.K" ["E"]
      ∧ arrayStore.matchClass "p.K" (wantsGetAndOther wantedArrayView) = some (single "E" string)
      ∧ ¬ arrayStore.Conforms (single "E" string).substitute "p.K"
          (wantsGetAndOther wantedArrayView) := by
  have hfoo : (fooStore (typeVar "T")).methods "p.K"
      = .ok (getAndOther (view (classType "p.Foo" [integer])) (classType "p.Foo" [string])) := by
    decide +kernel
  have harray : arrayStore.methods "p.K" = .ok (getAndOther (classType "p.H" [string]) string) := by
    decide +kernel
  refine ⟨⟨?_, offersFree_getAndOther hfoo rfl rfl, ?_, ?_⟩, ?_,
    offersFree_getAndOther harray rfl rfl, ?_, ?_⟩
  · intro name d hd
    have hmem := mem_of_find?_insertAll hd
    simp only [fooClasses, List.mem_cons, List.not_mem_nil, or_false] at hmem
    rcases hmem with rfl | rfl | rfl | rfl | rfl <;> constructor <;>
      simp [ClassDef.directSupertypes, ClassDef.isInterface, ClassDef.typeParamNames, mentions,
        mentionsAny, object, raw, integer, string, view, getAndOther]
  · refine matchClass_getAndOther hfoo rfl ?_ (fit_single (n := 1) rfl (by decide))
    refine fit_of_within (n := 3) ?_ (by decide +kernel)
    have hview : (fooStore (typeVar "T")).supertypeView (view (classType "p.Foo" [integer])) "p.View"
        = .ok (some (view (classType "p.Foo" [integer]))) := by decide +kernel
    have hnone : (fooStore (typeVar "T")).supertypeView (classType "p.Foo" [integer]) "p.A"
        = .ok none := by decide +kernel
    simp only [view] at hview
    simp [wantedFooView, view, unify, unifyAll, hview, hnone]
  · refine not_conforms_getAndOther hfoo rfl ?_
    rw [assignable_of_within (n := 3) (r := .ok false) (by decide +kernel)]
    decide
  · intro name d hd
    have hmem := mem_of_find?_insertAll hd
    simp only [arrayClasses, List.mem_cons, List.not_mem_nil, or_false] at hmem
    rcases hmem with rfl | rfl | rfl | rfl | rfl | rfl <;> constructor <;>
      simp [ClassDef.directSupertypes, ClassDef.isInterface, ClassDef.typeParamNames, mentions,
        mentionsAny, object, raw, string, view, isObject, getAndOther, objectName]
  · refine matchClass_getAndOther harray rfl ?_ (fit_single (n := 1) rfl (by decide))
    refine fit_of_within (n := 4) ?_ (by decide +kernel)
    have hview : arrayStore.supertypeView (classType "p.H" [string]) "p.View"
        = .ok (some (view (classType "p.Up" [wildcardSuper (array (typeVar "E"))]))) := by
      decide +kernel
    have hnone : arrayStore.supertypeView (classType "p.Up" [wildcardSuper (array (typeVar "E"))])
        "p.Down" = .ok none := by decide +kernel
    simp only [view] at hview
    simp [wantedArrayView, view, unify, unifyAll, hview, hnone]
  · refine not_conforms_getAndOther harray rfl ?_
    rw [assignable_of_within (n := 4) (r := .error (.unboundTypeVariable "E")) (by decide +kernel)]
    decide

end Store

end Conformance
