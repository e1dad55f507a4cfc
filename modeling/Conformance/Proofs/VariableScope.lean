import Conformance.Proofs.Described
import Conformance.Proofs.ParameterNames

/-!
# Type variables in scope

A type variable is a name, and nothing but the place where a type stands says whose variable it is.
Where a type is taken to another place, all that does not belong there has to be replaced: the
parameters of an interface by what its use gives to them, those of a superclass likewise, and those
of a method by their erasures. An erased parameter is its first bound, though, so a variable that
it mentions is left over if it is a parameter as well that is erased at the same time.

In a store in which erasing leaves nothing behind, what an interface asks for mentions the
parameters of the interface only, and what a match binds those to mentions the parameters of the
class (`catalog_closed`). So the clause that the class gets is over its own variables. In other
stores a variable can get out that nobody declares (`wideStore_leaks`).
-/

namespace Conformance

open JavaType

/-! ## Scopes -/

/-- Whatever is mentioned in the definition, it mentions only type variables that the class
declares or, in a method, the method. -/
structure ClassDef.Scoped (d : ClassDef) : Prop where
  bounds : ∀ p ∈ d.typeParams, ∀ u ∈ p.upperBounds, u.MentionsOnly (· ∈ d.typeParamNames)
  supertypes : ∀ u ∈ d.superClass.toList ++ d.interfaces, u.MentionsOnly (· ∈ d.typeParamNames)
  methodBounds : ∀ m ∈ d.methods, ∀ p ∈ m.typeParams, ∀ u ∈ p.upperBounds,
    u.MentionsOnly fun x => x ∈ m.typeParamNames ∨ x ∈ d.typeParamNames
  signatures : ∀ m ∈ d.methods, ∀ t ∈ m.returnType :: m.params,
    t.MentionsOnly fun x => x ∈ m.typeParamNames ∨ x ∈ d.typeParamNames

/-- No parameter is left over when all of them are erased. -/
def EraseFully (params : List TypeParam) : Prop :=
  ∀ p ∈ params, ∀ q ∈ params, p.erasure.mentions q.name = false

/-- Erasing the parameters of a class, or those of one of its methods, leaves none of them over. -/
structure ClassDef.ErasesFully (d : ClassDef) : Prop where
  params : EraseFully d.typeParams
  methods : ∀ m ∈ d.methods, EraseFully m.typeParams

/-- All types of the signature mention variables of a kind. -/
def MethodDef.MentionsOnly (m : MethodDef) (P : String → Prop) : Prop :=
  ∀ t ∈ m.returnType :: m.params, t.MentionsOnly P

section Erasing

variable {P Q : String → Prop}

theorem TypeParam.mentionsOnly_erasure {p : TypeParam} (h : ∀ u ∈ p.upperBounds, u.MentionsOnly P) :
    p.erasure.MentionsOnly P := by
  intro x hx
  unfold TypeParam.erasure at hx
  split at hx
  · cases hx
  · next first others hbounds =>
    exact h first (hbounds ▸ List.mem_cons_self ..) x (mentions_erasure hx)

/-- What is mentioned by an erased parameter is none of those that are erased with it. -/
theorem EraseFully.not_mem {params : List TypeParam} (h : EraseFully params) {p : TypeParam}
    (hp : p ∈ params) {x : String} (hx : p.erasure.mentions x = true) :
    x ∉ params.map (·.name) := by
  intro hmem
  obtain ⟨q, hq, rfl⟩ := List.mem_map.mp hmem
  rw [h p hp q hq] at hx
  cases hx

namespace MethodDef

variable {m : MethodDef}

theorem MentionsOnly.substitute {s : Substitution} (h : m.MentionsOnly P)
    (hs : ∀ x, P x → ((s x).getD (typeVar x)).MentionsOnly Q) : (m.substitute s).MentionsOnly Q := by
  unfold MentionsOnly MethodDef.substitute at *
  rw [List.forall_mem_cons] at h ⊢
  refine ⟨h.1.substitute hs, fun t ht => ?_⟩
  rw [substituteAll_eq_map] at ht
  obtain ⟨u, hu, rfl⟩ := List.mem_map.mp ht
  exact (h.2 u hu).substitute hs

/-- What is left of a method's signature when its own parameters are erased. -/
theorem MentionsOnly.eraseTypeParams (h : m.MentionsOnly fun x => x ∈ m.typeParamNames ∨ P x)
    (hbounds : ∀ p ∈ m.typeParams, p.erasure.MentionsOnly P) :
    m.eraseTypeParams.MentionsOnly P := by
  refine h.substitute fun x hx => ?_
  cases he : m.erasingSubstitution x with
  | some e =>
    obtain ⟨p, hp, -, rfl⟩ := erasingSubstitution_eq_some he
    exact hbounds p hp
  | none =>
    have hown : x ∉ m.typeParamNames := erasingSubstitution_eq_none.mp he
    exact mentionsOnly_typeVar.mpr (hx.resolve_left hown)

end MethodDef

namespace ClassDef

variable {d : ClassDef} (hscoped : d.Scoped) (herases : d.ErasesFully)
include hscoped

theorem Scoped.directSupertypes :
    ∀ u ∈ d.directSupertypes, u.MentionsOnly (· ∈ d.typeParamNames) :=
  Store.mentionsOnly_directSupertypes hscoped.supertypes

include herases

/-- A parameter of the class is erased to a type without variables. -/
theorem Scoped.erasure {p : TypeParam} (hp : p ∈ d.typeParams) : p.erasure.MentionsOnly P :=
  fun _ hx => (herases.params.not_mem hp hx
    (TypeParam.mentionsOnly_erasure (hscoped.bounds p hp) _ hx)).elim

/-- A parameter of a method is erased to a type over those of the class ... -/
theorem Scoped.methodErasure {m : MethodDef} (hm : m ∈ d.methods) {p : TypeParam}
    (hp : p ∈ m.typeParams) : p.erasure.MentionsOnly (· ∈ d.typeParamNames) :=
  fun _ hx => (TypeParam.mentionsOnly_erasure (hscoped.methodBounds m hm p hp) _ hx).resolve_left
    ((herases.methods m hm).not_mem hp hx)

/-- ... and so is the signature of the method. -/
theorem Scoped.eraseTypeParams {m : MethodDef} (hm : m ∈ d.methods) :
    m.eraseTypeParams.MentionsOnly (· ∈ d.typeParamNames) :=
  MethodDef.MentionsOnly.eraseTypeParams (hscoped.signatures m hm) fun _ hp =>
    hscoped.methodErasure herases hm hp

/-- The values of a use of a class are over what the arguments are over. -/
theorem Scoped.instantiation {arguments : List JavaType}
    (harguments : ∀ a ∈ arguments, a.MentionsOnly P) {x : String} (hx : x ∈ d.typeParamNames) :
    ((d.instantiation arguments x).getD (typeVar x)).MentionsOnly P :=
  mentionsOnly_instantiation harguments (fun _ hp => hscoped.erasure herases hp) hx

end ClassDef

end Erasing

namespace Store

/-- Every stored definition is over the variables that it declares. -/
def Scoped (store : Store) : Prop := ∀ name d, store.find? name = some d → d.Scoped

def ErasesFully (store : Store) : Prop := ∀ name d, store.find? name = some d → d.ErasesFully

variable {store : Store} {P : String → Prop} {name : String} {d : ClassDef}

/-! ## Interfaces -/

section Interfaces

/-- What the use of an interface gives to its parameters is over some variables. -/
def UseOver (store : Store) (P : String → Prop) (use : String × Substitution) : Prop :=
  ∀ d, store.find? use.1 = some d → ∀ x ∈ d.typeParamNames,
    ((use.2 x).getD (typeVar x)).MentionsOnly P

variable (hscoped : store.Scoped) (herases : store.ErasesFully)
include hscoped herases

/-- The interfaces above a use that is over some variables are used over the same ones. -/
theorem useOver_superInterfaceUses {s : Substitution} (hd : store.find? name = some d)
    (hs : store.UseOver P (name, s)) :
    ∀ use ∈ store.superInterfaceUses d s, store.UseOver P use := by
  intro use huse
  obtain ⟨type, htype, hsome⟩ := List.mem_filterMap.mp huse
  have hover : (type.substitute s).MentionsOnly P :=
    ((hscoped name d hd).supertypes type (List.mem_append_right _ htype)).substitute (hs d hd)
  split at hsome
  · next super arguments heq =>
    rw [heq, mentionsOnly_classType] at hover
    cases hsome
    intro e he x hx
    rw [he, Option.elim_some]
    exact (hscoped super e he).instantiation (herases super e he) hover hx
  · cases hsome

/-- All interfaces that are met on a visit are used over the variables with which it began. -/
theorem useOver_interfaceVisits {visited : List String} {stack : List (String × Substitution)}
    (hstack : ∀ use ∈ stack, store.UseOver P use) :
    ∀ met ∈ store.interfaceVisits visited stack,
      ∃ name, store.find? name = some met.1 ∧ store.UseOver P (name, met.2) := by
  fun_induction interfaceVisits store visited stack with
  | case1 => nofun
  | case2 visited name s stack hn ih =>
    exact ih fun use huse => hstack use (List.mem_cons_of_mem _ huse)
  | case3 visited name s stack hn hd ih =>
    exact ih fun use huse => hstack use (List.mem_cons_of_mem _ huse)
  | case4 visited name s stack hn d hd ih =>
    rw [List.forall_mem_cons] at hstack ⊢
    refine ⟨⟨name, hd, hstack.1⟩, ih fun use huse => ?_⟩
    rcases List.mem_append.mp huse with huse | huse
    · exact useOver_superInterfaceUses hscoped herases hd hstack.1 use huse
    · exact hstack.2 use huse

theorem mentionsOnly_wantedMethods {s : Substitution} (hd : store.find? name = some d)
    (hs : store.UseOver P (name, s)) {m : WantedMethod} (hm : m ∈ d.wantedMethods s) :
    ∀ t ∈ m.returnType :: m.params, t.MentionsOnly P := by
  obtain ⟨n, hn, rfl⟩ := List.mem_map.mp hm
  obtain ⟨n, hn', rfl⟩ := List.mem_map.mp (List.mem_of_mem_filter hn)
  exact ((hscoped name d hd).eraseTypeParams (herases name d hd)
    (List.mem_of_mem_filter hn')).substitute (hs d hd)

theorem mentionsOnly_describe {origin : InterfaceOrigin} {i : InterfaceDescriptor}
    (hi : store.describe name origin = some i) :
    ∀ m ∈ i.methods, ∀ t ∈ m.returnType :: m.params, t.MentionsOnly (· ∈ i.typeParams) := by
  obtain ⟨-, d, hd, hinterface⟩ := found_of_describe hi
  rw [describe_eq_some hd hinterface, Option.some.injEq] at hi
  subst hi
  intro m hm
  obtain ⟨met, hmet, hm⟩ := List.mem_flatMap.mp (mem_of_mem_keepFirst hm)
  -- the visit begins with the interface over its own parameters
  have hself : store.UseOver (· ∈ d.typeParamNames) (name, fun _ => none) := by
    intro e he x hx
    rw [hd, Option.some.injEq] at he
    exact mentionsOnly_typeVar.mpr (he ▸ hx)
  obtain ⟨super, hfound, huse⟩ := useOver_interfaceVisits hscoped herases
    (by simpa using hself) met hmet
  exact mentionsOnly_wantedMethods hscoped herases hfound huse hm

end Interfaces

/-! ## Candidates -/

section Candidates

variable (hscoped : store.Scoped) (herases : store.ErasesFully)
include hscoped herases

/-- What a use of a superclass hands down is over the variables of the use, apart from the own
parameters of a method. -/
theorem mentionsOnly_inheritedMethods {seen : List String} {type : JavaType}
    (htype : type.MentionsOnly P) {m : MethodDef} (hm : m ∈ store.inheritedMethods seen type) :
    m.MentionsOnly fun x => x ∈ m.typeParamNames ∨ P x := by
  refine inheritedMethods_forall (P := (MentionsOnly · P))
    (Q := fun m => m.MentionsOnly fun x => x ∈ m.typeParamNames ∨ P x) ?_ ?_ seen htype m hm
  · intro name d arguments superClass hd huse hsuper
    have hsupers := (hscoped name d hd).directSupertypes superClass (superClass_mem hsuper)
    exact hsupers.substitute fun x hx => (hscoped name d hd).instantiation (herases name d hd)
      (mentionsOnly_classType.mp huse) hx
  · intro name d arguments hd huse n hn
    refine MethodDef.MentionsOnly.substitute ((hscoped name d hd).signatures n hn) fun x hx => ?_
    -- a parameter of the class gets its value even where the method declares the name as well
    by_cases hparam : x ∈ d.typeParamNames
    · refine ((hscoped name d hd).instantiation (herases name d hd)
        (mentionsOnly_classType.mp huse) hparam).mono fun y hy => .inr hy
    · rw [ClassDef.instantiation_eq_none hparam, Option.getD_none]
      exact mentionsOnly_typeVar.mpr (.inl (hx.resolve_right hparam))

/-- A class offers methods over its own parameters, if those that it inherits have no parameters
with variables in their bounds. -/
theorem mentionsOnly_candidates (hd : store.find? name = some d)
    (hinherited : ∀ superClass, d.superClass = some superClass →
      ∀ m ∈ store.inheritedMethods [name] superClass, ∀ p ∈ m.typeParams, ∀ x,
        p.erasure.mentions x = false)
    {offered : List MethodDef} (hoffered : store.candidates name = .ok offered) :
    ∀ m ∈ offered, m.MentionsOnly (· ∈ d.typeParamNames) := by
  obtain ⟨methods, hmethods, rfl⟩ := candidates_eq_ok.mp hoffered
  rw [methods_eq hd, Except.ok.injEq] at hmethods
  subst hmethods
  intro m hm
  obtain ⟨n, hn, rfl⟩ := List.mem_map.mp hm
  rcases List.mem_append.mp (List.mem_of_mem_filter hn) with hn | hn
  · exact (hscoped name d hd).eraseTypeParams (herases name d hd) hn
  · cases hsuper : d.superClass with
    | none => simp [hsuper] at hn
    | some superClass =>
      rw [hsuper, Option.elim_some] at hn
      refine (mentionsOnly_inheritedMethods hscoped herases ?_ hn).eraseTypeParams fun p hp x hx => ?_
      · exact (hscoped name d hd).directSupertypes superClass (superClass_mem hsuper)
      · rw [hinherited superClass hsuper n hn p hp x] at hx
        cases hx

end Candidates

end Store

/-! ## Values -/

/-- All values are over some variables. -/
def Binding.ValuesOver (b : Binding) (P : String → Prop) : Prop :=
  ∀ x u, b.find? x = some u → u.MentionsOnly P

theorem Binding.valuesOver_empty (P : String → Prop) : empty.ValuesOver P := by
  intro x u hu
  rw [find?_empty] at hu
  cases hu

theorem Binding.ValuesOver.bind {b b' : Binding} {P : String → Prop} (hb : b.ValuesOver P)
    {x : String} {u : JavaType} (hu : u.MentionsOnly P) (h : b.bind x u = .ok b') :
    b'.ValuesOver P := by
  intro y v hv
  rcases eq_or_find?_of_bind h hv with ⟨-, rfl⟩ | hv
  · exact hu
  · exact hb y v hv

/-- An interface with its parameters bound mentions what the values do. -/
theorem Binding.ValuesOver.parameterized {b : Binding} {P : String → Prop} (hb : b.ValuesOver P)
    (i : InterfaceDescriptor) : (i.parameterized b).MentionsOnly P := by
  refine mentionsOnly_classType.mpr fun a ha => ?_
  obtain ⟨x, -, rfl⟩ := List.mem_map.mp ha
  cases hx : b.find? x with
  | none => exact fun y hy => by cases hy
  | some u => exact hb x u hx

namespace Store

variable {store : Store} {P : String → Prop} {params : List String} {b b' : Binding}

section Values

variable (hscoped : store.Scoped) (herases : store.ErasesFully)
include hscoped herases

/-- A view is a supertype, and so it is over the variables of the type. -/
theorem passesDown_mentionsOnly : store.PassesDown (·.MentionsOnly P) where
  view _ _ _ _ ht hview :=
    mentionsOnly_classType.mp (mentionsOnly_supertypes
      (fun name d hd => (hscoped name d hd).directSupertypes)
      (fun name d hd _ hp => (hscoped name d hd).erasure (herases name d hd) hp) ht
      (mem_supertypes_of_view hview))
  element _ ht := ht
  upper _ ht := ht
  lower _ ht := ht

/-- What unification binds is found in the offered type, or in a view of it. -/
theorem valuesOver_unify {wanted offered : JavaType}
    (h : store.unify params wanted offered b = some b') (hb : b.ValuesOver P)
    (ho : offered.MentionsOnly P) : b'.ValuesOver P :=
  unify_keeps (·.ValuesOver P) (passesDown_mentionsOnly hscoped herases)
    (fun _ _ _ _ _ _ hu hc hbind => hc.bind hu hbind) h hb ho

theorem valuesOver_fitPairs {pairs : List (JavaType × JavaType)}
    (h : store.fitPairs params pairs b = .found b') (hb : b.ValuesOver P)
    (ho : ∀ pair ∈ pairs, pair.2.MentionsOnly P) : b'.ValuesOver P := by
  induction pairs generalizing b with
  | nil =>
    cases h
    exact hb
  | cons pair pairs ih =>
    rw [fitPairs, Search.andThen_eq_found] at h
    obtain ⟨b₁, hfit, h⟩ := h
    rw [List.forall_mem_cons] at ho
    exact ih h (valuesOver_unify hscoped herases (fit_eq_found.mp hfit).1 hb ho.1) ho.2

theorem valuesOver_implementAll {offered : List MethodDef} {wanteds : List WantedMethod}
    (h : store.implementAll params offered wanteds b = .found b') (hb : b.ValuesOver P)
    (ho : ∀ m ∈ offered, m.MentionsOnly P) : b'.ValuesOver P := by
  induction wanteds generalizing b with
  | nil =>
    cases h
    exact hb
  | cons wanted wanteds ih =>
    rw [implementAll, Search.andThen_eq_found] at h
    obtain ⟨b₁, himplement, h⟩ := h
    obtain ⟨m, hm, haccept⟩ := Search.exists_of_firstOf_eq_found himplement
    have hfit := (accept_eq_found.mp haccept).2
    refine ih h (valuesOver_fitPairs hscoped herases hfit hb fun pair hpair => ?_)
    exact ho m (List.mem_of_mem_filter hm) _ (WantedMethod.mem_of_comparedWith hpair).2

/-- **Descriptors and bindings are over declared variables.** Where erasing leaves nothing over,
what an interface asks for mentions its own type parameters only. A match binds them to types over
the parameters of the class, so what is added to the class mentions no others, provided that no
inherited method has a parameter of its own with a variable in its erasure. -/
theorem catalog_closed :
    (∀ name origin i, store.describe name origin = some i →
      ∀ m ∈ i.methods, ∀ t ∈ m.returnType :: m.params, t.MentionsOnly (· ∈ i.typeParams))
    ∧ ∀ name d i b, store.find? name = some d →
      (∀ superClass, d.superClass = some superClass →
        ∀ m ∈ store.inheritedMethods [name] superClass, ∀ p ∈ m.typeParams, ∀ x,
          p.erasure.mentions x = false) →
      store.matchClass name i = some b →
      (∀ x u, b.find? x = some u → u.MentionsOnly (· ∈ d.typeParamNames))
        ∧ (i.parameterized b).MentionsOnly (· ∈ d.typeParamNames) := by
  refine ⟨fun name origin i hi => mentionsOnly_describe hscoped herases hi, ?_⟩
  intro name d i b hd hinherited h
  have hvalues : b.ValuesOver (· ∈ d.typeParamNames) := by
    rw [matchClass_eq_some, search] at h
    split at h
    · cases h
    · split at h
      · cases h
      · next offered hoffered =>
        exact valuesOver_implementAll hscoped herases h (Binding.valuesOver_empty _)
          (mentionsOnly_candidates hscoped herases hd hinherited hoffered)
  exact ⟨hvalues, hvalues.parameterized i⟩

end Values

/-- An interface `I<E>` with a method of its own, whose parameter `E` bounds, and one from above. -/
def viewInterface : ClassDef where
  name := "p.I"
  kind := .interface
  typeParams := [{ name := "E" }]
  interfaces := [classType "p.Top" [typeVar "E"]]
  methods := [{
    name := "get", typeParams := [{ name := "T", upperBounds := [typeVar "E"] }], params := []
    returnType := view (typeVar "T") }]

def topInterface : ClassDef where
  name := "p.Top"
  kind := .interface
  typeParams := [{ name := "F" }]
  methods := [{ name := "other", params := [], returnType := typeVar "F" }]

/-- A class `K<V>` with a method of its own and one that it inherits. -/
def viewClass : ClassDef where
  name := "p.K"
  kind := .plainClass
  typeParams := [{ name := "V" }]
  superClass := some (classType "p.Base" [typeVar "V"])
  methods := [{ name := "get", params := [], returnType := view (typeVar "V") }]

def otherClass : ClassDef where
  name := "p.Base"
  kind := .plainClass
  typeParams := [{ name := "A" }]
  methods := [{ name := "other", params := [], returnType := typeVar "A" }]

def viewClasses : List ClassDef := [{ name := objectName, kind := .plainClass },
  { name := "p.View", kind := .interface, typeParams := [{ name := "X" }] },
  viewInterface, topInterface, viewClass, otherClass]

def viewStore : Store := Store.empty.insertAll viewClasses

theorem scoped_viewStore : viewStore.Scoped ∧ viewStore.ErasesFully := by
  have hmem : ∀ {name d}, viewStore.find? name = some d → d ∈ viewClasses := mem_of_find?_insertAll
  refine ⟨fun name d hd => ?_, fun name d hd => ?_⟩
  all_goals
    have hd := hmem hd
    simp only [viewClasses, List.mem_cons, List.not_mem_nil, or_false] at hd
    rcases hd with rfl | rfl | rfl | rfl | rfl | rfl <;> constructor <;>
      simp [viewInterface, topInterface, viewClass, otherClass, EraseFully, MentionsOnly, mentions,
        mentionsAny, view, ClassDef.typeParamNames, MethodDef.typeParamNames, TypeParam.erasure,
        erasure, object, raw]

theorem describe_viewInterface :
    viewStore.describe "p.I" .classpath = some (wantsGetAndOther (view (typeVar "E"))) := by
  have hview : viewStore.find? "p.I" = some viewInterface := by decide
  have htop : viewStore.find? "p.Top" = some topInterface := by decide
  have huses : viewStore.superInterfaceUses viewInterface (fun _ => none)
      = [("p.Top", topInterface.instantiation [typeVar "E"])] := by
    simp only [superInterfaceUses, viewInterface, List.filterMap_cons, List.filterMap_nil,
      substitute, substituteAll, htop, Option.elim_some, Option.getD_none]
  have hnone : ∀ s, viewStore.superInterfaceUses topInterface s = [] := fun s => rfl
  rw [describe_eq_some hview rfl, interfaceVisits_cons hview List.not_mem_nil, huses,
    List.append_nil, interfaceVisits_cons htop (by decide), hnone, List.append_nil, interfaceVisits]
  rfl

/-- `K<V>` gets an `I<V>`. -/
theorem viewStore_closed :
    (viewStore.Scoped ∧ viewStore.ErasesFully)
      ∧ (∀ m ∈ (wantsGetAndOther (view (typeVar "E"))).methods, ∀ t ∈ m.returnType :: m.params,
        t.MentionsOnly (· ∈ ["E"]))
      ∧ viewStore.matchClass "p.K" (wantsGetAndOther (view (typeVar "E")))
        = some (single "E" (typeVar "V"))
      ∧ ((wantsGetAndOther (view (typeVar "E"))).parameterized
          (single "E" (typeVar "V"))).MentionsOnly (· ∈ ["V"]) := by
  obtain ⟨hscoped, herases⟩ := scoped_viewStore
  have hclass : viewStore.find? "p.K" = some viewClass := by decide
  have hbase : viewStore.find? "p.Base" = some otherClass := by decide
  have hinherited : viewStore.inheritedMethods ["p.K"] (classType "p.Base" [typeVar "V"])
      = [{ name := "other", params := [], returnType := typeVar "V" }] := by
    rw [inheritedMethods_eq hbase (by decide)]
    rfl
  have hmethods : viewStore.methods "p.K"
      = .ok (getAndOther (view (typeVar "V")) (typeVar "V")) := by
    rw [methods_eq hclass]
    exact congrArg (fun methods => Except.ok (viewClass.methods ++ methods)) hinherited
  -- `get` settles what `E` is, and `other` asks for the same
  have hother : viewStore.unify ["E"] (typeVar "E") (typeVar "V") Binding.empty
      = some (single "E" (typeVar "V")) := unify_single rfl
  have hget : viewStore.unify ["E"] (view (typeVar "E")) (view (typeVar "V")) Binding.empty
      = some (single "E" (typeVar "V")) := by
    rw [view, view, unify_argument, hother]
  have hagain : viewStore.unify ["E"] (typeVar "E") (typeVar "V") (single "E" (typeVar "V"))
      = some (single "E" (typeVar "V")) :=
    (settling_unify (typeVar "E") (typeVar "V")).stays hother (le_refl _)
  have hmatch : viewStore.matchClass "p.K" (wantsGetAndOther (view (typeVar "E")))
      = some (single "E" (typeVar "V")) := by
    rw [matchClass_eq_some, search_getAndOther hmethods rfl,
      fit_of_within (n := 1) hget (by decide), Search.andThen_found,
      fit_of_within (n := 1) hagain (by decide)]
  have hplain : ∀ superClass, viewClass.superClass = some superClass →
      ∀ m ∈ viewStore.inheritedMethods ["p.K"] superClass, ∀ p ∈ m.typeParams, ∀ x,
        p.erasure.mentions x = false := by
    intro superClass hsuper m hm p hp x
    cases hsuper
    rw [hinherited, List.mem_singleton] at hm
    rw [hm] at hp
    cases hp
  have hclosed := catalog_closed hscoped herases
  exact ⟨⟨hscoped, herases⟩, hclosed.1 "p.I" .classpath _ describe_viewInterface, hmatch,
    (hclosed.2 "p.K" viewClass _ _ hclass hplain hmatch).2⟩

/-! ## Variables that get out -/

/-- The parameters `<T, U extends T>`. -/
def boundedByOther : List TypeParam := [{ name := "T" }, { name := "U", upperBounds := [typeVar "T"] }]

/-- A method `<T, U extends T> U name()`. -/
def wideMethod (name : String) : MethodDef where
  name := name
  typeParams := boundedByOther
  params := []
  returnType := typeVar "U"

def sourceInterface : ClassDef where
  name := "p.Source"
  kind := .interface
  typeParams := [{ name := "E" }]
  methods := [{ name := "get", params := [], returnType := typeVar "E" }]

def twoInterface : ClassDef where
  name := "p.Two"
  kind := .interface
  typeParams := boundedByOther
  methods := [{ name := "two", params := [], returnType := typeVar "U" }]

def rawInterface : ClassDef where
  name := "p.Raw"
  kind := .interface
  interfaces := [raw "p.Two"]

def wideClass : ClassDef where
  name := "p.C"
  kind := .plainClass
  superClass := some object
  methods := [wideMethod "get"]

def wideClasses : List ClassDef := [{ name := objectName, kind := .plainClass }, sourceInterface,
  { name := "p.Wide", kind := .interface, methods := [wideMethod "pick"] },
  twoInterface, rawInterface, wideClass]

def wideStore : Store := Store.empty.insertAll wideClasses

theorem scoped_wideStore : wideStore.Scoped := by
  intro name d hd
  have hd := mem_of_find?_insertAll hd
  simp only [wideClasses, List.mem_cons, List.not_mem_nil, or_false] at hd
  rcases hd with rfl | rfl | rfl | rfl | rfl | rfl <;> constructor <;>
    simp [sourceInterface, twoInterface, rawInterface, wideClass, wideMethod, boundedByOther,
      MentionsOnly, mentions, mentionsAny, ClassDef.typeParamNames, MethodDef.typeParamNames,
      object, raw]

/-- What an interface without parameters, or with `E`, asks for in a single method. -/
def wantsOne (name : String) (typeParams : List String) (method : String) (result : JavaType) :
    InterfaceDescriptor where
  name := name
  typeParams := typeParams
  methods := [⟨method, result, []⟩]
  origin := .classpath

/-- **Where a parameter bounds another one, a variable gets out.** All definitions are over their
own variables; but what `p.Wide` asks for mentions a parameter of its method, what `p.Raw` asks for
mentions one of the interface above it, and `p.C`, which declares no variables, is bound to one. -/
theorem wideStore_leaks :
    wideStore.Scoped
      ∧ wideStore.describe "p.Wide" .classpath = some (wantsOne "p.Wide" [] "pick" (typeVar "T"))
      ∧ wideStore.describe "p.Raw" .classpath = some (wantsOne "p.Raw" [] "two" (typeVar "T"))
      ∧ wideStore.describe "p.Source" .classpath = some (wantsOne "p.Source" ["E"] "get" (typeVar "E"))
      ∧ wideStore.matchClass "p.C" (wantsOne "p.Source" ["E"] "get" (typeVar "E"))
        = some (single "E" (typeVar "T"))
      ∧ (wantsOne "p.Source" ["E"] "get" (typeVar "E")).parameterized (single "E" (typeVar "T"))
        = classType "p.Source" [typeVar "T"]
      ∧ (wideStore.find? "p.C").map (·.typeParamNames) = some [] := by
  have hobject : wideStore.find? objectName = some { name := objectName, kind := .plainClass } := by
    decide
  have htwo : wideStore.find? "p.Two" = some twoInterface := by decide
  have hraw : wideStore.find? "p.Raw" = some rawInterface := by decide
  have hclass : wideStore.find? "p.C" = some wideClass := by decide
  refine ⟨scoped_wideStore, ?_, ?_, ?_, ?_, rfl, ?_⟩
  · exact describe_alone (d := { name := "p.Wide", kind := .interface, methods := [wideMethod "pick"] })
      (by decide) rfl rfl
  · -- the use without arguments has erased parameters for them
    have huses : wideStore.superInterfaceUses rawInterface (fun _ => none)
        = [("p.Two", twoInterface.instantiation [])] := by
      simp only [superInterfaceUses, rawInterface, raw, List.filterMap_cons, List.filterMap_nil,
        substitute, substituteAll, htwo, Option.elim_some]
    have hnone : ∀ s, wideStore.superInterfaceUses twoInterface s = [] := fun s => rfl
    rw [describe_eq_some hraw rfl, interfaceVisits_cons hraw List.not_mem_nil, huses,
      List.append_nil, interfaceVisits_cons htwo (by decide), hnone, List.append_nil,
      interfaceVisits]
    rfl
  · exact describe_alone (d := sourceInterface) (by decide) rfl rfl
  · have hmethods : wideStore.methods "p.C" = .ok [wideMethod "get"] := by
      rw [methods_eq hclass]
      have habove : wideStore.inheritedMethods ["p.C"] object = [] :=
        inheritedMethods_eq_nil hobject (by decide) rfl rfl
      exact congrArg (fun methods => Except.ok (wideClass.methods ++ methods)) habove
    have hcandidates : wideStore.candidates "p.C"
        = .ok [{ name := "get", params := [], returnType := typeVar "T" }] :=
      candidates_eq_ok.mpr ⟨_, hmethods, by decide⟩
    have hfit : wideStore.fit ["E"] (typeVar "E") (typeVar "T") Binding.empty
        = .found (single "E" (typeVar "T")) := fit_single (n := 1) rfl (by decide)
    rw [matchClass_eq_some, search, hcandidates]
    simpa [wantsOne, implementAll, implement, WantedMethod.isNamedLike, WantedMethod.arity, accept,
      fitResult, isPrimitiveOrVoid] using hfit
  · rw [hclass]
    rfl

end Store

end Conformance
