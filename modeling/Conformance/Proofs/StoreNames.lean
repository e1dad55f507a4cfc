import Conformance.Proofs.Match
import Conformance.Proofs.Reach
import Conformance.Proofs.Renaming

/-!
# The type variables that a store knows of

Whatever is read off a store, the type variables in it occur in one of the stored definitions:
erasing puts bounds in the place of parameters, and a use of a class puts its arguments there, so
neither brings in a name. Hence a name that occurs in no definition is met nowhere, neither in
what lies above a class (`names_of_stray`) nor in the methods that a class offers
(`names_of_candidates`).
-/

namespace Conformance

open JavaType

/-- The parameter has the name, or a bound of it mentions a variable of the name. -/
def TypeParam.Names (p : TypeParam) (x : String) : Prop :=
  p.name = x ∨ ∃ u ∈ p.upperBounds, u.mentions x = true

/-- A type variable of the name is declared by the method or mentioned in its signature. -/
def MethodDef.Names (m : MethodDef) (x : String) : Prop :=
  (∃ p ∈ m.typeParams, p.Names x) ∨ ∃ t ∈ m.returnType :: m.params, t.mentions x = true

/-- A type variable of the name is declared or mentioned anywhere in the definition. -/
def ClassDef.Names (d : ClassDef) (x : String) : Prop :=
  (∃ p ∈ d.typeParams, p.Names x) ∨ (∃ u ∈ d.directSupertypes, u.mentions x = true)
    ∨ ∃ m ∈ d.methods, m.Names x

/-- A type variable of the name occurs in a stored definition. -/
def Store.Names (store : Store) (x : String) : Prop :=
  ∃ name d, store.find? name = some d ∧ d.Names x

theorem TypeParam.names_of_erasure {p : TypeParam} {x : String}
    (h : p.erasure.mentions x = true) : p.Names x := by
  unfold TypeParam.erasure at h
  split at h
  · cases h
  · next first others hbounds =>
    exact .inr ⟨first, hbounds ▸ List.mem_cons_self .., mentions_erasure h⟩

/-- A substitution in a method brings in only names from its values. -/
theorem MethodDef.names_of_substitute {s : Substitution} {m : MethodDef} {x : String}
    (h : (m.substitute s).Names x) :
    m.Names x ∨ ∃ y u, s y = some u ∧ u.mentions x = true := by
  rcases h with hp | ⟨t, ht, hx⟩
  · exact .inl (.inl hp)
  · have hsource : ∃ u ∈ m.returnType :: m.params, t = u.substitute s := by
      simpa [MethodDef.substitute, substituteAll_eq_map, eq_comm] using ht
    obtain ⟨u, hu, rfl⟩ := hsource
    exact (mentions_or_of_substitute hx).imp_left fun hx => .inr ⟨u, hu, hx⟩

/-- Erasing the parameters of a method brings in no names. -/
theorem MethodDef.names_of_eraseTypeParams {m : MethodDef} {t : JavaType}
    (ht : t ∈ m.eraseTypeParams.returnType :: m.eraseTypeParams.params) {x : String}
    (hx : t.mentions x = true) : m.Names x := by
  have hsubstituted : (m.substitute m.erasingSubstitution).Names x := .inr ⟨t, ht, hx⟩
  rcases names_of_substitute hsubstituted with hx | ⟨y, u, hu, hx⟩
  · exact hx
  · obtain ⟨p, hp, -, rfl⟩ := erasingSubstitution_eq_some hu
    exact .inl ⟨p, hp, TypeParam.names_of_erasure hx⟩

namespace Store

variable {store : Store}

theorem names_of_stray {x : String} (h : store.Stray x) : store.Names x := by
  obtain ⟨name, d, hd, hx⟩ := h
  refine ⟨name, d, hd, ?_⟩
  rcases hx with ⟨-, hu⟩ | ⟨p, hp, hx⟩
  · exact .inr (.inl hu)
  · exact .inl ⟨p, hp, TypeParam.names_of_erasure hx⟩

/-- The values that a use of a class gives to its parameters bring in no names. -/
theorem names_of_instantiation {name : String} {d : ClassDef} {arguments : List JavaType}
    (hd : store.find? name = some d)
    (huse : ∀ x, (classType name arguments).mentions x = true → store.Names x) {y : String}
    {u : JavaType} (hu : d.instantiation arguments y = some u) {x : String}
    (hx : u.mentions x = true) : store.Names x := by
  by_cases hy : y ∈ d.typeParamNames
  · have hvalues := ClassDef.mentionsOnly_instantiation (mentionsOnly_classType.mp huse)
      (fun p hp x hx => ⟨name, d, hd, .inl ⟨p, hp, TypeParam.names_of_erasure hx⟩⟩) hy
    rw [hu, Option.getD_some] at hvalues
    exact hvalues x hx
  · rw [ClassDef.instantiation_eq_none hy] at hu
    cases hu

theorem names_of_inheritedMethods {seen : List String} {type : JavaType}
    (htype : ∀ x, type.mentions x = true → store.Names x) {m : MethodDef}
    (hm : m ∈ store.inheritedMethods seen type) {x : String} (hx : m.Names x) : store.Names x := by
  refine inheritedMethods_forall (P := fun t => ∀ x, t.mentions x = true → store.Names x)
    (Q := fun m => ∀ x, m.Names x → store.Names x) ?_ ?_ seen htype m hm x hx
  · -- the use of the superclass mentions what the definition or this use does
    intro name d arguments superClass hd huse hsuper x hx
    rcases mentions_or_of_substitute hx with hx | ⟨y, u, hu, hx⟩
    · exact ⟨name, d, hd, .inr (.inl ⟨superClass, superClass_mem hsuper, hx⟩)⟩
    · exact names_of_instantiation hd huse hu hx
  · intro name d arguments hd huse n hn x hx
    rcases MethodDef.names_of_substitute hx with hx | ⟨y, u, hu, hx⟩
    · exact ⟨name, d, hd, .inr (.inr ⟨n, hn, hx⟩)⟩
    · exact names_of_instantiation hd huse hu hx

/-- The types that a class offers bring in no names. -/
theorem names_of_candidates {className : String} {offered : List MethodDef}
    (hoffered : store.candidates className = .ok offered) {m : MethodDef} (hm : m ∈ offered)
    {t : JavaType} (ht : t ∈ m.returnType :: m.params) {x : String} (hx : t.mentions x = true) :
    store.Names x := by
  obtain ⟨methods, hmethods, rfl⟩ := candidates_eq_ok.mp hoffered
  obtain ⟨n, hn, rfl⟩ := List.mem_map.mp hm
  have hnames := MethodDef.names_of_eraseTypeParams ht hx
  obtain ⟨d, hd, rfl⟩ : ∃ d, store.find? className = some d
      ∧ methods = d.methods ++ d.superClass.elim [] (store.inheritedMethods [className]) := by
    obtain ⟨d, hd⟩ := Option.isSome_iff_exists.mp (methods_eq_ok.mp ⟨methods, hmethods⟩)
    rw [methods_eq hd, Except.ok.injEq] at hmethods
    exact ⟨d, hd, hmethods.symm⟩
  rcases List.mem_append.mp (List.mem_of_mem_filter hn) with hn | hn
  · exact ⟨className, d, hd, .inr (.inr ⟨n, hn, hnames⟩)⟩
  · cases hsuper : d.superClass with
    | none => simp [hsuper] at hn
    | some superClass =>
      rw [hsuper] at hn
      refine names_of_inheritedMethods (fun y hy => ?_) hn hnames
      exact ⟨className, d, hd, .inr (.inl ⟨_, superClass_mem hsuper, hy⟩)⟩

end Store

end Conformance
