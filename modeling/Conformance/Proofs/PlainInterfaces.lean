import Conformance.Proofs.MethodOrder

/-!
# Interfaces without type parameters

Without type parameters there is nothing to bind. The methods of the interface are then independent
of each other, and what is to be found out about a class comes down to yes or no (`Answers`): a
search finds the empty binding or fails. So it is exactly conformance that is found out, if it is
found out at all (`matchClass_eq_some_iff`).

A search goes through the overloads of a method in their order, and a comparison that never ends
keeps it from those behind (`putStore_never_matches`).
-/

namespace Conformance

open JavaType

/-- What a search that binds nothing comes to if it is to find out whether something is so: it
finds the empty binding if it is and fails if it is not, unless it never ends. -/
inductive Search.Answers (p : Prop) : Search → Prop where
  | endless : Answers p .endless
  | yes : p → Answers p (.found Binding.empty)
  | no : ¬ p → Answers p .failed

namespace Search

variable {s : Search} {p q : Prop}

theorem Answers.congr (h : Answers p s) (hpq : p ↔ q) : Answers q s := by
  rwa [← propext hpq]

theorem Answers.eq_found (h : Answers p s) (hs : s ≠ .endless) {b : Binding} :
    s = .found b ↔ b = Binding.empty ∧ p := by
  cases h with
  | endless => exact absurd rfl hs
  | yes hp => simp [hp, eq_comm]
  | no hp => simp [hp]

/-- One search after another finds out whether both is so. -/
theorem Answers.andThen {next : Binding → Search} (h : Answers p s)
    (hnext : Answers q (next Binding.empty)) : Answers (p ∧ q) (s.andThen next) := by
  cases h with
  | endless => exact .endless
  | yes hp => exact hnext.congr (and_iff_right hp).symm
  | no hp => exact .no fun h => hp h.1

/-- The first search that does not fail finds out whether something is so of one of the things that
are searched. -/
theorem Answers.firstOf {α : Type} {search : α → Search} {as : List α} {P : α → Prop}
    (h : ∀ a ∈ as, Answers (P a) (search a)) : Answers (∃ a ∈ as, P a) (Search.firstOf search as) := by
  induction as with
  | nil => exact .no (by simp)
  | cons a as ih =>
    rw [List.forall_mem_cons] at h
    have hfirst := h.1
    unfold Search.firstOf
    generalize search a = s at hfirst
    cases hfirst with
    | endless => exact .endless
    | yes hp => exact .yes ⟨a, List.mem_cons_self .., hp⟩
    | no hp => exact (ih h.2).congr (by simp [hp])

end Search

namespace Store

variable {store : Store} {b : Binding}

/-! ## What is found out about a method -/

theorem fit_answers (wanted offered : JavaType) :
    (store.fit [] wanted offered Binding.empty).Answers
      (store.assignable wanted offered = some (.ok true)) := by
  unfold fit
  rw [unify_nil]
  dsimp only
  rw [substitute_empty]
  split
  · exact .endless
  · next htrue => exact .yes htrue
  · next hfalse hends => exact .no fun htrue => hfalse (Option.some.inj (hends ▸ htrue))

theorem fitAll_answers {wanteds offereds : List JavaType}
    (hlength : wanteds.length = offereds.length) :
    (store.fitAll [] wanteds offereds Binding.empty).Answers
      (List.Forall₂ (fun w o => store.assignable w o = some (.ok true)) wanteds offereds) := by
  induction wanteds generalizing offereds with
  | nil =>
    cases List.length_eq_zero_iff.mp hlength.symm
    exact .yes .nil
  | cons w wanteds ih =>
    cases offereds with
    | nil => cases hlength
    | cons o offereds =>
      rw [fitAll_cons]
      have hfirst : (store.fit [] w o Binding.empty).Answers _ := fit_answers w o
      have hboth := hfirst.andThen (ih (Nat.succ.inj hlength))
      rwa [← List.forall₂_cons (R := fun w o => store.assignable w o = some (.ok true))] at hboth

/-- Whether a candidate is accepted is whether it provides for the wanted method as it is. -/
theorem accept_answers {wanted : WantedMethod} {candidate : MethodDef}
    (hlike : WantedMethod.isNamedLike wanted candidate = true) :
    (store.accept [] wanted candidate Binding.empty).Answers
      (store.Provides id wanted candidate) := by
  rw [isNamedLike_iff] at hlike
  have hresult : (store.fitResult [] wanted.returnType candidate.returnType Binding.empty).Answers
      (if wanted.returnType.isPrimitiveOrVoid then wanted.returnType = candidate.returnType
        else store.assignable wanted.returnType candidate.returnType = some (.ok true)) := by
    unfold fitResult
    split
    · split
      · next heq => exact .yes heq
      · next hne => exact .no hne
    · exact fit_answers _ _
  refine (hresult.andThen (fitAll_answers hlike.2.symm)).congr ?_
  exact ⟨fun h => ⟨hlike.1, h.1, h.2⟩, fun h => ⟨h.result, h.params⟩⟩

theorem implement_answers (offered : List MethodDef) (wanted : WantedMethod) :
    (store.implement [] offered wanted Binding.empty).Answers
      (∃ m ∈ offered, store.Provides id wanted m) := by
  refine (Search.Answers.firstOf fun m hm => accept_answers (List.of_mem_filter hm)).congr ?_
  constructor
  · rintro ⟨m, hm, hp⟩
    exact ⟨m, List.mem_of_mem_filter hm, hp⟩
  · rintro ⟨m, hm, hp⟩
    have hlike : WantedMethod.isNamedLike wanted m = true :=
      isNamedLike_iff.mpr ⟨hp.name, hp.params.length_eq.symm⟩
    exact ⟨m, List.mem_filter.mpr ⟨hm, hlike⟩, hp⟩

theorem implementAll_answers {offered : List MethodDef} {wanteds : List WantedMethod} :
    (store.implementAll [] offered wanteds Binding.empty).Answers
      (∀ wanted ∈ wanteds, ∃ m ∈ offered, store.Provides id wanted m) := by
  induction wanteds with
  | nil => exact .yes (by simp)
  | cons w wanteds ih =>
    have hfirst : (store.implement [] offered w Binding.empty).Answers _ :=
      implement_answers offered w
    have hboth := hfirst.andThen ih
    rwa [← List.forall_mem_cons (p := fun wanted => ∃ m ∈ offered, store.Provides id wanted m)]
      at hboth

/-! ## Matches -/

theorem search_answers {className : String} {interface : InterfaceDescriptor}
    (hparams : interface.typeParams = []) :
    (store.search className interface).Answers (store.contains className = true
      ∧ interface.methods ≠ [] ∧ store.Conforms id className interface) := by
  unfold search Conforms
  rw [hparams]
  split
  · next hempty => exact .no fun h => h.2.1 (by simpa using hempty)
  · next hempty =>
    rw [List.isEmpty_iff] at hempty
    cases hcandidates : store.candidates className with
    | error fault =>
      refine .no ?_
      rintro ⟨-, -, methods, hmethods, -⟩
      have hoffered := candidates_eq_ok.mpr ⟨methods, hmethods, rfl⟩
      rw [hcandidates] at hoffered
      cases hoffered
    | ok offered =>
      obtain ⟨methods, hmethods, rfl⟩ := candidates_eq_ok.mp hcandidates
      refine implementAll_answers.congr ?_
      constructor
      · refine fun hall => ⟨methods_eq_ok.mp ⟨methods, hmethods⟩, hempty, methods, hmethods,
          fun wanted hwanted => ?_⟩
        obtain ⟨m, hm, hp⟩ := hall wanted hwanted
        obtain ⟨n, hn, rfl⟩ := List.mem_map.mp hm
        exact ⟨n, List.mem_of_mem_filter hn, List.of_mem_filter hn, hp⟩
      · rintro ⟨-, -, methods', hmethods', hall⟩ wanted hwanted
        rw [hmethods] at hmethods'
        cases hmethods'
        obtain ⟨m, hm, happ, hp⟩ := hall wanted hwanted
        exact ⟨m.eraseTypeParams, List.mem_map_of_mem (List.mem_filter.mpr ⟨hm, happ⟩), hp⟩

/-- Without type parameters there is one comparison to a pair of types. -/
theorem decided_nil {pairs : List (JavaType × JavaType)}
    (hends : ∀ pair ∈ pairs, (store.assignable pair.1 pair.2).isSome) : store.Decided [] pairs := by
  intro pair hpair b hb _
  have hsame : b.substitute pair.1 = pair.1 := substitute_eq_self fun x _ => by
    cases hx : b.find? x with
    | none => rfl
    | some u => cases hb.param x u hx
  rw [hsame]
  exact hends pair hpair

/-- **A match with an interface without type parameters is conformance.** If the search ends, a
class matches such an interface exactly if the interface has methods at all and the class provides
for each of them, whatever it provides for the others; and then nothing is bound. The search does
end if every comparison of a wanted type with one that an overload of the same arity offers at its
place does. -/
theorem matchClass_eq_some_iff {className : String} {interface : InterfaceDescriptor}
    (hparams : interface.typeParams = []) :
    (store.search className interface ≠ .endless →
      (store.matchClass className interface = some b ↔ b = Binding.empty
        ∧ store.contains className = true ∧ interface.methods ≠ []
        ∧ store.Conforms id className interface))
      ∧ ((∀ pair ∈ store.comparisons className interface,
          (store.assignable pair.1 pair.2).isSome) →
        store.search className interface ≠ .endless) := by
  refine ⟨fun hends => ?_, fun hends => search_ne_endless ?_⟩
  · rw [matchClass_eq_some]
    exact (search_answers hparams).eq_found hends
  · rw [hparams]
    exact decided_nil hends

/-- What wants a view of some kind of `Foo` from `get`. -/
def wantsAnyFooView : InterfaceDescriptor where
  name := "p.I"
  typeParams := []
  methods :=
    [ { name := "get", params := []
        returnType := view (wildcardExtends (classType "p.Foo" [wildcard])) } ]
  origin := .classpath

theorem fooStore_match :
    wantsAnyFooView.typeParams = []
      ∧ (∀ pair ∈ (fooStore object).comparisons "p.K" wantsAnyFooView,
        ((fooStore object).assignable pair.1 pair.2).isSome)
      ∧ (fooStore object).search "p.K" wantsAnyFooView ≠ .endless
      ∧ (fooStore object).matchClass "p.K" wantsAnyFooView = some Binding.empty := by
  have hparams : wantsAnyFooView.typeParams = [] := rfl
  have hmethods : (fooStore object).methods "p.K"
      = .ok (getAndOther (view (classType "p.Foo" [integer])) (classType "p.Foo" [string])) := by
    decide +kernel
  have hview : (fooStore object).assignable (view (wildcardExtends (classType "p.Foo" [wildcard])))
      (view (classType "p.Foo" [integer])) = some (.ok true) :=
    assignable_of_within (n := 4) (by decide +kernel)
  have hcompared : ∀ pair ∈ (fooStore object).comparisons "p.K" wantsAnyFooView,
      ((fooStore object).assignable pair.1 pair.2).isSome := by
    have hpairs : (fooStore object).comparisons "p.K" wantsAnyFooView
        = [(view (wildcardExtends (classType "p.Foo" [wildcard])),
          view (classType "p.Foo" [integer]))] := by
      unfold comparisons
      rw [candidates_getAndOther hmethods]
      decide
    rw [hpairs, List.forall_mem_singleton, hview]
    rfl
  have hends := (matchClass_eq_some_iff (b := Binding.empty) hparams).2 hcompared
  refine ⟨hparams, hcompared, hends, ((matchClass_eq_some_iff hparams).1 hends).mpr
    ⟨rfl, methods_eq_ok.mp ⟨_, hmethods⟩, by simp [wantsAnyFooView], _, hmethods, ?_⟩⟩
  simp only [wantsAnyFooView, List.mem_singleton, forall_eq]
  refine ⟨_, List.mem_cons_self .., rfl, ?_⟩
  rw [MethodDef.eraseTypeParams_eq_self rfl]
  refine ⟨rfl, ?_, .nil⟩
  rw [if_neg (by decide)]
  exact hview

/-! ### An overload that is not got to

Whether a `C` is an `N<? super C>` is never found out for a class `C` below `N<N<? super C>>`.
-/

/-- An `N` of something that a `C` is. -/
def aboveC : JavaType := classType "p.N" [wildcardSuper (raw "p.C")]

/-- The overloads of `put` for a `C` and for an `N<? super C>`. -/
def putOverloads : List MethodDef :=
  [ { name := "put", params := [raw "p.C"], returnType := void },
    { name := "put", params := [aboveC], returnType := void } ]

/-- A class `K` with both overloads. -/
def putStore : Store :=
  selfAskingStore.insert
    { name := "p.K", kind := .plainClass, superClass := some object, methods := putOverloads }

/-- What wants a `put` for an `N<? super C>`. -/
def wantsPut : InterfaceDescriptor where
  name := "p.I"
  typeParams := []
  methods := [{ name := "put", params := [aboveC], returnType := void }]
  origin := .classpath

/-- The second overload is just the one that is wanted, but the first has its turn before. -/
theorem putStore_never_matches :
    wantsPut.typeParams = []
      ∧ (putStore.contains "p.K" = true ∧ wantsPut.methods ≠ []
        ∧ putStore.Conforms id "p.K" wantsPut)
      ∧ putStore.search "p.K" wantsPut = .endless
      ∧ putStore.matchClass "p.K" wantsPut ≠ some Binding.empty := by
  have hmethods : putStore.methods "p.K" = .ok putOverloads := by decide +kernel
  have hends : putStore.search "p.K" wantsPut = .endless := by
    have hview : putStore.supertypeView (raw "p.C") "p.N"
        = .ok (some (classType "p.N" [aboveC])) := supertypeView_eq_some.mpr (by decide +kernel)
    have hself : putStore.assignable aboveC (raw "p.C") = none :=
      assignable_eq_none_of_asks_self
        (.argument (by decide) (by decide) hview (by simp) (by simp) rfl (.here rfl))
    have hcandidates : putStore.candidates "p.K" = .ok putOverloads :=
      candidates_eq_ok.mpr ⟨_, hmethods, by decide⟩
    refine search_eq_endless rfl rfl hcandidates rfl ?_
    rw [accept, fitResult, if_pos (by decide), if_pos (by decide), Search.andThen_found, fitAll_cons]
    dsimp only
    rw [fit_nil_eq_endless hself, Search.andThen_endless]
  refine ⟨rfl, ⟨methods_eq_ok.mp ⟨_, hmethods⟩, by simp [wantsPut], _, hmethods, ?_⟩, hends, ?_⟩
  · simp only [wantsPut, List.mem_singleton, forall_eq]
    refine ⟨_, List.mem_cons_of_mem _ (List.mem_cons_self ..), rfl, ?_⟩
    rw [MethodDef.eraseTypeParams_eq_self rfl]
    refine ⟨rfl, rfl, .cons ?_ .nil⟩
    exact assignable_of_within (n := 1) (by decide)
  · rw [Ne, matchClass_eq_some, hends]
    intro h
    cases h

end Store

end Conformance
