import Mathlib.Data.List.Nodup
import Conformance.Proofs.Unification

/-!
# Every instance of an interface is recognised

A class that declares the methods of a generic interface, with some types in the place of the
type parameters, conforms to it, and what is found for the parameters is these types.

Unification has to reach every parameter for that, however deep it stands, and must not ask for
more. Walking a type along its own instance it meets each variable exactly where its value stands
in the other type (`unify_instance`), so what it binds are the values of the parameters that the
type mentions (`Binding.Records`). The wanted type is then the offered one, and there is nothing
left for assignability to decide.
-/

namespace Conformance

open JavaType

/-! ## Instances -/

/-- The method with type variables replaced in its parameters and its result. -/
def WantedMethod.substitute (s : Substitution) (wanted : WantedMethod) : WantedMethod where
  name := wanted.name
  returnType := wanted.returnType.substitute s
  params := wanted.params.map (JavaType.substitute s)

/-- Name, result and parameters of a method. -/
def MethodDef.signature (m : MethodDef) : WantedMethod where
  name := m.name
  returnType := m.returnType
  params := m.params

/-- Type parameters with values. -/
def valuesOf (params : List String) (values : String → JavaType) : Substitution :=
  fun x => if x ∈ params then some (values x) else none

/-- The signature of the method mentions a type variable. -/
def WantedMethod.Mentions (wanted : WantedMethod) (x : String) : Prop :=
  ∃ t ∈ wanted.returnType :: wanted.params, t.mentions x = true

/-- A signature of the interface mentions a type variable. -/
def InterfaceDescriptor.Mentions (i : InterfaceDescriptor) (x : String) : Prop :=
  ∃ wanted ∈ i.methods, wanted.Mentions x

/-- The class declares the methods of the interface, with values in the place of the type
parameters, and no others. -/
structure ClassDef.DeclaresInstance (d : ClassDef) (i : InterfaceDescriptor)
    (values : String → JavaType) : Prop where
  signatures : (d.methods.map MethodDef.signature).Perm
    (i.methods.map (WantedMethod.substitute (valuesOf i.typeParams values)))
  instanceApi : ∀ m ∈ d.methods, m.isInstanceApi = true
  plain : ∀ m ∈ d.methods, m.typeParams = []

/-! ## Bindings to given values -/

/-- The binding gives the parameters of some kind their values, and no others. -/
def Binding.Records (b : Binding) (values : String → JavaType) (names : String → Prop) : Prop :=
  ∀ x u, b.find? x = some u ↔ names x ∧ values x = u

section Records

variable {b : Binding} {values : String → JavaType} {names others : String → Prop}

theorem Binding.Records.congr (h : b.Records values names) (hnames : ∀ x, names x ↔ others x) :
    b.Records values others := by
  intro x u
  rw [h x u, hnames]

theorem Binding.records_empty : Binding.empty.Records values fun _ => False := by
  intro x u
  simp

/-- A parameter that is bound to its value has just been given it, or had it before. -/
theorem Binding.Records.bind (h : b.Records values names) (x : String) :
    ∃ b', b.bind x (values x) = .ok b' ∧ b'.Records values fun y => names y ∨ y = x := by
  obtain ⟨b', hb'⟩ := exists_bind fun v hv => ((h x v).mp hv).2.symm
  refine ⟨b', hb', fun y u => ?_⟩
  rw [find?_of_bind hb' y]
  by_cases hxy : x = y
  · subst hxy
    simp
  · simp [hxy, Ne.symm hxy, h y u]

end Records

namespace Store

variable {store : Store} {params : List String} {values : String → JavaType} {b : Binding}
  {names : String → Prop}

/-! ## Unification with an instance -/

theorem assignable_self (t : JavaType) : store.assignable t t = some (.ok true) := by
  rw [assignable_eq]
  unfold assignableOver
  rw [if_pos rfl]

/-- Unifying type arguments with their instances gives values if unifying each of them does. -/
theorem unifyAll_instance {wanteds : List JavaType}
    (ih : ∀ w ∈ wanteds, ∀ b names, b.Records values names →
      ∃ b', store.unify params w (w.substitute (valuesOf params values)) b = some b'
        ∧ b'.Records values fun x => names x ∨ x ∈ params ∧ w.mentions x = true)
    (hb : b.Records values names) :
    ∃ b', store.unifyAll params wanteds (wanteds.map (substitute (valuesOf params values))) b = some b'
      ∧ b'.Records values fun x => names x ∨ x ∈ params ∧ ∃ w ∈ wanteds, w.mentions x = true := by
  induction wanteds generalizing b names with
  | nil => exact ⟨b, rfl, hb.congr (by simp)⟩
  | cons w wanteds ihs =>
    rw [List.forall_mem_cons] at ih
    obtain ⟨b₁, h₁, hb₁⟩ := ih.1 b names hb
    obtain ⟨b₂, h₂, hb₂⟩ := ihs ih.2 hb₁
    refine ⟨b₂, ?_, hb₂.congr fun x => ?_⟩
    · rw [List.map_cons, unifyAll, h₁, Option.bind_some, h₂]
    · rw [List.exists_mem_cons_iff, or_assoc, ← and_or_left]

section Instance

variable (store) (hvalues : ∀ x ∈ params, (values x).isBindable = true)
include hvalues

/-- **A type is unified with its instance.** This gives each parameter that the type mentions
its value. -/
theorem unify_instance (wanted : JavaType) (hb : b.Records values names) :
    ∃ b', store.unify params wanted (wanted.substitute (valuesOf params values)) b = some b'
      ∧ b'.Records values fun x => names x ∨ x ∈ params ∧ wanted.mentions x = true := by
  induction wanted generalizing b names with
  | typeVar x =>
    by_cases hx : x ∈ params
    · obtain ⟨b', hbind, hb'⟩ := hb.bind x
      have hoffered : (typeVar x).substitute (valuesOf params values) = values x := by
        simp [substitute, valuesOf, hx]
      refine ⟨b', ?_, hb'.congr fun y => ?_⟩
      · rw [hoffered, unify_param hx (hvalues x hx), hbind]
        rfl
      · simp only [mentions, decide_eq_true_iff]
        grind
    · refine ⟨b, ?_, hb.congr fun y => ?_⟩
      · unfold unify
        rw [if_neg (by simpa using hx)]
      · simp only [mentions, decide_eq_true_iff]
        grind
  | classType name arguments ih =>
    obtain ⟨b', hunify, hb'⟩ := unifyAll_instance (fun w hw b names hb => ih w hw hb) hb
    refine ⟨b', ?_, hb'.congr fun x => by rw [mentions_classType]⟩
    rw [substitute_classType, unify_sameClass (List.length_map ..)]
    exact hunify
  | array element ih => exact ih hb
  | wildcardExtends bound ih => exact ih hb
  | wildcardSuper bound ih => exact ih hb
  | void => exact ⟨b, rfl, hb.congr (by simp [mentions])⟩
  | primitive p => exact ⟨b, rfl, hb.congr (by simp [mentions])⟩
  | wildcard => exact ⟨b, rfl, hb.congr (by simp [mentions])⟩

/-! ## Methods -/

/-- An instance of a type fits: once its parameters have their values, it is the wanted type. -/
theorem fit_instance (wanted : JavaType) (hb : b.Records values names)
    (hnames : ∀ x, names x → x ∈ params) :
    ∃ b', store.fit params wanted (wanted.substitute (valuesOf params values)) b = .found b'
      ∧ b'.Records values fun x => names x ∨ x ∈ params ∧ wanted.mentions x = true := by
  obtain ⟨b', hunify, hb'⟩ := unify_instance store hvalues wanted hb
  have hsame : b'.substitute wanted = wanted.substitute (valuesOf params values) := by
    refine substitute_congr fun x hx => ?_
    by_cases hmem : x ∈ params
    · rw [(hb' x (values x)).mpr ⟨.inr ⟨hmem, hx⟩, rfl⟩, valuesOf, if_pos hmem]
    · have hnone : b'.find? x = none := by
        refine Option.eq_none_iff_forall_not_mem.mpr fun u hu => ?_
        rcases ((hb' x u).mp hu).1 with h | h
        · exact hmem (hnames x h)
        · exact hmem h.1
      rw [hnone, valuesOf, if_neg hmem]
  exact ⟨b', fit_eq_found.mpr ⟨hunify, hsame ▸ assignable_self _⟩, hb'⟩

theorem fitAll_instance (wanteds : List JavaType) (hb : b.Records values names)
    (hnames : ∀ x, names x → x ∈ params) :
    ∃ b', store.fitAll params wanteds (wanteds.map (substitute (valuesOf params values))) b = .found b'
      ∧ b'.Records values fun x => names x ∨ x ∈ params ∧ ∃ w ∈ wanteds, w.mentions x = true := by
  induction wanteds generalizing b names with
  | nil => exact ⟨b, rfl, hb.congr (by simp)⟩
  | cons w wanteds ih =>
    obtain ⟨b₁, h₁, hb₁⟩ := fit_instance store hvalues w hb hnames
    obtain ⟨b₂, h₂, hb₂⟩ := ih hb₁ fun x hx => hx.elim (hnames x) And.left
    refine ⟨b₂, ?_, hb₂.congr fun x => ?_⟩
    · rw [List.map_cons, fitAll, h₁, Search.andThen_found, h₂]
    · rw [List.exists_mem_cons_iff, or_assoc, ← and_or_left]

/-- A method with the signature of an instance is accepted for the wanted one. -/
theorem accept_instance {wanted : WantedMethod} {m : MethodDef}
    (hm : m.signature = wanted.substitute (valuesOf params values)) (hb : b.Records values names)
    (hnames : ∀ x, names x → x ∈ params) :
    ∃ b', store.accept params wanted m b = .found b'
      ∧ b'.Records values fun x => names x ∨ x ∈ params ∧ wanted.Mentions x := by
  obtain ⟨hreturn, hparams⟩ : m.returnType = wanted.returnType.substitute (valuesOf params values)
      ∧ m.params = wanted.params.map (JavaType.substitute (valuesOf params values)) :=
    ⟨congrArg WantedMethod.returnType hm, congrArg WantedMethod.params hm⟩
  have hresult : ∃ b₁, store.fitResult params wanted.returnType m.returnType b = .found b₁
      ∧ b₁.Records values fun x => names x ∨ x ∈ params ∧ wanted.returnType.mentions x = true := by
    rw [hreturn]
    unfold fitResult
    split
    · next hprim =>
      -- what is no reference type has no variables
      have hground : ∀ x, wanted.returnType.mentions x = false := by
        intro x
        cases hr : wanted.returnType <;> simp_all [isPrimitiveOrVoid, mentions]
      rw [substitute_eq_self fun x hx => by simp [hground x] at hx, if_pos rfl]
      exact ⟨b, rfl, hb.congr fun x => by simp [hground x]⟩
    · exact fit_instance store hvalues wanted.returnType hb hnames
  obtain ⟨b₁, h₁, hb₁⟩ := hresult
  obtain ⟨b₂, h₂, hb₂⟩ := fitAll_instance store hvalues wanted.params hb₁
    fun x hx => hx.elim (hnames x) And.left
  refine ⟨b₂, ?_, hb₂.congr fun x => ?_⟩
  · unfold accept
    rw [h₁, Search.andThen_found, hparams, h₂]
  · rw [WantedMethod.Mentions, List.exists_mem_cons_iff, or_assoc, ← and_or_left]

omit hvalues in
/-- A method with the signature of an instance has name and arity of the wanted one. -/
theorem isNamedLike_of_signature {s : Substitution} {wanted : WantedMethod} {m : MethodDef}
    (h : m.signature = wanted.substitute s) : WantedMethod.isNamedLike wanted m = true := by
  have hparams : m.params = wanted.params.map (JavaType.substitute s) :=
    congrArg WantedMethod.params h
  exact isNamedLike_iff.mpr ⟨congrArg WantedMethod.name h, by rw [hparams, List.length_map]⟩

/-- If a class declares an instance of a wanted method, and nothing else under its name and with
its arity, the declared method implements it, whatever is inherited. -/
theorem implement_instance {own : List MethodDef} (inherited : List MethodDef)
    {wanted : WantedMethod}
    (hexists : ∃ m ∈ own, m.signature = wanted.substitute (valuesOf params values))
    (hunique : ∀ m ∈ own, WantedMethod.isNamedLike wanted m = true →
      m.signature = wanted.substitute (valuesOf params values))
    (hb : b.Records values names) (hnames : ∀ x, names x → x ∈ params) :
    ∃ b', store.implement params (own ++ inherited) wanted b = .found b'
      ∧ b'.Records values fun x => names x ∨ x ∈ params ∧ wanted.Mentions x := by
  obtain ⟨m, hm, hsignature⟩ := hexists
  have hlike : WantedMethod.isNamedLike wanted m = true := isNamedLike_of_signature hsignature
  obtain ⟨first, others, hfilter⟩ : ∃ first others,
      own.filter (WantedMethod.isNamedLike wanted) = first :: others := by
    cases hfilter : own.filter (WantedMethod.isNamedLike wanted) with
    | nil => exact absurd hlike (List.filter_eq_nil_iff.mp hfilter m hm)
    | cons first others => exact ⟨first, others, rfl⟩
  have hfirst := List.mem_filter.mp (hfilter ▸ List.mem_cons_self .. : first ∈ own.filter _)
  obtain ⟨b', haccept, hb'⟩ := accept_instance store hvalues
    (hunique first hfirst.1 hfirst.2) hb hnames
  refine ⟨b', ?_, hb'⟩
  rw [implement, List.filter_append, hfilter, List.cons_append, Search.firstOf, haccept]

theorem implementAll_instance {own : List MethodDef} (inherited : List MethodDef)
    {wanteds : List WantedMethod}
    (hexists : ∀ w ∈ wanteds, ∃ m ∈ own, m.signature = w.substitute (valuesOf params values))
    (hunique : ∀ w ∈ wanteds, ∀ m ∈ own, WantedMethod.isNamedLike w m = true →
      m.signature = w.substitute (valuesOf params values))
    (hb : b.Records values names) (hnames : ∀ x, names x → x ∈ params) :
    ∃ b', store.implementAll params (own ++ inherited) wanteds b = .found b'
      ∧ b'.Records values fun x => names x ∨ x ∈ params ∧ ∃ w ∈ wanteds, w.Mentions x := by
  induction wanteds generalizing b names with
  | nil => exact ⟨b, rfl, hb.congr (by simp)⟩
  | cons w wanteds ih =>
    rw [List.forall_mem_cons] at hexists hunique
    obtain ⟨b₁, h₁, hb₁⟩ := implement_instance store hvalues inherited
      hexists.1 hunique.1 hb hnames
    obtain ⟨b₂, h₂, hb₂⟩ := ih hexists.2 hunique.2 hb₁ fun x hx => hx.elim (hnames x) And.left
    refine ⟨b₂, ?_, hb₂.congr fun x => ?_⟩
    · rw [implementAll, h₁, Search.andThen_found, h₂]
    · rw [List.exists_mem_cons_iff, or_assoc, ← and_or_left]

end Instance

end Store

/-! ## Classes made from an interface -/

namespace ClassDef.DeclaresInstance

variable {d : ClassDef} {i : InterfaceDescriptor} {values : String → JavaType}
  (h : d.DeclaresInstance i values)
include h

theorem exists_signature : ∀ w ∈ i.methods, ∃ m ∈ d.methods,
    m.signature = w.substitute (valuesOf i.typeParams values) := by
  intro w hw
  have hmem := h.signatures.mem_iff.mpr (List.mem_map_of_mem hw)
  obtain ⟨m, hm, hsignature⟩ := List.mem_map.mp hmem
  exact ⟨m, hm, hsignature⟩

/-- Where name and arity tell the methods of the interface apart, they say which one a declared
method is an instance of. -/
theorem signature_of_named (hdistinct : (i.methods.map fun w => (w.name, w.arity)).Nodup) :
    ∀ w ∈ i.methods, ∀ m ∈ d.methods, Store.WantedMethod.isNamedLike w m = true →
      m.signature = w.substitute (valuesOf i.typeParams values) := by
  intro w hw m hm hlike
  have hmem := h.signatures.mem_iff.mp (List.mem_map_of_mem hm)
  obtain ⟨v, hv, hsignature⟩ := List.mem_map.mp hmem
  have hself := Store.isNamedLike_iff.mp (Store.isNamedLike_of_signature hsignature.symm)
  have hlike := Store.isNamedLike_iff.mp hlike
  have heq : v = w := List.inj_on_of_nodup_map hdistinct hv hw
    (Prod.ext (hself.1.symm.trans hlike.1) (hself.2.symm.trans hlike.2))
  rw [← hsignature, heq]

end ClassDef.DeclaresInstance

namespace Store

variable {store : Store}

/-- The methods that a class declares are offered before those that it inherits. -/
theorem candidates_of_declared {className : String} {d : ClassDef}
    (hd : store.find? className = some d) (hinstance : ∀ m ∈ d.methods, m.isInstanceApi = true)
    (hplain : ∀ m ∈ d.methods, m.typeParams = []) :
    ∃ inherited, store.candidates className = .ok (d.methods ++ inherited) := by
  have hown : (d.methods.filter MethodDef.isInstanceApi).map MethodDef.eraseTypeParams = d.methods := by
    rw [List.filter_eq_self.mpr hinstance]
    exact (List.map_congr_left fun m hm => MethodDef.eraseTypeParams_eq_self (hplain m hm)).trans
      (List.map_id _)
  have hmethods : store.methods className
      = .ok (d.methods ++ d.superClass.elim [] (store.inheritedMethods [className])) := by
    simp [methods, require, hd, bind, Except.bind, pure, Except.pure]
  have hcandidates := candidates_eq_ok.mpr ⟨_, hmethods, rfl⟩
  rw [List.filter_append, List.map_append, hown] at hcandidates
  exact ⟨_, hcandidates⟩

/-- **A class made from an interface conforms to it.** If a class declares the methods of an
interface, no two of which have the same name and arity, with classes, arrays or variables in the
place of the type parameters, then it matches, and the binding holds these types for exactly the
parameters that some signature mentions. -/
theorem matchClass_instance {className : String} {d : ClassDef} {i : InterfaceDescriptor}
    {values : String → JavaType} (hd : store.find? className = some d)
    (hdeclares : d.DeclaresInstance i values) (hmethods : i.methods ≠ [])
    (hdistinct : (i.methods.map fun w => (w.name, w.arity)).Nodup)
    (hvalues : ∀ x ∈ i.typeParams, (values x).isBindable = true) :
    ∃ b, store.matchClass className i = some b
      ∧ ∀ x u, b.find? x = some u ↔ (x ∈ i.typeParams ∧ i.Mentions x) ∧ values x = u := by
  obtain ⟨inherited, hcandidates⟩ :=
    candidates_of_declared hd hdeclares.instanceApi hdeclares.plain
  obtain ⟨b, hb, hrecords⟩ := implementAll_instance store hvalues inherited
    hdeclares.exists_signature (hdeclares.signature_of_named hdistinct) Binding.records_empty
    fun _ h => h.elim
  refine ⟨b, ?_, hrecords.congr fun x => ?_⟩
  · rw [matchClass_eq_some, search, if_neg (by simpa using hmethods), hcandidates]
    exact hb
  · rw [false_or]
    rfl

/-- An interface `Table<K, V>` with its parameters below wildcards and in arrays. -/
def tableInterface : InterfaceDescriptor where
  name := "p.Table"
  typeParams := ["K", "V"]
  methods :=
    [ { name := "rows"
        returnType := classType "java.util.Map" [wildcardExtends (typeVar "K"), array (typeVar "V")]
        params := [typeVar "K"] },
      { name := "put"
        returnType := .void
        params := [typeVar "K", classType "java.util.List" [wildcardSuper (typeVar "V")]] } ]
  origin := .classpath

/-- A class `Grid<T>` that declares the methods of a `Table<String[], T>`. -/
def gridClass : ClassDef where
  name := "p.Grid"
  kind := .plainClass
  typeParams := [{ name := "T" }]
  superClass := some object
  methods :=
    [ { name := "put"
        params := [array string, classType "java.util.List" [wildcardSuper (typeVar "T")]]
        returnType := .void },
      { name := "rows"
        params := [array string]
        returnType := classType "java.util.Map" [wildcardExtends (array string), array (typeVar "T")] } ]

/-- The values of the parameters that make a `Grid<T>` a `Table`. -/
def gridValues (x : String) : JavaType := if x = "K" then array string else typeVar "T"

theorem gridClass_matches :
    (Store.empty.insert gridClass).find? "p.Grid" = some gridClass
      ∧ gridClass.DeclaresInstance tableInterface gridValues
      ∧ tableInterface.methods ≠ [] ∧ (tableInterface.methods.map fun w => (w.name, w.arity)).Nodup
      ∧ (∀ x ∈ tableInterface.typeParams, (gridValues x).isBindable = true)
      ∧ ∃ b, (Store.empty.insert gridClass).matchClass "p.Grid" tableInterface = some b
        ∧ b.find? "K" = some (array string) ∧ b.find? "V" = some (typeVar "T") := by
  have hd : (Store.empty.insert gridClass).find? "p.Grid" = some gridClass := by
    simp [find?_insert, gridClass]
  have hdeclares : gridClass.DeclaresInstance tableInterface gridValues :=
    ⟨by decide, by decide, by decide⟩
  have hmethods : tableInterface.methods ≠ [] := by decide
  have hdistinct : (tableInterface.methods.map fun w => (w.name, w.arity)).Nodup := by decide
  have hvalues : ∀ x ∈ tableInterface.typeParams, (gridValues x).isBindable = true := by decide
  obtain ⟨b, hmatch, hb⟩ := matchClass_instance hd hdeclares hmethods hdistinct hvalues
  have hmentions : ∀ x ∈ tableInterface.typeParams, tableInterface.Mentions x := by
    simp [tableInterface, InterfaceDescriptor.Mentions, WantedMethod.Mentions, mentions, mentionsAny]
  refine ⟨hd, hdeclares, hmethods, hdistinct, hvalues, b, hmatch, ?_, ?_⟩
  · exact (hb "K" _).mpr ⟨⟨by decide, hmentions "K" (by decide)⟩, rfl⟩
  · exact (hb "V" _).mpr ⟨⟨by decide, hmentions "V" (by decide)⟩, rfl⟩

end Store

end Conformance
