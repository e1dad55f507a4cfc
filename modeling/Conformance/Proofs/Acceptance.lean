import Conformance.Proofs.MethodOrder

/-!
# What a match adds to a binding

The values of a binding are written deep inside of types, and a candidate may be rejected after it
has written some. So two things have to be known: what can be written at all, and that nothing is
left of the candidates that were rejected.

What unifying two types writes does not depend on the binding it is written into. It is one list of
values for type parameters, none of them primitive, `void` or a wildcard, or the types cannot be
unified at all (`Writes`, `writes_unify`). And a match can be cut at each method it asks for
(`implementAll_split`): there is the binding before, the first candidate that is accepted under it
(`Turn`), and the binding behind, which is what unifying with this one candidate makes of the first.
So leaving out the candidates that were rejected changes nothing (`implementEach_withoutRejected`).
-/

namespace Conformance

open JavaType

/-! ## Steps that write values -/

namespace Binding

/-- Gives parameters values, one after the other. -/
def bindAll (values : List (String × JavaType)) (b : Binding) : Option Binding :=
  values.foldlM (fun b value => (b.bind value.1 value.2).toOption) b

variable {params : List String} {b b' : Binding}

/-- What the type argument for a parameter is: its value, or the top class if it has none. -/
def argument (b : Binding) (x : String) : JavaType := (b.find? x).getD object

/-- The type arguments of an interface are those for its parameters, in their order. -/
theorem parameterized_eq (b : Binding) (i : InterfaceDescriptor) :
    i.parameterized b = classType i.name (i.typeParams.map b.argument) := rfl

theorem Proper.isBindable_argument (hb : b.Proper params) (x : String) :
    (b.argument x).isBindable = true := by
  unfold argument
  cases hx : b.find? x with
  | none => rfl
  | some u => exact hb.bindable x u hx

theorem Proper.bindAll {values : List (String × JavaType)}
    (hvalues : ∀ value ∈ values, value.1 ∈ params ∧ value.2.isBindable = true)
    (hb : b.Proper params) (h : Binding.bindAll values b = some b') : b'.Proper params := by
  induction values generalizing b with
  | nil =>
    cases h
    exact hb
  | cons value values ih =>
    rw [Binding.bindAll, List.foldlM_cons, Option.bind_eq_bind, Option.bind_eq_some_iff] at h
    obtain ⟨b₁, hbind, h⟩ := h
    rw [List.forall_mem_cons] at hvalues
    exact ih hvalues.2 (hb.bind hvalues.1.1 hvalues.1.2 (toOption_eq_some_iff.mp hbind)) h

end Binding

/-- A step that gives type parameters values which type arguments can be, the same ones whatever
binding there is, or that fails whatever binding there is. -/
def Writes (params : List String) (step : Binding → Option Binding) : Prop :=
  (∀ b, step b = none)
    ∨ ∃ values : List (String × JavaType),
      (∀ value ∈ values, value.1 ∈ params ∧ value.2.isBindable = true)
        ∧ ∀ b, step b = Binding.bindAll values b

section Writes

variable {params : List String} {step other : Binding → Option Binding}

theorem writes_some : Writes params some := .inr ⟨[], by simp, fun _ => rfl⟩

theorem writes_bind {x : String} {u : JavaType} (hx : x ∈ params) (hu : u.isBindable = true) :
    Writes params fun b => (b.bind x u).toOption := by
  refine .inr ⟨[(x, u)], by simp [hx, hu], fun b => ?_⟩
  rw [Binding.bindAll, List.foldlM_cons]
  exact (Option.bind_fun_some _).symm

/-- One step after the other writes what the two write. -/
theorem Writes.andThen (h : Writes params step) (h' : Writes params other) :
    Writes params fun b => (step b).bind other := by
  obtain hnone | ⟨values, hvalues, hstep⟩ := h
  · refine .inl fun b => ?_
    dsimp only
    rw [hnone b, Option.bind_none]
  obtain hnone | ⟨others, hothers, hother⟩ := h'
  · exact .inl fun b => Option.bind_eq_none_iff.mpr fun b' _ => hnone b'
  refine .inr ⟨values ++ others, fun value hvalue => ?_, fun b => ?_⟩
  · exact (List.mem_append.mp hvalue).elim (hvalues value) (hothers value)
  · dsimp only
    rw [hstep b, funext hother, Binding.bindAll, Binding.bindAll, List.foldlM_append]
    rfl

theorem BindsParams.writes (h : BindsParams params step) : Writes params step := by
  induction h with
  | keep => exact writes_some
  | refuse => exact .inl fun _ => rfl
  | bind hx hu => exact writes_bind hx hu
  | andThen _ _ ih ih' => exact ih.andThen ih'

theorem writes_foldlM {α : Type} {step : Binding → α → Option Binding}
    (h : ∀ a, Writes params fun b => step b a) (as : List α) :
    Writes params fun b => as.foldlM step b := by
  induction as with
  | nil => exact writes_some
  | cons a as ih =>
    simp only [List.foldlM_cons]
    exact (h a).andThen ih

theorem Writes.proper (h : Writes params step) {b b' : Binding} (hb : b.Proper params)
    (hstep : step b = some b') : b'.Proper params := by
  obtain hnone | ⟨values, hvalues, heq⟩ := h
  · rw [hnone b] at hstep
    cases hstep
  · exact hb.bindAll hvalues (heq b ▸ hstep)

end Writes

namespace Store

variable {store : Store} {params : List String} {b b' : Binding}

/-- **What unifying two types writes does not depend on the binding.** -/
theorem writes_unify (wanted offered : JavaType) :
    Writes params (store.unify params wanted offered) :=
  (bindsParams_unify wanted offered).writes

theorem writes_unifyPairs (pairs : List (JavaType × JavaType)) :
    Writes params (store.unifyPairs params pairs) := by
  have hpair : ∀ pair : JavaType × JavaType,
      Writes params fun b => store.unify params pair.1 pair.2 b :=
    fun pair => writes_unify pair.1 pair.2
  exact writes_foldlM hpair pairs

/-! ## The turn of a method -/

/-- A candidate settles a wanted method: it is the first of those with the name and the arity that
is accepted under the binding there is, and it leads to the next. -/
structure Turn (store : Store) (params : List String) (offered : List MethodDef)
    (wanted : WantedMethod) (b b' : Binding) (accepted : MethodDef) : Prop where
  /-- The candidates in front of it are rejected. -/
  first : ∃ rejected others,
    offered.filter (WantedMethod.isNamedLike wanted) = rejected ++ accepted :: others
      ∧ ∀ m ∈ rejected, store.accept params wanted m b = .failed
  accepts : store.accept params wanted accepted b = .found b'

variable {offered : List MethodDef} {wanted : WantedMethod} {accepted : MethodDef}

theorem implement_eq_found_iff : store.implement params offered wanted b = .found b'
    ↔ ∃ accepted, store.Turn params offered wanted b b' accepted := by
  rw [implement, Search.firstOf_eq_found]
  constructor
  · rintro ⟨rejected, accepted, others, hfilter, hfailed, haccept⟩
    exact ⟨accepted, ⟨rejected, others, hfilter, hfailed⟩, haccept⟩
  · rintro ⟨accepted, ⟨rejected, others, hfilter, hfailed⟩, haccept⟩
    exact ⟨rejected, accepted, others, hfilter, hfailed, haccept⟩

namespace Turn

variable (h : store.Turn params offered wanted b b' accepted)
include h

theorem mem : accepted ∈ offered ∧ WantedMethod.isNamedLike wanted accepted = true := by
  obtain ⟨rejected, others, hfilter, -⟩ := h.first
  rw [← List.mem_filter, hfilter]
  exact List.mem_append_right _ (List.mem_cons_self ..)

/-- The next binding is what unifying with the accepted candidate makes of the last. -/
theorem unifies : store.unifyPairs params (wanted.comparedWith accepted) b = some b' :=
  unifyPairs_of_fitPairs (accept_eq_found.mp h.accepts).2

theorem grows : b ≤ b' := (settling_unifyPairs _).grows h.unifies

theorem proper (hb : b.Proper params) : b'.Proper params :=
  (writes_unifyPairs _).proper hb h.unifies

end Turn

/-! ## The methods one after the other -/

theorem implementAll_append (before after : List WantedMethod) (b : Binding) :
    store.implementAll params offered (before ++ after) b
      = (store.implementAll params offered before b).andThen
        (store.implementAll params offered after) := by
  induction before generalizing b with
  | nil => rfl
  | cons w before ih =>
    rw [List.cons_append, implementAll, implementAll, Search.andThen_assoc]
    exact congrArg _ (funext ih)

/-- A run over wanted methods can be cut at the turn of each of them. -/
theorem implementAll_split {before after : List WantedMethod}
    (h : store.implementAll params offered (before ++ wanted :: after) b = .found b') :
    ∃ b₁ b₂ accepted, store.implementAll params offered before b = .found b₁
      ∧ store.Turn params offered wanted b₁ b₂ accepted
      ∧ store.implementAll params offered after b₂ = .found b' := by
  rw [implementAll_append, Search.andThen_eq_found] at h
  obtain ⟨b₁, hbefore, h⟩ := h
  rw [implementAll, Search.andThen_eq_found] at h
  obtain ⟨b₂, hwanted, hafter⟩ := h
  obtain ⟨accepted, hturn⟩ := implement_eq_found_iff.mp hwanted
  exact ⟨b₁, b₂, accepted, hbefore, hturn, hafter⟩

/-- What the turn of each method keeps, a run over all of them keeps. -/
theorem implementAll_induct {P : Binding → Prop} {wanteds : List WantedMethod}
    (hturn : ∀ wanted ∈ wanteds, ∀ b b' accepted, store.Turn params offered wanted b b' accepted →
      P b → P b')
    (h : store.implementAll params offered wanteds b = .found b') (hb : P b) : P b' := by
  induction wanteds generalizing b with
  | nil =>
    cases h
    exact hb
  | cons w wanteds ih =>
    rw [implementAll, Search.andThen_eq_found] at h
    obtain ⟨b₁, hwanted, h⟩ := h
    obtain ⟨accepted, hfirst⟩ := implement_eq_found_iff.mp hwanted
    rw [List.forall_mem_cons] at hturn
    exact ih hturn.2 h (hturn.1 b b₁ accepted hfirst hb)

theorem le_of_implementAll {wanteds : List WantedMethod}
    (h : store.implementAll params offered wanteds b = .found b') : b ≤ b' :=
  implementAll_induct (P := (b ≤ ·)) (fun _ _ _ _ _ hturn hle => le_trans hle hturn.grows) h
    (le_refl b)

theorem proper_implementAll {wanteds : List WantedMethod}
    (h : store.implementAll params offered wanteds b = .found b') (hb : b.Proper params) :
    b'.Proper params :=
  implementAll_induct (fun _ _ _ _ _ hturn hproper => hturn.proper hproper) h hb

theorem matchClass_eq_ok {className : String} {i : InterfaceDescriptor}
    (h : store.matchClass className i = some b) : ∃ offered,
      store.candidates className = .ok offered
        ∧ store.implementAll i.typeParams offered i.methods Binding.empty = .found b := by
  rw [matchClass_eq_some, search] at h
  split at h
  · cases h
  · split at h
    · cases h
    · next offered hoffered => exact ⟨offered, hoffered, h⟩

/-! ## Without the candidates that are rejected -/

/-- The binding after wanted methods that each have candidates of their own. -/
def implementEach (store : Store) (params : List String) :
    List (WantedMethod × List MethodDef) → Binding → Search
  | [], b => .found b
  | (wanted, own) :: others, b =>
    (store.implement params own wanted b).andThen (store.implementEach params others)

/-- The candidates for each wanted method, without those that are rejected when it has its turn and
come before the one that is accepted. -/
def withoutRejected (store : Store) (params : List String) (offered : List MethodDef) :
    List WantedMethod → Binding → List (WantedMethod × List MethodDef)
  | [], _ => []
  | wanted :: others, b =>
    let own := (offered.filter (WantedMethod.isNamedLike wanted)).dropWhile fun m =>
      (store.accept params wanted m b).isFailed
    (wanted, own) :: (store.implement params offered wanted b).binding?.elim []
      (store.withoutRejected params offered others)

theorem implement_dropWhile : store.implement params
      ((offered.filter (WantedMethod.isNamedLike wanted)).dropWhile fun m =>
        (store.accept params wanted m b).isFailed) wanted b
    = store.implement params offered wanted b := by
  have hlike : ∀ m ∈ (offered.filter (WantedMethod.isNamedLike wanted)).dropWhile fun m =>
      (store.accept params wanted m b).isFailed, WantedMethod.isNamedLike wanted m = true :=
    fun m hm => List.of_mem_filter ((List.dropWhile_sublist _).mem hm)
  rw [implement, List.filter_eq_self.mpr hlike]
  exact Search.firstOf_dropWhile (fun m => store.accept params wanted m b) _

/-- **The candidates that are rejected leave no trace.** -/
theorem implementEach_withoutRejected (wanteds : List WantedMethod) (b : Binding) :
    store.implementEach params (store.withoutRejected params offered wanteds b) b
      = store.implementAll params offered wanteds b := by
  induction wanteds generalizing b with
  | nil => rfl
  | cons w wanteds ih =>
    rw [withoutRejected, implementEach, implement_dropWhile, implementAll]
    cases himplement : store.implement params offered w b with
    | endless => rfl
    | failed => rfl
    | found b₁ => exact ih b₁

/-- **A binding is well formed and only grows.** A match binds parameters of the interface to what
type arguments can be. Cut at any method, the run has a candidate that is the first to be accepted,
and adds to the binding what unifying with this one candidate asks for, so each binding is below the
next; leaving out the candidates that were rejected leads to the same binding. So the interface
gets one argument for each of its parameters, in their order. -/
theorem matchClass_wellFormed {className : String} {i : InterfaceDescriptor}
    (h : store.matchClass className i = some b) :
    b.Proper i.typeParams
      ∧ (∃ offered, store.candidates className = .ok offered
        ∧ (∀ before wanted after, i.methods = before ++ wanted :: after → ∃ b₁ b₂ accepted,
          store.implementAll i.typeParams offered before Binding.empty = .found b₁
            ∧ store.Turn i.typeParams offered wanted b₁ b₂ accepted
            ∧ store.unifyPairs i.typeParams (wanted.comparedWith accepted) b₁ = some b₂
            ∧ b₁ ≤ b₂ ∧ b₂ ≤ b
            ∧ store.implementAll i.typeParams offered after b₂ = .found b)
        ∧ store.implementEach i.typeParams
            (store.withoutRejected i.typeParams offered i.methods Binding.empty) Binding.empty
          = .found b)
      ∧ ∃ arguments, i.parameterized b = classType i.name arguments
        ∧ List.Forall₂ (fun x a => a.isBindable = true ∧ a = b.argument x) i.typeParams
          arguments := by
  obtain ⟨offered, hoffered, hall⟩ := matchClass_eq_ok h
  have hproper := proper_implementAll hall Binding.proper_empty
  refine ⟨hproper, ⟨offered, hoffered, fun before wanted after hmethods => ?_, ?_⟩, _,
    b.parameterized_eq i, ?_⟩
  · rw [hmethods] at hall
    obtain ⟨b₁, b₂, accepted, hbefore, hturn, hafter⟩ := implementAll_split hall
    exact ⟨b₁, b₂, accepted, hbefore, hturn, hturn.unifies, hturn.grows,
      le_of_implementAll hafter, hafter⟩
  · rw [implementEach_withoutRejected]
    exact hall
  · exact List.forall₂_map_right_iff.mpr
      (List.forall₂_same.mpr fun x _ => ⟨hproper.isBindable_argument x, rfl⟩)

/-! ### Overloads -/

/-- A method `pick` with two parameters and a result of one type. -/
def pickPair (type : JavaType) : MethodDef where
  name := "pick"
  params := [type, type]
  returnType := type

/-- A class `K` with `Integer pick(Integer, Integer)` and `String pick(String, String)`. -/
def overloadClasses : List ClassDef :=
  [ { name := objectName, kind := .plainClass },
    { name := "java.lang.Integer", kind := .plainClass, superClass := some object },
    { name := "java.lang.String", kind := .plainClass, superClass := some object },
    { name := "p.K"
      kind := .plainClass
      superClass := some object
      methods := [pickPair integer, pickPair string] } ]

def overloadStore : Store := Store.empty.insertAll overloadClasses

/-- The method `E pick(E, String)`. -/
def wantedPick : WantedMethod where
  name := "pick"
  params := [typeVar "E", string]
  returnType := typeVar "E"

/-- The interface `I<E>` with this method. -/
def wantsPick : InterfaceDescriptor where
  name := "p.I"
  typeParams := ["E"]
  methods := [wantedPick]
  origin := .classpath

theorem accept_pickPair (u : JavaType) : store.accept ["E"] wantedPick (pickPair u) b
    = ((store.fit ["E"] (typeVar "E") u b).andThen (store.fit ["E"] (typeVar "E") u)).andThen
      (store.fit ["E"] string u) := by
  have hvar : (typeVar "E").isPrimitiveOrVoid = false := rfl
  simp [accept, wantedPick, pickPair, fitResult, fitAll_cons, hvar, Search.andThen_assoc]

/-- The result and the first parameter are fitted to `E`, and so `E` is what they are. -/
theorem fit_pickPair {n : Nat} {u : JavaType} (hu : u.isBindable = true)
    (h : store.assignableWithin n ((single "E" u).substitute (typeVar "E")) u = some (.ok true)) :
    (store.fit ["E"] (typeVar "E") u Binding.empty).andThen (store.fit ["E"] (typeVar "E") u)
      = .found (single "E" u) := by
  have hsettling : Settling (store.unify ["E"] (typeVar "E") u) := settling_unify _ u
  rw [fit_single hu h, Search.andThen_found]
  exact fit_of_within (hsettling.stays (unify_single hu) (le_refl _)) h

/-- The first method of `K` gives `E` the value `Integer`, and then its second parameter is no
`String`. -/
theorem overloadStore_rejects :
    overloadStore.accept ["E"] wantedPick (pickPair integer) Binding.empty = .failed := by
  have hunify : overloadStore.unify ["E"] string integer (single "E" integer)
      = some (single "E" integer) := rfl
  rw [accept_pickPair, fit_pickPair (n := 1) rfl (by decide), Search.andThen_found, fit,
    hunify]
  dsimp only
  rw [assignable_of_within (n := 1) (r := .ok false) (by decide +kernel)]

/-- `K` is an `I<String>`, as it would be without its first method. Nothing is left of the value
that this one has for `E`. -/
theorem overloadStore_match :
    overloadStore.matchClass "p.K" wantsPick = some (single "E" string)
      ∧ (single "E" string).Proper ["E"]
      ∧ overloadStore.implementEach ["E"] [(wantedPick, [pickPair string])] Binding.empty
        = .found (single "E" string)
      ∧ ∃ arguments, wantsPick.parameterized (single "E" string) = classType "p.I" arguments
        ∧ List.Forall₂ (fun x a => a.isBindable = true ∧ a = (single "E" string).argument x) ["E"]
          arguments := by
  have hoffered : overloadStore.candidates "p.K" = .ok [pickPair integer, pickPair string] := by
    decide +kernel
  have hfilter : [pickPair integer, pickPair string].filter (WantedMethod.isNamedLike wantedPick)
      = [pickPair integer, pickPair string] := List.filter_eq_self.mpr (by decide)
  have hsecond : overloadStore.accept ["E"] wantedPick (pickPair string) Binding.empty
      = .found (single "E" string) := by
    rw [accept_pickPair, fit_pickPair (n := 1) rfl (by decide), Search.andThen_found]
    exact fit_of_within (n := 1) rfl (by decide)
  have himplement : overloadStore.implement ["E"] [pickPair integer, pickPair string] wantedPick
      Binding.empty = .found (single "E" string) := by
    rw [implement, hfilter, Search.firstOf, overloadStore_rejects]
    dsimp only
    rw [Search.firstOf_singleton, hsecond]
  have hmatch : overloadStore.matchClass "p.K" wantsPick = some (single "E" string) := by
    rw [matchClass_eq_some, search, if_neg (by decide), hoffered]
    dsimp only [wantsPick, implementAll]
    rw [himplement, Search.andThen_found]
  have hrest : overloadStore.withoutRejected ["E"] [pickPair integer, pickPair string] [wantedPick]
      Binding.empty = [(wantedPick, [pickPair string])] := by
    rw [withoutRejected, hfilter, himplement, List.dropWhile_cons_of_pos
      (by rw [overloadStore_rejects]; rfl), List.dropWhile_cons_of_neg
      (by rw [hsecond]; exact Bool.false_ne_true)]
    rfl
  obtain ⟨hproper, ⟨offered, hoffered', -, heach⟩, harguments⟩ := matchClass_wellFormed hmatch
  rw [hoffered, Except.ok.injEq] at hoffered'
  subst hoffered'
  exact ⟨hmatch, hproper, hrest ▸ heach, harguments⟩

end Store

end Conformance
