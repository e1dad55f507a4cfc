import Conformance.Proofs.MethodOrder
import Conformance.Proofs.StoreNames

/-!
# The names of an interface's type parameters

Nothing but their names tells the type parameters of an interface from the type variables of a
class. Unification can do without: parameters are met in the wanted type only and variables of
the class in the offered one only, so renaming the parameters renames what is bound and nothing
else (`unify_rename`). But a parameter that is left open is still there when the wanted type is
compared with the offered one, and then it passes for a variable of the class that has the same
name.

So renaming the parameters of an interface can only make a difference where one that is left open
is named like a variable that it is compared with. If there is none (`Clear`), the renamed
interface is matched by the same classes and with the same values (`matchClass_rename`). With
names that the store does not know of that is always so (`clear_of_not_names`).
-/

namespace Conformance

open JavaType

/-! ## Searches that correspond -/

/-- Two searches come to the same, and what they find corresponds. -/
inductive Search.Rel (R : Binding → Binding → Prop) : Search → Search → Prop where
  | endless : Rel R .endless .endless
  | failed : Rel R .failed .failed
  | found {b b' : Binding} : R b b' → Rel R (.found b) (.found b')

namespace Search

variable {R : Binding → Binding → Prop} {s s' : Search}

theorem Rel.binding? (h : Rel R s s') : Option.Rel R s.binding? s'.binding? := by
  cases h with
  | endless | failed => exact .none
  | found h => exact .some h

theorem Rel.endless_iff (h : Rel R s s') : s = .endless ↔ s' = .endless := by
  cases h with
  | endless | failed => exact Iff.rfl
  | found _ => exact iff_of_false nofun nofun

theorem Rel.andThen {next next' : Binding → Search} (h : Rel R s s')
    (hnext : ∀ b b', R b b' → Rel R (next b) (next' b')) :
    Rel R (s.andThen next) (s'.andThen next') := by
  cases h with
  | endless => exact .endless
  | failed => exact .failed
  | found h => exact hnext _ _ h

theorem Rel.firstOf {α : Type} {search search' : α → Search} {as : List α}
    (h : ∀ a ∈ as, Rel R (search a) (search' a)) :
    Rel R (Search.firstOf search as) (Search.firstOf search' as) := by
  induction as with
  | nil => exact .failed
  | cons a as ih =>
    rw [List.forall_mem_cons] at h
    unfold Search.firstOf
    generalize search a = s at h
    generalize search' a = s' at h
    cases h.1 with
    | endless => exact .endless
    | failed => exact ih h.2
    | found hb => exact .found hb

end Search

/-! ## Interfaces with other parameter names -/

/-- The method with type variables renamed. -/
def WantedMethod.rename (ρ : String → String) (m : WantedMethod) : WantedMethod :=
  { m with returnType := m.returnType.rename ρ, params := m.params.map (JavaType.rename ρ) }

/-- Renaming in a wanted method renames in the wanted types that are compared. -/
theorem WantedMethod.comparedWith_rename (ρ : String → String) (wanted : WantedMethod)
    (candidate : MethodDef) : (wanted.rename ρ).comparedWith candidate
      = (wanted.comparedWith candidate).map fun pair => (pair.1.rename ρ, pair.2) := by
  have hparams : (wanted.params.map (JavaType.rename ρ)).zip candidate.params
      = (wanted.params.zip candidate.params).map fun pair => (pair.1.rename ρ, pair.2) := by
    rw [List.zip_map_left]
    rfl
  unfold comparedWith
  simp only [rename, isPrimitiveOrVoid_rename, hparams]
  split
  · rfl
  · rfl

theorem WantedMethod.mem_of_comparedWith {wanted : WantedMethod} {candidate : MethodDef}
    {pair : JavaType × JavaType} (h : pair ∈ wanted.comparedWith candidate) :
    pair.1 ∈ wanted.returnType :: wanted.params
      ∧ pair.2 ∈ candidate.returnType :: candidate.params := by
  have hparam : pair ∈ wanted.params.zip candidate.params →
      pair.1 ∈ wanted.returnType :: wanted.params
        ∧ pair.2 ∈ candidate.returnType :: candidate.params := fun h =>
    ⟨List.mem_cons_of_mem _ (List.of_mem_zip h).1, List.mem_cons_of_mem _ (List.of_mem_zip h).2⟩
  unfold comparedWith at h
  dsimp only at h
  split at h
  · exact hparam h
  · rcases List.mem_cons.mp h with rfl | h
    · exact ⟨List.mem_cons_self .., List.mem_cons_self ..⟩
    · exact hparam h

/-- The interface with its type parameters renamed, where it declares them and where it uses
them. -/
def InterfaceDescriptor.rename (ρ : String → String) (i : InterfaceDescriptor) :
    InterfaceDescriptor :=
  { i with typeParams := i.typeParams.map ρ, methods := i.methods.map (WantedMethod.rename ρ) }

/-- A binding of renamed parameters to the values that another gives to the parameters. -/
structure Binding.Renamed (params : List String) (ρ : String → String) (b b' : Binding) : Prop where
  value : ∀ x ∈ params, b'.find? (ρ x) = b.find? x
  /-- The one binding has values for parameters only ... -/
  others : ∀ x, x ∉ params → b.find? x = none
  /-- ... and the other for renamed parameters. -/
  others' : ∀ x, x ∉ params.map ρ → b'.find? x = none

/-- A renaming of the type parameters of an interface. No new name is that of another type
variable in the interface or, unless it is the old one, of one in the store. -/
structure Store.RenamesParams (store : Store) (ρ : String → String) (i : InterfaceDescriptor) :
    Prop where
  others : ∀ y, y ∉ i.typeParams → ρ y = y
  injective : ∀ x ∈ i.typeParams, ∀ y ∈ i.typeParams, ρ x = ρ y → x = y
  unused : ∀ m ∈ i.methods, ∀ w ∈ m.returnType :: m.params, ∀ y, w.mentions y = true →
    y ∉ i.typeParams → y ∉ i.typeParams.map ρ
  fresh : ∀ x ∈ i.typeParams, ρ x = x ∨ ¬ store.Names (ρ x)

namespace Binding

variable {params : List String} {ρ : String → String} {b b' : Binding}

theorem renamed_empty : Renamed params ρ empty empty :=
  ⟨by simp, by simp, by simp⟩

/-- Binding a parameter and binding it under its new name go in step. -/
theorem Renamed.bind (hρ : ∀ x ∈ params, ∀ y ∈ params, ρ x = ρ y → x = y)
    (h : Renamed params ρ b b') {x : String} (hx : x ∈ params) (u : JavaType) :
    Option.Rel (Renamed params ρ) (b.bind x u).toOption (b'.bind (ρ x) u).toOption := by
  have hvalue := h.value x hx
  cases hb : b.bind x u with
  | error conflict =>
    cases hb' : b'.bind (ρ x) u with
    | error conflict' => exact .none
    | ok c' =>
      obtain ⟨c, hc⟩ := exists_bind (b := b) (x := x) (u := u) fun v hv =>
        eq_of_bind hb' (hvalue.trans hv)
      rw [hb] at hc
      cases hc
  | ok c =>
    obtain ⟨c', hb'⟩ := exists_bind (b := b') (x := ρ x) (u := u) fun v hv =>
      eq_of_bind hb (hvalue.symm.trans hv)
    rw [hb']
    refine .some ⟨fun y hy => ?_, fun y hy => ?_, fun y hy => ?_⟩
    · rw [find?_of_bind hb, find?_of_bind hb', h.value y hy]
      by_cases hxy : x = y
      · rw [if_pos hxy, if_pos (congrArg ρ hxy)]
      · rw [if_neg hxy, if_neg fun e => hxy (hρ x hx y hy e)]
    · have hne : x ≠ y := fun e => hy (e ▸ hx)
      rw [find?_of_bind hb, if_neg hne, h.others y hy]
    · have hne : ρ x ≠ y := fun e => hy (e ▸ List.mem_map_of_mem hx)
      rw [find?_of_bind hb', if_neg hne, h.others' y hy]

end Binding

namespace Store

variable {store : Store} {params : List String} {ρ : String → String} {b b' : Binding}

/-! ## Unification -/

theorem unifyAll_rename {wanteds : List JavaType}
    (ih : ∀ w ∈ wanteds, ∀ o b b', b.Renamed params ρ b' →
      Option.Rel (Binding.Renamed params ρ) (store.unify params w o b)
        (store.unify (params.map ρ) (w.rename ρ) o b'))
    (offereds : List JavaType) (h : b.Renamed params ρ b') :
    Option.Rel (Binding.Renamed params ρ) (store.unifyAll params wanteds offereds b)
      (store.unifyAll (params.map ρ) (wanteds.map (rename ρ)) offereds b') := by
  induction wanteds generalizing offereds b b' with
  | nil => exact .some h
  | cons w wanteds ihs =>
    cases offereds with
    | nil => exact .some h
    | cons o offereds =>
      rw [List.forall_mem_cons] at ih
      rw [List.map_cons, unifyAll, unifyAll]
      exact rel_bind (ih.1 o b b' h) fun _ _ _ h => ihs ih.2 offereds h

section Unification

variable (hρ : ∀ x ∈ params, ∀ y ∈ params, ρ x = ρ y → x = y)
include hρ

/-- **Unification finds the same values for renamed parameters.** It does not matter which
variables the offered type mentions. -/
theorem unify_rename {wanted : JavaType} (offered : JavaType)
    (hwanted : ∀ y, wanted.mentions y = true → y ∉ params → ρ y ∉ params.map ρ)
    (h : b.Renamed params ρ b') :
    Option.Rel (Binding.Renamed params ρ) (store.unify params wanted offered b)
      (store.unify (params.map ρ) (wanted.rename ρ) offered b') := by
  induction wanted generalizing offered b b' with
  | typeVar x =>
    change Option.Rel _ (store.unify params (typeVar x) offered b)
      (store.unify (params.map ρ) (typeVar (ρ x)) offered b')
    by_cases hx : x ∈ params
    · have hx' : ρ x ∈ params.map ρ := List.mem_map_of_mem hx
      cases offered <;> simp only [unify, List.contains_iff_mem, hx, hx', if_true] <;>
        first
          | exact .none
          | exact h.bind hρ hx _
    · have hx' : ρ x ∉ params.map ρ := hwanted x (by simp [mentions]) hx
      unfold unify
      rw [if_neg (by simpa using hx), if_neg (by simpa using hx')]
      exact .some h
  | classType name arguments ih =>
    have hall : ∀ offereds, Option.Rel (Binding.Renamed params ρ)
        (store.unifyAll params arguments offereds b)
        (store.unifyAll (params.map ρ) (arguments.map (rename ρ)) offereds b') := by
      intro offereds
      refine unifyAll_rename (fun w hw o b b' h => ih w hw o (fun y hy => ?_) h) offereds h
      exact hwanted y (mentions_classType.mpr ⟨w, hw, hy⟩)
    rw [rename_classType]
    unfold unify
    rw [List.isEmpty_map]
    split
    · exact .some h
    · split
      · rw [List.length_map]
        split
        · exact hall _
        · exact .some h
      · exact .some h
  | array element ih =>
    change Option.Rel _ (store.unify params (array element) offered b)
      (store.unify (params.map ρ) (array (element.rename ρ)) offered b')
    cases offered <;>
      first
        | exact ih _ hwanted h
        | exact .some h
  | wildcardExtends bound ih =>
    change Option.Rel _ (store.unify params (wildcardExtends bound) offered b)
      (store.unify (params.map ρ) (wildcardExtends (bound.rename ρ)) offered b')
    cases offered <;>
      first
        | exact ih _ hwanted h
        | exact .some h
  | wildcardSuper bound ih =>
    change Option.Rel _ (store.unify params (wildcardSuper bound) offered b)
      (store.unify (params.map ρ) (wildcardSuper (bound.rename ρ)) offered b')
    cases offered <;>
      first
        | exact ih _ hwanted h
        | exact .some h
  | _ => exact .some h

end Unification

/-! ## Comparisons -/

/-- A type parameter that unifying a wanted type with an offered one leaves open has not the name
of a variable that the wanted type is compared with. -/
def Clear (store : Store) (params : List String) (pair : JavaType × JavaType) : Prop :=
  ∀ own, store.unify params pair.1 pair.2 Binding.empty = some own →
    ∀ x ∈ params, pair.1.mentions x = true → own.find? x = none →
      pair.2.mentions x = false ∧ ¬ store.Stray x

/-- The names of parameters, old and new, that do not get mixed up with those of other variables
when two types are compared. -/
structure Apart (store : Store) (params : List String) (ρ : String → String)
    (pair : JavaType × JavaType) : Prop where
  clear : store.Clear params pair
  wanted : ∀ y, pair.1.mentions y = true → y ∉ params → ρ y = y ∧ y ∉ params.map ρ
  offered : ∀ x ∈ params, ρ x = x ∨ (pair.2.mentions (ρ x) = false ∧ ¬ store.Stray (ρ x))

/-- The names in a wanted type under a binding, and those after parameters were renamed: what is
left of the parameters has new names, the variables in their values keep theirs. -/
inductive OpenNames (params : List String) (ρ : String → String) (wanted : JavaType) (b : Binding) :
    String → String → Prop where
  | kept (x : String) : OpenNames params ρ wanted b x x
  | renamed {x : String} : x ∈ params → wanted.mentions x = true → b.find? x = none →
      OpenNames params ρ wanted b x (ρ x)

/-- The names in an offered type and in what lies above it do not change. -/
def OfferedNames (store : Store) (offered : JavaType) (y y' : String) : Prop :=
  y' = y ∧ (offered.mentions y = true ∨ store.Stray y)

theorem substitute_rename_alike {wanted : JavaType}
    (hwanted : ∀ y, wanted.mentions y = true → y ∉ params → ρ y = y ∧ y ∉ params.map ρ)
    (h : b.Renamed params ρ b') :
    Alike (OpenNames params ρ wanted b) (b.substitute wanted) (b'.substitute (wanted.rename ρ)) := by
  unfold Binding.substitute rename
  rw [substitute_substitute]
  refine alike_substitute fun x hx => ?_
  change Alike _ _ ((b'.find? (ρ x)).getD (typeVar (ρ x)))
  by_cases hparam : x ∈ params
  · rw [h.value x hparam]
    cases hb : b.find? x with
    | none => exact .typeVar (.renamed hparam hx hb)
    | some u => exact alike_self fun y _ => .kept y
  · obtain ⟨hsame, hunused⟩ := hwanted x hx hparam
    rw [hsame, h.others x hparam, h.others' x hunused]
    exact .typeVar (.kept x)

/-- **Comparisons come out the same for renamed parameters**, if the names are kept apart. -/
theorem outcome_rename {pair : JavaType × JavaType} (hpair : store.Apart params ρ pair)
    (hunify : store.unify params pair.1 pair.2 b = some b) (h : b.Renamed params ρ b') :
    outcome (store.assignable (b.substitute pair.1) pair.2)
      = outcome (store.assignable (b'.substitute (pair.1.rename ρ)) pair.2) := by
  -- what the two types leave open by themselves is at least what is left open now
  have hsettling : Settling (store.unify params pair.1 pair.2) := settling_unify pair.1 pair.2
  obtain ⟨own, hown, hle⟩ := hsettling.least (Binding.empty_le b) hunify
  have hopen : ∀ x, b.find? x = none → own.find? x = none := fun x hx =>
    Option.eq_none_iff_forall_ne_some.mpr fun u hu => by rw [hle x u hu] at hx; cases hx
  have hconsistent : Consistent (OpenNames params ρ pair.1 b) (store.OfferedNames pair.2) := by
    rintro x x' y y' hx ⟨rfl, hy⟩
    cases hx with
    | kept => rfl
    | renamed hparam hmentions hb =>
      have hmet : ∀ z, pair.2.mentions z = false ∧ ¬ store.Stray z → z ≠ y' := by
        rintro z ⟨hnot, hstray⟩ rfl
        rcases hy with hy | hy
        · rw [hnot] at hy
          cases hy
        · exact hstray hy
      have hne := hmet _ (hpair.clear own hown _ hparam hmentions (hopen _ hb))
      rcases hpair.offered _ hparam with hsame | hnew
      · rw [hsame]
      · exact iff_of_false hne (hmet _ hnew)
  exact assignable_alike hconsistent (fun x _ => .kept x) (fun x hx => ⟨rfl, .inr hx⟩)
    (substitute_rename_alike hpair.wanted h) (alike_self fun y hy => ⟨rfl, .inl hy⟩)

/-! ## Matches -/

section Matches

variable (hρ : ∀ x ∈ params, ∀ y ∈ params, ρ x = ρ y → x = y)
include hρ

theorem fit_rename {pair : JavaType × JavaType} (hpair : store.Apart params ρ pair)
    (h : b.Renamed params ρ b') :
    Search.Rel (Binding.Renamed params ρ) (store.fit params pair.1 pair.2 b)
      (store.fit (params.map ρ) (pair.1.rename ρ) pair.2 b') := by
  have hwanted : ∀ y, pair.1.mentions y = true → y ∉ params → ρ y ∉ params.map ρ := by
    intro y hy hparam
    obtain ⟨hsame, hunused⟩ := hpair.wanted y hy hparam
    rwa [hsame]
  have hunify : Option.Rel (Binding.Renamed params ρ) (store.unify params pair.1 pair.2 b)
      (store.unify (params.map ρ) (pair.1.rename ρ) pair.2 b') := unify_rename hρ pair.2 hwanted h
  unfold fit
  generalize hc : store.unify params pair.1 pair.2 b = c at hunify
  generalize store.unify (params.map ρ) (pair.1.rename ρ) pair.2 b' = c' at hunify
  cases hunify with
  | none => exact .failed
  | some h =>
    have hsettling : Settling (store.unify params pair.1 pair.2) := settling_unify pair.1 pair.2
    have houtcome := outcome_rename hpair (hsettling.stays hc (le_refl _)) h
    dsimp only
    split
    · next hendless =>
      rw [hendless] at houtcome
      rw [Option.map_eq_none_iff.mp houtcome.symm]
      exact .endless
    · next hpasses =>
      rw [hpasses] at houtcome
      rw [outcome_eq_true.mp houtcome.symm]
      exact .found h
    · next hfails hends =>
      rw [hends] at houtcome
      split
      · next hendless =>
        rw [hendless] at houtcome
        cases houtcome
      · next hpasses =>
        rw [hpasses] at houtcome
        exact absurd (Option.some.inj (outcome_eq_true.mp houtcome)) hfails
      · exact .failed

theorem fitPairs_rename {pairs : List (JavaType × JavaType)}
    (hpairs : ∀ pair ∈ pairs, store.Apart params ρ pair) (h : b.Renamed params ρ b') :
    Search.Rel (Binding.Renamed params ρ) (store.fitPairs params pairs b)
      (store.fitPairs (params.map ρ) (pairs.map fun pair => (pair.1.rename ρ, pair.2)) b') := by
  induction pairs generalizing b b' with
  | nil => exact .found h
  | cons pair pairs ih =>
    rw [List.forall_mem_cons] at hpairs
    rw [List.map_cons, fitPairs, fitPairs]
    exact (fit_rename hρ hpairs.1 h).andThen fun _ _ h => ih hpairs.2 h

theorem accept_rename {wanted : WantedMethod} {candidate : MethodDef}
    (hpairs : ∀ pair ∈ wanted.comparedWith candidate, store.Apart params ρ pair)
    (h : b.Renamed params ρ b') :
    Search.Rel (Binding.Renamed params ρ) (store.accept params wanted candidate b)
      (store.accept (params.map ρ) (wanted.rename ρ) candidate b') := by
  have hresult : ((wanted.rename ρ).returnType.isPrimitiveOrVoid = true →
        (wanted.rename ρ).returnType = candidate.returnType)
      ↔ (wanted.returnType.isPrimitiveOrVoid = true → wanted.returnType = candidate.returnType) := by
    have hprim : (wanted.rename ρ).returnType.isPrimitiveOrVoid
        = wanted.returnType.isPrimitiveOrVoid := isPrimitiveOrVoid_rename ρ wanted.returnType
    rw [hprim]
    refine imp_congr_right fun h => ?_
    have hsame : (wanted.rename ρ).returnType = wanted.returnType := rename_of_isPrimitiveOrVoid h
    rw [hsame]
  rw [accept_eq, accept_eq, if_congr hresult rfl rfl, WantedMethod.comparedWith_rename]
  split
  · exact fitPairs_rename hρ hpairs h
  · exact .failed

theorem implement_rename {offered : List MethodDef} {wanted : WantedMethod}
    (hpairs : ∀ pair ∈ (offered.filter (WantedMethod.isNamedLike wanted)).flatMap wanted.comparedWith,
      store.Apart params ρ pair) (h : b.Renamed params ρ b') :
    Search.Rel (Binding.Renamed params ρ) (store.implement params offered wanted b)
      (store.implement (params.map ρ) offered (wanted.rename ρ) b') := by
  have hlike : WantedMethod.isNamedLike (wanted.rename ρ) = WantedMethod.isNamedLike wanted := by
    funext candidate
    have harity : (wanted.rename ρ).arity = wanted.arity := List.length_map ..
    rw [WantedMethod.isNamedLike, WantedMethod.isNamedLike, harity]
    rfl
  unfold implement
  rw [hlike]
  refine .firstOf fun candidate hcandidate => accept_rename hρ (fun pair hpair => ?_) h
  exact hpairs pair (List.mem_flatMap.mpr ⟨candidate, hcandidate, hpair⟩)

theorem implementAll_rename {offered : List MethodDef} {wanteds : List WantedMethod}
    (hpairs : ∀ wanted ∈ wanteds, ∀ pair ∈
      (offered.filter (WantedMethod.isNamedLike wanted)).flatMap wanted.comparedWith,
      store.Apart params ρ pair) (h : b.Renamed params ρ b') :
    Search.Rel (Binding.Renamed params ρ) (store.implementAll params offered wanteds b)
      (store.implementAll (params.map ρ) offered (wanteds.map (WantedMethod.rename ρ)) b') := by
  induction wanteds generalizing b b' with
  | nil => exact .found h
  | cons wanted wanteds ih =>
    rw [List.forall_mem_cons] at hpairs
    rw [List.map_cons, implementAll, implementAll]
    exact (implement_rename hρ hpairs.1 h).andThen fun _ _ h => ih hpairs.2 h

end Matches

/-- The types that are compared are wanted and offered ones. -/
theorem mem_of_comparisons {className : String} {i : InterfaceDescriptor}
    {pair : JavaType × JavaType} (h : pair ∈ store.comparisons className i) :
    (∃ wanted ∈ i.methods, pair.1 ∈ wanted.returnType :: wanted.params)
      ∧ ∀ x, pair.2.mentions x = true → store.Names x := by
  unfold comparisons at h
  split at h
  · next offered hoffered =>
    obtain ⟨wanted, hwanted, h⟩ := List.mem_flatMap.mp h
    obtain ⟨candidate, hcandidate, h⟩ := List.mem_flatMap.mp h
    obtain ⟨hfirst, hsecond⟩ := WantedMethod.mem_of_comparedWith h
    refine ⟨⟨wanted, hwanted, hfirst⟩, fun x hx => ?_⟩
    exact names_of_candidates hoffered (List.mem_of_mem_filter hcandidate) hsecond hx
  · cases h

/-- Parameters with names that the store does not know of are never confused with its variables. -/
theorem clear_of_not_names {className : String} {i : InterfaceDescriptor}
    (hfresh : ∀ x ∈ i.typeParams, ¬ store.Names x) :
    ∀ pair ∈ store.comparisons className i, store.Clear i.typeParams pair := by
  intro pair hpair own _ x hx _ _
  obtain ⟨-, hnames⟩ := mem_of_comparisons hpair
  refine ⟨Bool.eq_false_iff.mpr fun hmentions => hfresh x hx (hnames x hmentions), fun hstray => ?_⟩
  exact hfresh x hx (names_of_stray hstray)

theorem apart_of_comparisons {className : String} {i : InterfaceDescriptor}
    (hρ : store.RenamesParams ρ i) {pair : JavaType × JavaType}
    (hpair : pair ∈ store.comparisons className i) (hclear : store.Clear i.typeParams pair) :
    store.Apart i.typeParams ρ pair := by
  obtain ⟨⟨wanted, hwanted, hmem⟩, hnames⟩ := mem_of_comparisons hpair
  refine ⟨hclear, fun y hy hparam => ⟨hρ.others y hparam, ?_⟩, fun x hx => ?_⟩
  · exact hρ.unused wanted hwanted _ hmem y hy hparam
  · refine (hρ.fresh x hx).imp_right fun hunknown => ⟨Bool.eq_false_iff.mpr fun hmentions => ?_, ?_⟩
    · exact hunknown (hnames _ hmentions)
    · exact fun hstray => hunknown (names_of_stray hstray)

/-- A search finds renamed parameters like those that were not renamed, if the names are kept
apart. -/
theorem search_rename {className : String} {i : InterfaceDescriptor}
    (hρ : store.RenamesParams ρ i)
    (hclear : ∀ pair ∈ store.comparisons className i, store.Clear i.typeParams pair) :
    Search.Rel (Binding.Renamed i.typeParams ρ) (store.search className i)
      (store.search className (i.rename ρ)) := by
  have hempty : (i.rename ρ).methods.isEmpty = i.methods.isEmpty := List.isEmpty_map
  have hapart : ∀ pair ∈ store.comparisons className i, store.Apart i.typeParams ρ pair :=
    fun pair hpair => apart_of_comparisons hρ hpair (hclear pair hpair)
  unfold search
  rw [hempty]
  split
  · exact .failed
  · cases hcandidates : store.candidates className with
    | error fault => exact .failed
    | ok offered =>
      refine implementAll_rename hρ.injective (fun wanted hwanted pair hpair => ?_)
        Binding.renamed_empty
      refine hapart pair ?_
      unfold comparisons
      rw [hcandidates]
      exact List.mem_flatMap.mpr ⟨wanted, hwanted, hpair⟩

/-- **Only an open parameter can be confused with a variable of the class.** A class matches an
interface and the same with its type parameters renamed, with the same values under the new names,
or neither of the two, unless a type parameter that unification leaves open has the name of a type
variable that it is compared with. And the one search ends exactly if the other does. -/
theorem matchClass_rename {className : String} {i : InterfaceDescriptor}
    (hρ : store.RenamesParams ρ i)
    (hclear : ∀ pair ∈ store.comparisons className i, store.Clear i.typeParams pair) :
    Option.Rel (Binding.Renamed i.typeParams ρ) (store.matchClass className i)
        (store.matchClass className (i.rename ρ))
      ∧ (store.search className i = .endless ↔ store.search className (i.rename ρ) = .endless) := by
  have hsearch := search_rename hρ hclear
  exact ⟨hsearch.binding?, hsearch.endless_iff⟩

/-! ### A class variable with the name of a parameter

A class `K<E>` has the methods `get` and `other`, and is compared with an interface `I<E>` whose
parameter is then called `F`.
-/

/-- Calls `E` by the name `F`. -/
def toF (x : String) : String := if x = "E" then "F" else x

def foo (argument : JavaType) : JavaType := classType "p.Foo" [argument]

def bar (argument : JavaType) : JavaType := classType "p.Bar" [argument]

/-- A class `Foo<X>` with the superclass `Bar<X>`, and a class `K<E>` with methods `get` and
`other`. -/
def barClasses (get other : JavaType) : List ClassDef :=
  [ { name := objectName, kind := .plainClass },
    { name := "p.View", kind := .interface, typeParams := [{ name := "V" }] },
    { name := "p.Bar"
      kind := .plainClass
      typeParams := [{ name := "X" }]
      superClass := some object },
    { name := "p.Foo"
      kind := .plainClass
      typeParams := [{ name := "X" }]
      superClass := some (bar (typeVar "X")) },
    { name := "p.K"
      kind := .plainClass
      typeParams := [{ name := "E" }]
      superClass := some object
      methods := getAndOther get other } ]

def barStore (get other : JavaType) : Store := Store.empty.insertAll (barClasses get other)

theorem not_names_barStore {get other : JavaType} (hget : get.mentions "F" = false)
    (hother : other.mentions "F" = false) : ¬ (barStore get other).Names "F" := by
  rintro ⟨name, d, hd, hx⟩
  have hmem := mem_of_find?_insertAll hd
  simp only [barClasses, List.mem_cons, List.not_mem_nil, or_false] at hmem
  rcases hmem with rfl | rfl | rfl | rfl | rfl <;>
    simp [ClassDef.Names, MethodDef.Names, TypeParam.Names, ClassDef.directSupertypes,
      ClassDef.isInterface, getAndOther, object, raw, bar, mentions, mentionsAny, hget, hother] at hx

/-- The parameter of an interface that uses no other variable can be called `F`. -/
theorem renamesParams_toF {wanted : JavaType} (hwanted : ∀ y, wanted.mentions y = true → y = "E")
    (hfresh : ¬ store.Names "F") : store.RenamesParams toF (wantsGetAndOther wanted) := by
  have hparams : ∀ x, x ∈ (wantsGetAndOther wanted).typeParams ↔ x = "E" := by
    simp [wantsGetAndOther]
  refine ⟨fun y hy => ?_, fun x hx y hy _ => ?_, fun m hm w hw y hy hparam => ?_, fun x hx => ?_⟩
  · rw [hparams] at hy
    exact if_neg hy
  · rw [(hparams x).mp hx, (hparams y).mp hy]
  · refine absurd ((hparams y).mpr ?_) hparam
    simp only [wantsGetAndOther, List.mem_cons, List.not_mem_nil, or_false] at hm
    rcases hm with rfl | rfl
    · simp only [List.mem_singleton] at hw
      exact hwanted y (hw ▸ hy)
    · simp only [List.mem_singleton] at hw
      subst hw
      simpa [mentions, eq_comm] using hy
  · obtain rfl := (hparams x).mp hx
    exact .inr hfresh

/-- The interface with the parameter `F` is gone through like the one with `E`. -/
theorem search_getAndOther_toF {className : String} {wanted get other : JavaType}
    (hmethods : store.methods className = .ok (getAndOther get other))
    (hwanted : wanted.isPrimitiveOrVoid = false) :
    store.search className ((wantsGetAndOther wanted).rename toF)
      = (store.fit ["F"] (wanted.rename toF) get Binding.empty).andThen
          (store.fit ["F"] (typeVar "F") other) := by
  have hvar : (typeVar "F").isPrimitiveOrVoid = false := rfl
  have hrenamed : (typeVar "E").rename toF = typeVar "F" := rfl
  have hparam : toF "E" = "F" := rfl
  unfold search
  rw [candidates_getAndOther hmethods]
  simp [wantsGetAndOther, InterfaceDescriptor.rename, WantedMethod.rename, getAndOther,
    implementAll, implement, WantedMethod.isNamedLike, WantedMethod.arity, accept, fitResult,
    isPrimitiveOrVoid_rename, hwanted, hvar, hrenamed, hparam]

/-- A `K<E>` with a view of a `Bar<E>`, and with an `E`. -/
def sameNameStore : Store := barStore (view (bar (typeVar "E"))) (typeVar "E")

/-- An `I<E>` that wants a view of a `Bar<E>`, and an `E`. -/
def wantsBarView : InterfaceDescriptor := wantsGetAndOther (view (bar (typeVar "E")))

/-- What `K<E>` and `I<E>` call the same is not confused: the `E` of the interface is found to be
the `E` of the class, and so is `F`. -/
theorem sameNameStore_renamed :
    sameNameStore.RenamesParams toF wantsBarView
      ∧ (∀ pair ∈ sameNameStore.comparisons "p.K" wantsBarView,
        sameNameStore.Clear wantsBarView.typeParams pair)
      ∧ Option.Rel (Binding.Renamed wantsBarView.typeParams toF)
          (sameNameStore.matchClass "p.K" wantsBarView)
          (sameNameStore.matchClass "p.K" (wantsBarView.rename toF))
      ∧ (sameNameStore.search "p.K" wantsBarView = .endless
        ↔ sameNameStore.search "p.K" (wantsBarView.rename toF) = .endless)
      ∧ sameNameStore.matchClass "p.K" wantsBarView = some (single "E" (typeVar "E")) := by
  have hmethods : sameNameStore.methods "p.K"
      = .ok (getAndOther (view (bar (typeVar "E"))) (typeVar "E")) := by decide +kernel
  have hrenames : sameNameStore.RenamesParams toF wantsBarView :=
    renamesParams_toF (fun y hy => by simpa [view, bar, mentions, mentionsAny, eq_comm] using hy)
      (not_names_barStore (by decide) (by decide))
  -- unification leaves nothing open
  have hbind : sameNameStore.unify ["E"] (typeVar "E") (typeVar "E") Binding.empty
      = some (single "E" (typeVar "E")) := unify_single rfl
  have hview : sameNameStore.unify ["E"] (view (bar (typeVar "E"))) (view (bar (typeVar "E")))
      Binding.empty = some (single "E" (typeVar "E")) := by
    rw [view, unify_argument, bar, unify_argument, hbind]
  have hclear : ∀ pair ∈ sameNameStore.comparisons "p.K" wantsBarView,
      sameNameStore.Clear wantsBarView.typeParams pair := by
    have hpairs : sameNameStore.comparisons "p.K" wantsBarView
        = [(view (bar (typeVar "E")), view (bar (typeVar "E"))), (typeVar "E", typeVar "E")] := by
      unfold comparisons
      rw [candidates_getAndOther hmethods]
      decide
    have hfind : (single "E" (typeVar "E")).find? "E" = some (typeVar "E") := by decide
    intro pair hpair own hown x hx _ hopen
    obtain rfl : x = "E" := List.mem_singleton.mp hx
    have hbound : own = single "E" (typeVar "E") := by
      rw [hpairs] at hpair
      simp only [List.mem_cons, List.not_mem_nil, or_false] at hpair
      rcases hpair with rfl | rfl
      · exact Option.some.inj (hown.symm.trans hview)
      · exact Option.some.inj (hown.symm.trans hbind)
    rw [hbound, hfind] at hopen
    cases hopen
  obtain ⟨hsame, hends⟩ := matchClass_rename hrenames hclear
  refine ⟨hrenames, hclear, hsame, hends, ?_⟩
  have hother : sameNameStore.unify ["E"] (typeVar "E") (typeVar "E") (single "E" (typeVar "E"))
      = some (single "E" (typeVar "E")) :=
    (settling_unify (typeVar "E") (typeVar "E")).stays hbind (le_refl _)
  rw [matchClass_eq_some, wantsBarView, search_getAndOther hmethods rfl,
    fit_of_within (n := 1) hview (by decide), Search.andThen_found,
    fit_of_within (n := 1) hother (by decide)]

/-- A `K<E>` with a view of a `Bar<E>`, and with a `String`. -/
def stringStore : Store := barStore (view (bar (typeVar "E"))) string

/-- An `I<E>` that wants a view of something above a `Foo<E>`, and an `E`. -/
def wantsAboveFoo : InterfaceDescriptor :=
  wantsGetAndOther (view (wildcardSuper (foo (typeVar "E"))))

/-- A `Bar<E>` is above the `Foo<E>` of the interface only because both variables are called `E`.
It is not above a `Foo<F>`, and it is not above the `Foo<String>` that is meant in the end. -/
theorem stringStore_captured :
    stringStore.RenamesParams toF wantsAboveFoo
      ∧ stringStore.matchClass "p.K" wantsAboveFoo = some (single "E" string)
      ∧ stringStore.search "p.K" (wantsAboveFoo.rename toF) = .failed
      ∧ stringStore.assignable
          ((single "E" string).substitute (view (wildcardSuper (foo (typeVar "E")))))
          (view (bar (typeVar "E"))) = some (.ok false) := by
  have hmethods : stringStore.methods "p.K"
      = .ok (getAndOther (view (bar (typeVar "E"))) string) := by decide +kernel
  have hrenames : stringStore.RenamesParams toF wantsAboveFoo :=
    renamesParams_toF
      (fun y hy => by simpa [view, foo, mentions, mentionsAny, eq_comm] using hy)
      (not_names_barStore (by decide) (by decide))
  -- a `Bar` is no `Foo`, so nothing is bound by the first method
  have hnone : stringStore.supertypeView (bar (typeVar "E")) "p.Foo" = .ok none := by
    decide +kernel
  have hopen : ∀ x, stringStore.unify [x] (view (wildcardSuper (foo (typeVar x))))
      (view (bar (typeVar "E"))) Binding.empty = some Binding.empty := by
    intro x
    rw [view, view, unify_argument]
    simp only [bar] at hnone
    simp [bar, foo, unify, hnone]
  refine ⟨hrenames, ?_, ?_, assignable_of_within (n := 4) (by decide +kernel)⟩
  · have hget : stringStore.fit ["E"] (view (wildcardSuper (foo (typeVar "E"))))
        (view (bar (typeVar "E"))) Binding.empty = .found Binding.empty :=
      fit_of_within (n := 4) (hopen "E") (by decide +kernel)
    exact matchClass_getAndOther hmethods rfl hget (fit_single (n := 1) rfl (by decide))
  · have hfalse : stringStore.assignableWithin 4
        (Binding.empty.substitute (view (wildcardSuper (foo (typeVar "F")))))
        (view (bar (typeVar "E"))) = some (.ok false) := by decide +kernel
    have hrefused : stringStore.fit ["F"] (view (wildcardSuper (foo (typeVar "F"))))
        (view (bar (typeVar "E"))) Binding.empty = .failed := by
      rw [fit, hopen]
      dsimp only
      rw [assignable_of_within hfalse]
    have hrenamed : (view (wildcardSuper (foo (typeVar "E")))).rename toF
        = view (wildcardSuper (foo (typeVar "F"))) := rfl
    rw [wantsAboveFoo, search_getAndOther_toF hmethods rfl, hrenamed, hrefused,
      Search.andThen_failed]

end Store

end Conformance
