import Conformance.Store.Assignable
import Conformance.Proofs.Aligned
import Conformance.Proofs.Walk

/-!
# Comparisons and the names of type variables

A comparison never asks what a type variable is called, only whether two of them are the same.
So it comes out alike for two pairs of types that have the same shapes (`Alike`), as long as a
variable of one side is also one of the other in both pairs or in neither (`Consistent`).

Two kinds of variables take part that are not in the types themselves. Seeing a type as a use of
a class above it puts its arguments in the place of the parameters that the class declares; a
variable that a declared supertype mentions without being declared is left as it is, and so is
one in the bound that fills in for a missing argument. These are the `Stray` variables of a store,
and they keep their names. All others come from the types compared.

A lower bound exchanges the two sides, so what is shown of the two sides of a comparison is shown
for both orders at once.
-/

namespace Conformance

open JavaType

namespace JavaType

/-! ## Types of one shape -/

/-- The type with its type variables renamed. -/
def rename (ρ : String → String) (t : JavaType) : JavaType :=
  t.substitute fun x => some (typeVar (ρ x))

theorem rename_classType (ρ : String → String) (name : String) (arguments : List JavaType) :
    (classType name arguments).rename ρ = classType name (arguments.map (rename ρ)) :=
  substitute_classType _ name arguments

theorem isPrimitiveOrVoid_rename (ρ : String → String) (t : JavaType) :
    (t.rename ρ).isPrimitiveOrVoid = t.isPrimitiveOrVoid := by
  cases t <;> rfl

theorem rename_of_isPrimitiveOrVoid {ρ : String → String} {t : JavaType}
    (h : t.isPrimitiveOrVoid = true) : t.rename ρ = t := by
  cases t with
  | void | primitive _ => rfl
  | _ => cases h

/-- The types differ in the names of their type variables only, and the names at each place are
related. -/
inductive Alike (E : String → String → Prop) : JavaType → JavaType → Prop where
  | void : Alike E .void .void
  | primitive (p : Primitive) : Alike E (.primitive p) (.primitive p)
  | classType {name : String} {arguments arguments' : List JavaType} :
      List.Forall₂ (Alike E) arguments arguments' →
      Alike E (.classType name arguments) (.classType name arguments')
  | array {t t' : JavaType} : Alike E t t' → Alike E (.array t) (.array t')
  | typeVar {x x' : String} : E x x' → Alike E (.typeVar x) (.typeVar x')
  | wildcard : Alike E .wildcard .wildcard
  | wildcardExtends {t t' : JavaType} :
      Alike E t t' → Alike E (.wildcardExtends t) (.wildcardExtends t')
  | wildcardSuper {t t' : JavaType} :
      Alike E t t' → Alike E (.wildcardSuper t) (.wildcardSuper t')

variable {E L R : String → String → Prop} {t t' : JavaType}

/-- Two substitutions make of one type types alike if they do so of each variable. -/
theorem alike_substitute {s s' : Substitution} {t : JavaType}
    (h : ∀ x, t.mentions x = true → Alike E ((s x).getD (typeVar x)) ((s' x).getD (typeVar x))) :
    Alike E (t.substitute s) (t.substitute s') := by
  induction t with
  | void => exact .void
  | primitive p => exact .primitive p
  | wildcard => exact .wildcard
  | typeVar x => exact h x (by simp [mentions])
  | classType name arguments ih =>
    rw [substitute_classType, substitute_classType]
    refine .classType ?_
    rw [List.forall₂_map_left_iff, List.forall₂_map_right_iff, List.forall₂_same]
    exact fun a ha => ih a ha fun x hx => h x (mentions_classType.mpr ⟨a, ha, hx⟩)
  | array t ih => exact .array (ih h)
  | wildcardExtends t ih => exact .wildcardExtends (ih h)
  | wildcardSuper t ih => exact .wildcardSuper (ih h)

theorem alike_self (h : ∀ x, t.mentions x = true → E x x) : Alike E t t := by
  have hsame : Alike E (t.substitute fun _ => none) (t.substitute fun _ => none) :=
    alike_substitute fun x hx => .typeVar (h x hx)
  rwa [substitute_none] at hsame

theorem Alike.symm (h : Alike E t t') : Alike (fun x' x => E x x') t' t := by
  induction t generalizing t' with
  | void =>
    cases h
    exact .void
  | primitive p =>
    cases h
    exact .primitive p
  | wildcard =>
    cases h
    exact .wildcard
  | typeVar x =>
    cases h with
    | typeVar hx => exact .typeVar hx
  | classType name arguments ih =>
    cases h with
    | classType hall =>
      refine .classType (List.Forall₂.flip ?_)
      exact ((List.forall₂_and_left _ _).mpr ⟨ih, hall⟩).imp fun _ _ h => h.1 h.2
  | array t ih =>
    cases h with
    | array h => exact .array (ih h)
  | wildcardExtends t ih =>
    cases h with
    | wildcardExtends h => exact .wildcardExtends (ih h)
  | wildcardSuper t ih =>
    cases h with
    | wildcardSuper h => exact .wildcardSuper (ih h)

/-- If what two types are like is the same for each variable, it is the same for the types. -/
theorem Alike.eq (h : Alike L t t') {c' : JavaType} (h' : Alike R t c')
    (hLR : ∀ x x' y', L x x' → R x y' → x' = y') : t' = c' := by
  induction t generalizing t' c' with
  | typeVar x =>
    cases h with
    | typeVar hx =>
      cases h' with
      | typeVar hy => rw [hLR x _ _ hx hy]
  | classType name arguments ih =>
    cases h with
    | classType hall =>
      cases h' with
      | classType hall' =>
        have hmember := ((List.forall₂_and_left _ _).mpr ⟨ih, hall⟩).flip
        have hequal : List.Forall₂ Eq _ _ :=
          forall₂_trans (fun _ _ _ h h' => h.1 h.2 h') hmember hall'
        rw [List.forall₂_eq_eq_eq] at hequal
        rw [hequal]
  | array t ih =>
    cases h with
    | array h =>
      cases h' with
      | array h' => rw [ih h h']
  | wildcardExtends t ih =>
    cases h with
    | wildcardExtends h =>
      cases h' with
      | wildcardExtends h' => rw [ih h h']
  | wildcardSuper t ih =>
    cases h with
    | wildcardSuper h =>
      cases h' with
      | wildcardSuper h' => rw [ih h h']
  | _ =>
    cases h
    cases h'
    rfl

theorem Alike.className? (h : Alike E t t') : t'.className? = t.className? := by
  cases h <;> rfl

theorem Alike.isObject (h : Alike E t t') : t'.isObject = t.isObject := by
  cases h <;> rfl

/-- What is like a primitive type is that type. -/
theorem Alike.eq_primitive (h : Alike E t t') {p : Primitive} (hp : t' = .primitive p) :
    t = .primitive p := by
  subst hp
  cases h
  rfl

end JavaType

/-! ## Variables that keep their names -/

/-- A variable that is left in what lies above a use of the class, whatever the arguments are:
one that a supertype mentions undeclared, or one in the erasure of a parameter. -/
def ClassDef.Stray (d : ClassDef) (x : String) : Prop :=
  (x ∉ d.typeParamNames ∧ ∃ u ∈ d.directSupertypes, u.mentions x = true)
    ∨ ∃ p ∈ d.typeParams, p.erasure.mentions x = true

namespace ClassDef

variable {E : String → String → Prop} {d : ClassDef} {arguments arguments' : List JavaType}

theorem instantiationPairs_alike {params : List TypeParam}
    (hparams : ∀ p ∈ params, Alike E p.erasure p.erasure)
    (h : List.Forall₂ (Alike E) arguments arguments') :
    List.Forall₂ (fun pair pair' => pair'.1 = pair.1 ∧ Alike E pair.2 pair'.2)
      (instantiationPairs params arguments) (instantiationPairs params arguments') := by
  induction params generalizing arguments arguments' with
  | nil => exact .nil
  | cons p params ih =>
    rw [List.forall_mem_cons] at hparams
    cases h with
    | nil => exact .cons ⟨rfl, hparams.1⟩ (ih hparams.2 .nil)
    | cons ha h => exact .cons ⟨rfl, ha⟩ (ih hparams.2 h)

/-- Uses of the class that are alike make of a supertype types that are alike. -/
theorem substitute_instantiation_alike (hstray : ∀ x, d.Stray x → E x x)
    (h : List.Forall₂ (Alike E) arguments arguments') {u : JavaType} (hu : u ∈ d.directSupertypes) :
    Alike E (u.substitute (d.instantiation arguments))
      (u.substitute (d.instantiation arguments')) := by
  refine alike_substitute fun x hx => ?_
  by_cases hdeclared : x ∈ d.typeParamNames
  · have hparams : ∀ p ∈ d.typeParams, Alike E p.erasure p.erasure := fun p hp =>
      alike_self fun y hy => hstray y (.inr ⟨p, hp, hy⟩)
    have hpairs := instantiationPairs_alike hparams h
    have hvalues : Option.Rel (Alike E) (d.instantiation arguments x)
        (d.instantiation arguments' x) :=
      lookup_of_forall₂ (List.forall₂_reverse_iff.mpr hpairs) x
    obtain ⟨v, hv, -⟩ := instantiation_eq_some hdeclared arguments
    obtain ⟨v', hv', -⟩ := instantiation_eq_some hdeclared arguments'
    rw [hv, hv'] at hvalues ⊢
    cases hvalues with
    | some hvalue => exact hvalue
  · rw [instantiation_eq_none hdeclared, instantiation_eq_none hdeclared]
    exact .typeVar (hstray x (.inl ⟨hdeclared, u, hu, hx⟩))

end ClassDef

namespace Store

/-- A variable that some stored definition leaves in what lies above a use of its class. -/
def Stray (store : Store) (x : String) : Prop :=
  ∃ name d, store.find? name = some d ∧ d.Stray x

/-- Two types are alike, or neither is a class. -/
def AlikeUse (E : String → String → Prop) (t t' : JavaType) : Prop :=
  Alike E t t' ∨ (t.className? = none ∧ t'.className? = none)

variable {store : Store} {E L R : String → String → Prop} {t t' c c' : JavaType}

section Views

variable (hstray : ∀ x, store.Stray x → E x x)
include hstray

/-- What lies above uses of a class that are alike is alike, where it is a class. -/
theorem supersOfView_alike {name : String} {d : ClassDef} {arguments arguments' : List JavaType}
    (hd : store.find? name = some d) (h : List.Forall₂ (Alike E) arguments arguments') :
    List.Forall₂ (AlikeUse E) (supersOfView d arguments) (supersOfView d arguments') := by
  unfold supersOfView
  rw [isEmpty_of_forall₂ h]
  split
  · refine List.forall₂_same.mpr fun u hu => ?_
    obtain ⟨v, -, rfl⟩ := List.mem_map.mp hu
    cases v with
    | classType name arguments => exact .inl (.classType .nil)
    | _ => exact .inr ⟨rfl, rfl⟩
  · simp only [supersOfUse, substituteAll_eq_map, List.forall₂_map_left_iff,
      List.forall₂_map_right_iff]
    refine List.forall₂_same.mpr fun u hu => .inl ?_
    exact ClassDef.substitute_instantiation_alike (fun x hx => hstray x ⟨name, d, hd, hx⟩) h hu

/-- What two types come to as uses of a class: both are found to be uses of it that are alike, or
they come to the same without one. -/
inductive AlikeView (E : String → String → Prop) :
    Except TypeFault (Option JavaType) → Except TypeFault (Option JavaType) → Prop where
  | found {view view' : JavaType} :
      Alike E view view' → AlikeView E (.ok (some view)) (.ok (some view'))
  | missing : AlikeView E (.ok none) (.ok none)
  | unresolved (fault : TypeFault) : AlikeView E (.error fault) (.error fault)

/-- Types that are alike are seen alike as uses of a class. -/
theorem supertypeView_alike (h : Alike E t t') (name : String) :
    AlikeView E (store.supertypeView t name) (store.supertypeView t' name) := by
  have hname : ∀ {u u'}, AlikeUse E u u' → u'.className? = u.className? := by
    rintro u u' (hu | ⟨hu, hu'⟩)
    · exact hu.className?
    · rw [hu, hu']
  have hwalk : List.Forall₂ (AlikeUse E) (store.supertypes t) (store.supertypes t') := by
    refine walk_related hname (fun hd huse => ?_) [] [t] [t'] (.cons (.inl h) .nil)
    rcases huse with huse | ⟨huse, -⟩
    · cases huse with
      | classType hall => exact supersOfView_alike hstray hd hall
    · cases huse
  have hfound : Option.Rel (AlikeUse E)
      ((store.supertypes t).find? (·.className? = some name))
      ((store.supertypes t').find? (·.className? = some name)) :=
    find?_of_forall₂ hwalk fun u u' hu => by rw [hname hu]
  have hnames : (store.supertypes t').filterMap className?
      = (store.supertypes t).filterMap className? :=
    filterMap_eq_of_forall₂ hwalk fun _ _ => hname
  unfold supertypeView
  dsimp only
  rw [hnames]
  generalize hfirst : (store.supertypes t).find? (·.className? = some name) = first at hfound
  generalize (store.supertypes t').find? (·.className? = some name) = first' at hfound
  cases hfound with
  | none =>
    dsimp only
    split
    · exact .unresolved _
    · exact .missing
  | some huse =>
    refine .found ?_
    rcases huse with halike | ⟨hnone, -⟩
    · exact halike
    · have hclass := List.find?_some hfirst
      rw [hnone] at hclass
      cases hclass

end Views

/-! ## Comparisons -/

/-- A variable of one side and one of the other are the same under both of their names, or under
neither. -/
def Consistent (L R : String → String → Prop) : Prop :=
  ∀ ⦃x x' y y'⦄, L x x' → R y y' → (x = y ↔ x' = y')

/-- What a comparison comes to, if it ends: yes, no, or a fault of some kind. -/
def outcome (v : Verdict) : Option (Option Bool) := v.map Except.toOption

/-- What two types come to in the first verdicts, two that are like them come to in the second. -/
def Carries (L R : String → String → Prop) (f g : JavaType → JavaType → Verdict) : Prop :=
  ∀ ⦃t t' c c' o⦄, Alike L t t' → Alike R c c' → outcome (f t c) = some o →
    outcome (g t' c') = some o

theorem outcome_eq_true {v : Verdict} : outcome v = some (some true) ↔ v = some (.ok true) := by
  cases v with
  | none => simp [outcome]
  | some r => cases r <;> simp [outcome, Except.toOption]

theorem Consistent.swap (h : Consistent L R) : Consistent R L := by
  intro x x' y y' hx hy
  rw [eq_comm, h hy hx, eq_comm]

theorem Consistent.back (h : Consistent L R) :
    Consistent (fun x' x => L x x') (fun y' y => R y y') :=
  fun _ _ _ _ hx hy => (h hx hy).symm

/-- Types that are the same on both sides stay the same. -/
theorem Consistent.eq (h : Consistent L R) (ht : Alike L t t') (hc : Alike R c c') (htc : t = c) :
    t' = c' := by
  subst htc
  exact ht.eq hc fun x x' y' hx hy => (h hx hy).mp rfl

theorem Consistent.eq_iff (h : Consistent L R) (ht : Alike L t t') (hc : Alike R c c') :
    t = c ↔ t' = c' :=
  ⟨h.eq ht hc, h.back.eq ht.symm hc.symm⟩

section OneLevel

variable {f g : JavaType → JavaType → Verdict} {o : Option Bool} (hLR : Consistent L R)
  (hfg : Carries L R f g)
include hLR

/-- Whether two types are the same is answered alike. -/
theorem outcome_decide_eq (ht : Alike L t t') (hc : Alike R c c')
    (h : outcome (some (.ok (decide (t = c)))) = some o) :
    outcome (some (.ok (decide (t' = c')))) = some o := by
  rwa [decide_eq_decide.mpr (hLR.eq_iff ht hc)] at h

include hfg

theorem referenceAssignableOver_alike :
    Carries L R (referenceAssignableOver f) (referenceAssignableOver g) := by
  intro t t' c c' o ht hc h
  unfold referenceAssignableOver at h
  split at h
  · next p =>
    have hequal := outcome_decide_eq hLR ht hc h
    cases ht
    exact hequal
  · next p hnot =>
    have hequal := outcome_decide_eq hLR ht hc h
    cases hc
    unfold referenceAssignableOver
    split
    · exact hequal
    · exact hequal
    · next hother => exact absurd rfl (hother p)
  · next hnot hnot' =>
    unfold referenceAssignableOver
    split
    · next p => exact absurd (ht.eq_primitive rfl) (hnot p)
    · next p _ => exact absurd (hc.eq_primitive rfl) (hnot' p)
    · exact hfg ht hc h

variable (hswap : Carries R L f g)
include hswap

theorem containsOver_alike : Carries L R (containsOver f) (containsOver g) := by
  intro t t' a a' o ht ha h
  have hupper := referenceAssignableOver_alike hLR hfg
  have hlower := referenceAssignableOver_alike hLR.swap hswap
  cases t with
  | wildcard =>
    cases ht
    exact h
  | wildcardExtends bound =>
    cases ht with
    | wildcardExtends hbound =>
      have hconcrete : outcome (referenceAssignableOver f bound a) = some o →
          outcome (referenceAssignableOver g _ a') = some o := hupper hbound ha
      cases ha with
      | wildcardExtends hinner => exact hupper hbound hinner h
      | wildcard | wildcardSuper _ => rwa [containsOver, hbound.isObject]
      | _ => exact hconcrete h
  | wildcardSuper bound =>
    cases ht with
    | wildcardSuper hbound =>
      -- a lower bound has to be within the argument, so the sides change
      have hconcrete : outcome (referenceAssignableOver f a bound) = some o →
          outcome (referenceAssignableOver g a' _) = some o := hlower ha hbound
      cases ha with
      | wildcardSuper hinner => exact hlower hinner hbound h
      | wildcard | wildcardExtends _ => exact h
      | _ => exact hconcrete h
  | _ =>
    have hequal := outcome_decide_eq hLR ht ha h
    cases ht
    all_goals exact hequal

theorem containsAllOver_alike {ts ts' as as' : List JavaType} (hts : List.Forall₂ (Alike L) ts ts')
    (has : List.Forall₂ (Alike R) as as') (h : outcome (containsAllOver f ts as) = some o) :
    outcome (containsAllOver g ts' as') = some o := by
  induction hts generalizing as as' with
  | nil => exact h
  | cons ht _ ih =>
    cases has with
    | nil => exact h
    | cons ha has =>
      have hcontains : ∀ {o}, outcome (containsOver f _ _) = some o →
          outcome (containsOver g _ _) = some o := containsOver_alike hLR hfg hswap ht ha
      rw [containsAllOver] at h ⊢
      split at h
      · next hhead =>
        rw [outcome_eq_true.mp (hcontains (outcome_eq_true.mpr hhead))]
        exact ih has h
      · next hhead =>
        -- the first argument that is not contained decides
        have hsame := hcontains h
        split
        · next hhead' =>
          rw [hhead', outcome, Option.map_some, Except.toOption, Option.some.injEq] at hsame
          rw [← hsame] at h
          exact absurd (outcome_eq_true.mp h) hhead
        · exact hsame

variable (hstray : ∀ x, store.Stray x → R x x)
include hstray

theorem subclassOver_alike {name : String} {targets targets' : List JavaType}
    (htargets : List.Forall₂ (Alike L) targets targets') (hc : Alike R c c')
    (h : outcome (store.subclassOver f name targets c) = some o) :
    outcome (store.subclassOver g name targets' c') = some o := by
  have hview : AlikeView R (store.supertypeView c name) (store.supertypeView c' name) :=
    supertypeView_alike hstray hc name
  unfold subclassOver at h ⊢
  generalize store.supertypeView c name = view at h hview
  generalize store.supertypeView c' name = view' at hview ⊢
  split at h
  · next hobject => rwa [if_pos hobject]
  · next hobject =>
    rw [if_neg hobject]
    cases hview with
    | missing => exact h
    | unresolved fault => exact h
    | found halike =>
      cases halike with
      | classType harguments =>
        dsimp only at h ⊢
        rw [isEmpty_of_forall₂ htargets, isEmpty_of_forall₂ harguments, ← htargets.length_eq,
          ← harguments.length_eq]
        split at h
        · next hempty => rwa [if_pos hempty]
        · next hempty =>
          rw [if_neg hempty]
          split at h
          · next hlength => rwa [if_pos hlength]
          · next hlength =>
            rw [if_neg hlength]
            exact containsAllOver_alike hLR hfg hswap htargets harguments h
      | _ => exact h

/-- The rules of assignability do not tell types that are alike apart. -/
theorem assignableOver_alike : Carries L R (store.assignableOver f) (store.assignableOver g) := by
  intro t t' c c' o ht hc h
  unfold assignableOver at h ⊢
  by_cases heq : t = c
  · rw [if_pos heq] at h
    rwa [if_pos ((hLR.eq_iff ht hc).mp heq)]
  rw [if_neg heq] at h
  rw [if_neg (mt (hLR.eq_iff ht hc).mpr heq)]
  have hobject := ht.isObject
  cases ht with
  | classType htargets =>
    cases hc with
    | primitive p => exact hfg (.classType htargets) (.classType .nil) h
    | classType hothers =>
      exact subclassOver_alike hLR hfg hswap hstray htargets (.classType hothers) h
    | typeVar _ =>
      dsimp only at h ⊢
      rw [hobject]
      split at h
      · next htop => rwa [if_pos htop]
      · next htop =>
        rw [if_neg htop]
        exact h
    | _ => exact h
  | array ht =>
    cases hc with
    | array hc => exact referenceAssignableOver_alike hLR hfg ht hc h
    | _ => exact h
  | _ => cases hc <;> exact h

end OneLevel

/-- A comparison that ends comes to the same under other names. -/
theorem assignable_of_alike (hLR : Consistent L R) (hL : ∀ x, store.Stray x → L x x)
    (hR : ∀ x, store.Stray x → R x x) :
    Carries L R (fun t c => store.assignable t c) (fun t c => store.assignable t c) := by
  intro t t' c c' o ht hc h
  obtain ⟨r, hr, rfl⟩ := Option.map_eq_some_iff.mp h
  -- both orders of the sides are needed one level down
  refine (assignable.partial_correctness store
    (fun t c r => ∀ t' c',
      (Alike L t t' → Alike R c c' → outcome (store.assignable t' c') = some r.toOption)
        ∧ (Alike R t t' → Alike L c c' → outcome (store.assignable t' c') = some r.toOption))
    (fun assign ih t c r h t' c' => ?_) t c r hr t' c').1 ht hc
  have hcarries : Carries L R assign fun t c => store.assignable t c := by
    intro t t' c c' o ht hc h
    obtain ⟨r, hr, rfl⟩ := Option.map_eq_some_iff.mp h
    exact (ih t c r hr t' c').1 ht hc
  have hswapped : Carries R L assign fun t c => store.assignable t c := by
    intro t t' c c' o ht hc h
    obtain ⟨r, hr, rfl⟩ := Option.map_eq_some_iff.mp h
    exact (ih t c r hr t' c').2 ht hc
  have houtcome : outcome (store.assignableOver assign t c) = some r.toOption :=
    congrArg outcome h
  rw [assignable]
  exact ⟨fun ht hc => assignableOver_alike hLR hcarries hswapped hR ht hc houtcome,
    fun ht hc => assignableOver_alike hLR.swap hswapped hcarries hL ht hc houtcome⟩

/-- **A comparison does not depend on the names of type variables.** It comes to the same for two
pairs of types that are alike, if the same variables are shared by the two sides in both; and if it
never ends for one of them, it does not for the other. -/
theorem assignable_alike (hLR : Consistent L R) (hL : ∀ x, store.Stray x → L x x)
    (hR : ∀ x, store.Stray x → R x x) (ht : Alike L t t') (hc : Alike R c c') :
    outcome (store.assignable t c) = outcome (store.assignable t' c') := by
  refine Option.ext fun o => ⟨assignable_of_alike hLR hL hR ht hc, ?_⟩
  exact assignable_of_alike hLR.back hL hR ht.symm hc.symm

end Store

end Conformance
