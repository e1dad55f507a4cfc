import Conformance.Store.Assignable
import Conformance.Proofs.Walk

/-!
# What holds for a type variable holds for its values

A comparison may come out positive before all type variables have values: two uses of one
variable are assignable to each other, and anything is to the top class. Giving variables
values then changes nothing (`assignable_substitute`), provided that the values are types a
type parameter can have and that no variable is in the hierarchy itself: a supertype that is
a variable would only be known afterwards, and one that mentions a variable of another
declaration would be changed by the substitution.

A negative answer need not stay, and neither does a fault.
-/

namespace Conformance

open JavaType

/-- The declared supertypes are classes that mention the parameters of the definition only,
and no parameter is erased to a type that mentions a variable. -/
structure ClassDef.ClosedSupertypes (d : ClassDef) : Prop where
  declared : ∀ u ∈ d.directSupertypes, ∀ x, u.mentions x = true → x ∈ d.typeParamNames
  noVariable : ∀ u ∈ d.directSupertypes, ∀ x, u ≠ typeVar x
  bounds : ∀ p ∈ d.typeParams, ∀ x, p.erasure.mentions x = false

namespace Store

/-- All definitions have closed supertypes. -/
def ClosedSupertypes (store : Store) : Prop :=
  ∀ name d, store.find? name = some d → d.ClosedSupertypes

variable {store : Store}

/-! ## Views -/

/-- Where supertypes are over declared variables, and no erased parameter mentions a variable, what
lies above a type mentions what the type does. -/
theorem mentionsOnly_supertypes {P : String → Prop}
    (hdeclared : ∀ name d, store.find? name = some d → ∀ u ∈ d.directSupertypes,
      u.MentionsOnly (· ∈ d.typeParamNames))
    (hbounds : ∀ name d, store.find? name = some d → ∀ p ∈ d.typeParams, p.erasure.MentionsOnly P)
    {t : JavaType} (ht : t.MentionsOnly P) {name : String} {arguments : List JavaType}
    (hmem : .classType name arguments ∈ store.supertypes t) :
    (classType name arguments).MentionsOnly P := by
  refine walk_forall (P := fun u => u.className?.isSome → u.MentionsOnly P) ?_ [] [t]
    (by simpa using fun _ => ht) _ hmem rfl
  intro name d arguments hd huse u hu hclass
  rcases mem_supersOfView.mp hu with ⟨-, -, v, -, rfl⟩ | ⟨-, v, hv, rfl⟩
  · -- the erasure of a class mentions nothing
    intro x hx
    cases v <;> simp_all [erasure, className?, raw, mentions, mentionsAny]
  · exact (hdeclared name d hd v hv).substitute fun x hx =>
      ClassDef.mentionsOnly_instantiation (mentionsOnly_classType.mp (huse rfl)) (hbounds name d hd) hx

section Views

variable (hstore : store.ClosedSupertypes)
include hstore

/-- The classes above a type mention what the type mentions. -/
theorem mentions_supertypes (t : JavaType) {name : String} {arguments : List JavaType}
    (hmem : .classType name arguments ∈ store.supertypes t) {x : String}
    (hx : (classType name arguments).mentions x = true) : t.mentions x = true := by
  refine mentionsOnly_supertypes (P := (t.mentions · = true)) (fun name d hd => (hstore name d hd).declared)
    (fun name d hd p hp y hy => ?_) (fun _ hy => hy) hmem x hx
  rw [(hstore name d hd).bounds p hp y] at hy
  cases hy

/-- A view of a type that is no variable follows a substitution in the type. -/
theorem supertypeView_substitute {s : Substitution} {t view : JavaType} {name : String}
    (ht : ∀ x, t ≠ typeVar x) (h : store.supertypeView t name = .ok (some view)) :
    store.supertypeView (t.substitute s) name = .ok (some (view.substitute s)) := by
  have hsupers : ∀ name d arguments, store.find? name = some d →
      List.Forall₂ (Follows s) (supersOfView d arguments)
        (supersOfView d (arguments.map (substitute s))) := by
    intro name d arguments hd
    refine supersOfView_follows (hstore name d hd).declared (hstore name d hd).noVariable
      fun _ p hp => substitute_eq_self fun x hx => ?_
    rw [(hstore name d hd).bounds p (List.mem_of_mem_drop hp) x] at hx
    cases hx
  have hwalk : store.supertypes (t.substitute s) = (store.supertypes t).map (substitute s) :=
    walk_follows hsupers [] [t] [t.substitute s] (.cons (follows_substitute ht) .nil)
  rw [supertypeView_map hwalk, h]
  rfl

end Views

/-! ## Comparisons -/

section OneLevel

variable {f g : JavaType → JavaType → Verdict} {s : Substitution} (hs : s.Bindable)
  (hfg : ∀ t c, f t c = some (.ok true) → g (t.substitute s) (c.substitute s) = some (.ok true))

section Arguments

include hs hfg

theorem referenceAssignableOver_substitute {t c : JavaType}
    (h : referenceAssignableOver f t c = some (.ok true)) :
    referenceAssignableOver g (t.substitute s) (c.substitute s) = some (.ok true) := by
  unfold referenceAssignableOver at h
  split at h
  · next p =>
    have hc : primitive p = c := by simpa using h
    subst hc
    simp [substitute, referenceAssignableOver]
  · next p _ =>
    have ht : t = primitive p := by simpa using h
    subst ht
    simp [substitute, referenceAssignableOver]
  · next ht hc =>
    have := hfg t c h
    unfold referenceAssignableOver
    split
    · next p hp => exact (ht p ((substitute_eq_primitive hs).mp hp)).elim
    · next p hp _ => exact (hc p ((substitute_eq_primitive hs).mp hp)).elim
    · exact this

omit hs hfg in
theorem containsOver_self {t : JavaType} (ht : t.isBindable = true) :
    containsOver g t t = some (.ok true) := by
  cases t <;> simp_all [isBindable, containsOver]

omit hs hfg in
theorem containsOver_wildcardExtends {bound a : JavaType} (ha : a.isBindable = true) :
    containsOver g (.wildcardExtends bound) a = referenceAssignableOver g bound a := by
  cases a <;> simp_all [isBindable, containsOver]

omit hs hfg in
theorem containsOver_wildcardSuper {bound a : JavaType} (ha : a.isBindable = true) :
    containsOver g (.wildcardSuper bound) a = referenceAssignableOver g a bound := by
  cases a <;> simp_all [isBindable, containsOver]

theorem containsOver_substitute {t a : JavaType} (h : containsOver f t a = some (.ok true)) :
    containsOver g (t.substitute s) (a.substitute s) = some (.ok true) := by
  cases t with
  | wildcard => rfl
  | wildcardExtends bound =>
    -- an argument that is no wildcard stays none
    by_cases ha : a.isBindable = true
    · rw [containsOver_wildcardExtends ha] at h
      rw [substitute, containsOver_wildcardExtends (isBindable_substitute hs a ▸ ha)]
      exact referenceAssignableOver_substitute hs hfg h
    · cases a with
      | wildcard | wildcardSuper _ =>
        have hbound : bound.isObject = true := by simpa [containsOver] using h
        simp [substitute, containsOver, isObject_substitute hbound]
      | wildcardExtends inner => exact referenceAssignableOver_substitute hs hfg h
      | void => exact referenceAssignableOver_substitute hs hfg h
      | primitive p => exact referenceAssignableOver_substitute hs hfg h
      | _ => exact absurd rfl ha
  | wildcardSuper bound =>
    by_cases ha : a.isBindable = true
    · rw [containsOver_wildcardSuper ha] at h
      rw [substitute, containsOver_wildcardSuper (isBindable_substitute hs a ▸ ha)]
      exact referenceAssignableOver_substitute hs hfg h
    · cases a with
      | wildcard | wildcardExtends _ => simp [containsOver] at h
      | wildcardSuper inner => exact referenceAssignableOver_substitute hs hfg h
      | void => exact referenceAssignableOver_substitute hs hfg h
      | primitive p => exact referenceAssignableOver_substitute hs hfg (t := .primitive p) h
      | _ => exact absurd rfl ha
  | void =>
    have ha : void = a := by simpa [containsOver] using h
    subst ha
    simp [substitute, containsOver]
  | primitive p =>
    have ha : primitive p = a := by simpa [containsOver] using h
    subst ha
    simp [substitute, containsOver]
  | classType name arguments =>
    have ha : classType name arguments = a := by simpa [containsOver] using h
    subst ha
    exact containsOver_self (isBindable_substitute hs _)
  | array t =>
    have ha : array t = a := by simpa [containsOver] using h
    subst ha
    exact containsOver_self (isBindable_substitute hs _)
  | typeVar x =>
    have ha : typeVar x = a := by simpa [containsOver] using h
    subst ha
    exact containsOver_self (isBindable_substitute hs _)

theorem containsAllOver_substitute {ts as : List JavaType}
    (h : containsAllOver f ts as = some (.ok true)) :
    containsAllOver g (ts.map (substitute s)) (as.map (substitute s)) = some (.ok true) := by
  fun_induction containsAllOver f ts as with
  | case1 t ts a as hc ih =>
    rw [List.map_cons, List.map_cons, containsAllOver, containsOver_substitute hs hfg hc]
    exact ih h
  | case2 t ts a as hc => exact absurd h hc
  | case3 ts as hn =>
    rw [containsAllOver]
    intro t ts' a as' ht ha
    cases ts with
    | nil => cases ht
    | cons t ts =>
      cases as with
      | nil => cases ha
      | cons a as => exact hn t ts a as rfl rfl

end Arguments

/-- The top class is above all values of type parameters. -/
theorem assignableOver_object {t c : JavaType} (ht : t.isObject = true)
    (hc : c.isBindable = true) : store.assignableOver f t c = some (.ok true) := by
  obtain ⟨name, arguments, rfl⟩ : ∃ name arguments, t = classType name arguments := by
    cases t <;> simp_all [isObject]
  have hname : name = objectName := by simpa [isObject] using ht
  subst hname
  cases c <;> simp_all [assignableOver, subclassOver, isBindable, arraySupertypes]

/-- Nothing but the top class is above a variable. -/
theorem isObject_of_assignableOver {t : JavaType} {x : String} (hne : t ≠ typeVar x)
    (h : store.assignableOver f t (typeVar x) = some (.ok true)) : t.isObject = true := by
  cases t <;> simp_all [assignableOver]

section Classes

variable (hstore : store.ClosedSupertypes)
include hs hfg hstore

theorem subclassOver_substitute {name other : String} {targets others : List JavaType}
    (h : store.subclassOver f name targets (.classType other others) = some (.ok true)) :
    store.subclassOver g name (targets.map (substitute s))
      (.classType other (others.map (substitute s))) = some (.ok true) := by
  unfold subclassOver at h ⊢
  split at h
  · next hobject => rw [if_pos hobject]
  · next hobject =>
    rw [if_neg hobject]
    split at h
    · cases h
    · next viewed arguments hview =>
      have hview' := supertypeView_substitute hstore (s := s) (by simp) hview
      rw [substitute_classType, substitute_classType] at hview'
      simp only [hview', List.isEmpty_map, List.length_map]
      split at h
      · next hempty => rw [if_pos hempty]
      · next hempty =>
        rw [if_neg hempty]
        split at h
        · cases h
        · next hlength =>
          rw [if_neg hlength]
          exact containsAllOver_substitute hs hfg h
    · cases h

/-- A positive answer stays under a substitution if those one level down do. -/
theorem assignableOver_substitute {t c : JavaType}
    (h : store.assignableOver f t c = some (.ok true)) :
    store.assignableOver g (t.substitute s) (c.substitute s) = some (.ok true) := by
  by_cases heq : t.substitute s = c.substitute s
  · unfold assignableOver
    rw [if_pos heq]
  have hne : t ≠ c := fun e => heq (by rw [e])
  -- a value of a variable may be anything, but only the top class was above the variable
  by_cases hvar : ∃ x, c = typeVar x
  · obtain ⟨x, rfl⟩ := hvar
    exact assignableOver_object (isObject_substitute (isObject_of_assignableOver hne h))
      (isBindable_substitute hs (typeVar x))
  unfold assignableOver at h ⊢
  rw [if_neg hne] at h
  rw [if_neg heq]
  split at h
  case h_3 t c => exact h
  case h_4 t name arguments =>
    rw [substitute_classType]
    exact h
  case h_5 name arguments p =>
    rw [substitute_classType]
    exact substitute_classType s name arguments ▸ hfg _ _ h
  case h_6 name arguments c => simpa [substitute_classType, substitute] using h
  case h_7 t c =>
    split at h
    · next p =>
      have hc : primitive p = c := by simpa using h
      exact absurd (hc ▸ rfl) heq
    · next p _ =>
      have ht : t = primitive p := by simpa using h
      exact absurd (ht ▸ rfl) heq
    · next ht hc =>
      simp only [substitute]
      split
      · next p hp => exact (ht p ((substitute_eq_primitive hs).mp hp)).elim
      · next p hp _ => exact (hc p ((substitute_eq_primitive hs).mp hp)).elim
      · exact hfg _ _ h
  case h_10 x _ _ _ => exact absurd ⟨x, rfl⟩ hvar
  case h_11 name arguments other others =>
    simp only [substitute_classType]
    exact subclassOver_substitute hs hfg hstore h
  all_goals cases h

end Classes

end OneLevel

/-- **What holds for type variables holds for their values.** A positive comparison stays
positive when variables are given values. -/
theorem assignable_substitute (hstore : store.ClosedSupertypes) {s : Substitution}
    (hs : s.Bindable) {t c : JavaType} (h : store.assignable t c = some (.ok true)) :
    store.assignable (t.substitute s) (c.substitute s) = some (.ok true) := by
  refine assignable.partial_correctness store
    (fun t c r => r = .ok true →
      store.assignable (t.substitute s) (c.substitute s) = some (.ok true))
    (fun assign ih t c r h hr => ?_) t c _ h rfl
  subst hr
  rw [assignable]
  exact assignableOver_substitute hs (fun t c h => ih t c _ h rfl) hstore h

end Store

end Conformance
