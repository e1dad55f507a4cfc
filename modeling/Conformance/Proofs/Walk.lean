import Mathlib.Data.List.Find
import Mathlib.Data.List.Forall2
import Conformance.Store.Hierarchy
import Conformance.Proofs.Substitution

/-!
# What a walk of the hierarchy keeps

A walk goes by names and never looks at type arguments. Three consequences carry everything
that is proved about what it meets.

* What holds of the types a walk begins with, and passes from a use of a class to the
  supertypes of that use, holds of all types met (`walk_forall`).
* What holds of the use of a superclass, and passes on in the same way, carries over to all
  methods that come from there (`inheritedMethods_forall`).
* If two walks begin with uses of the same classes, the same names are met in the same order,
  and what relates the arguments of the uses relates those of the types met (`walk_related`).
  In particular, if arguments are substituted in what a walk begins with, they are substituted
  in all types met (`walk_follows`). A type that is no class is passed over, so what becomes of
  such a type does not matter, unless it becomes a class; only a type variable can.
-/

namespace Conformance

open JavaType

namespace Store

variable {store : Store} {supers : ClassDef → List JavaType → List JavaType}

/-! ## What is directly above a use -/

theorem mem_supersOfUse {d : ClassDef} {arguments : List JavaType} {u : JavaType} :
    u ∈ supersOfUse d arguments
      ↔ ∃ v ∈ d.directSupertypes, v.substitute (d.instantiation arguments) = u := by
  rw [supersOfUse, substituteAll_eq_map, List.mem_map]

theorem supersOfView_raw {d : ClassDef} (h : d.typeParams ≠ []) :
    supersOfView d [] = d.directSupertypes.map erasure := by
  rw [supersOfView, if_pos]
  simpa using h

theorem supersOfView_eq_supersOfUse {d : ClassDef} {arguments : List JavaType}
    (h : arguments = [] → d.typeParams = []) :
    supersOfView d arguments = supersOfUse d arguments := by
  rw [supersOfView, if_neg]
  simpa using h

/-- What is above a use of a class is a supertype with the arguments in place, or an erased one if
the class is generic and its use raw. -/
theorem mem_supersOfView {d : ClassDef} {arguments : List JavaType} {u : JavaType} :
    u ∈ supersOfView d arguments
      ↔ (arguments = [] ∧ d.typeParams ≠ [] ∧ ∃ v ∈ d.directSupertypes, v.erasure = u)
        ∨ (arguments = [] → d.typeParams = [])
          ∧ ∃ v ∈ d.directSupertypes, v.substitute (d.instantiation arguments) = u := by
  by_cases hused : arguments = [] → d.typeParams = []
  · rw [supersOfView_eq_supersOfUse hused, mem_supersOfUse]
    refine ⟨fun h => .inr ⟨hused, h⟩, ?_⟩
    rintro (⟨hraw, hgeneric, -⟩ | ⟨-, h⟩)
    · exact absurd (hused hraw) hgeneric
    · exact h
  · obtain ⟨rfl, hgeneric⟩ := Classical.not_imp.mp hused
    rw [supersOfView_raw hgeneric, List.mem_map]
    refine ⟨fun h => .inl ⟨rfl, hgeneric, h⟩, ?_⟩
    rintro (⟨-, -, h⟩ | ⟨h, -⟩)
    · exact h
    · exact absurd (h rfl) hgeneric

/-! ## Invariants of a walk -/

section Invariant

variable {P : JavaType → Prop}
  (hsupers : ∀ name d arguments, store.find? name = some d → P (.classType name arguments) →
    ∀ u ∈ supers d arguments, P u)
include hsupers

theorem visit_forall (seen : List String) (level : List JavaType) (hlevel : ∀ t ∈ level, P t) :
    (∀ t ∈ (store.visit supers seen level).met, P t)
      ∧ ∀ t ∈ (store.visit supers seen level).next, P t := by
  fun_induction visit store supers seen level with
  | case1 seen => simp
  | case2 seen name arguments level hn ih =>
    exact ih fun t ht => hlevel t (List.mem_cons_of_mem _ ht)
  | case3 seen name arguments level hn rest above ih =>
    obtain ⟨hmet, hnext⟩ := ih fun t ht => hlevel t (List.mem_cons_of_mem _ ht)
    have hhead : P (.classType name arguments) := hlevel _ (List.mem_cons_self ..)
    refine ⟨fun t ht => ?_, fun t ht => ?_⟩
    · rcases List.mem_cons.mp ht with rfl | ht
      · exact hhead
      · exact hmet t ht
    · rcases List.mem_append.mp ht with ht | ht
      · cases hd : store.find? name with
        | none => simp [above, hd] at ht
        | some d => exact hsupers name d arguments hd hhead t (by simpa [above, hd] using ht)
      · exact hnext t ht
  | case4 seen t level hc ih => exact ih fun t ht => hlevel t (List.mem_cons_of_mem _ ht)

/-- What holds where a walk begins, and passes to supertypes, holds of all types met. -/
theorem walk_forall (seen : List String) (level : List JavaType) (hlevel : ∀ t ∈ level, P t) :
    ∀ t ∈ store.walk supers seen level, P t := by
  fun_induction walk store supers seen level with
  | case1 seen level here hnext =>
    exact (visit_forall hsupers seen level hlevel).1
  | case2 seen level here hnext ih =>
    obtain ⟨hmet, hrest⟩ := visit_forall hsupers seen level hlevel
    intro t ht
    rcases List.mem_append.mp ht with ht | ht
    · exact hmet t ht
    · exact ih hrest t ht

end Invariant

theorem className?_of_mem_visit (seen : List String) (level : List JavaType) :
    ∀ t ∈ (store.visit supers seen level).met, t.className?.isSome := by
  fun_induction visit store supers seen level with
  | case1 seen => simp
  | case2 seen name arguments level hn ih => exact ih
  | case3 seen name arguments level hn rest above ih =>
    intro t ht
    rcases List.mem_cons.mp ht with rfl | ht
    · rfl
    · exact ih t ht
  | case4 seen t level hc ih => exact ih

/-- Only classes are met on a walk. -/
theorem className?_of_mem_walk (seen : List String) (level : List JavaType) :
    ∀ t ∈ store.walk supers seen level, t.className?.isSome := by
  fun_induction walk store supers seen level with
  | case1 seen level here hnext => exact className?_of_mem_visit seen level
  | case2 seen level here hnext ih =>
    intro t ht
    rcases List.mem_append.mp ht with ht | ht
    · exact className?_of_mem_visit seen level t ht
    · exact ih t ht

/-! ## Walks in step -/

theorem exists_eq_classType {t : JavaType} {name : String} (h : t.className? = some name) :
    ∃ arguments, t = .classType name arguments := by
  cases t with
  | classType other arguments =>
    cases h
    exact ⟨arguments, rfl⟩
  | _ => cases h

section Related

variable {supers' : ClassDef → List JavaType → List JavaType} {Q : JavaType → JavaType → Prop}
  (hname : ∀ {t t'}, Q t t' → t'.className? = t.className?)
  (hsupers : ∀ {name d arguments arguments'}, store.find? name = some d →
    Q (.classType name arguments) (.classType name arguments') →
    List.Forall₂ Q (supers d arguments) (supers' d arguments'))
include hname hsupers

/-- Levels with related types are visited in step. -/
theorem visit_related {level level' : List JavaType} (h : List.Forall₂ Q level level')
    (seen : List String) :
    (store.visit supers' seen level').seen = (store.visit supers seen level).seen
      ∧ List.Forall₂ Q (store.visit supers seen level).met (store.visit supers' seen level').met
      ∧ List.Forall₂ Q (store.visit supers seen level).next
          (store.visit supers' seen level').next := by
  induction h generalizing seen with
  | nil => exact ⟨rfl, .nil, .nil⟩
  | @cons t t' level level' hhead _ ih =>
    have hsame := hname hhead
    cases ht : t.className? with
    | none =>
      -- neither type is a class, so both are passed over
      have skip : ∀ {supers : ClassDef → List JavaType → List JavaType} {u : JavaType}
          {us : List JavaType}, u.className? = none →
          store.visit supers seen (u :: us) = store.visit supers seen us := by
        intro supers u us hu
        cases u <;> simp_all [visit, className?]
      rw [skip ht, skip (hsame.trans ht)]
      exact ih seen
    | some name =>
      obtain ⟨arguments, rfl⟩ := exists_eq_classType ht
      obtain ⟨arguments', rfl⟩ := exists_eq_classType (hsame.trans ht)
      simp only [visit]
      split
      · exact ih seen
      · obtain ⟨h1, h2, h3⟩ := ih (name :: seen)
        refine ⟨h1, .cons hhead h2, List.rel_append ?_ h3⟩
        cases hd : store.find? name with
        | none => exact .nil
        | some d => exact hsupers hd hhead

/-- **Related walks go in step.** If two walks begin with related types, and what lies above
related uses of a class is related, then related types are met in the same order. -/
theorem walk_related (seen : List String) (level level' : List JavaType)
    (h : List.Forall₂ Q level level') :
    List.Forall₂ Q (store.walk supers seen level) (store.walk supers' seen level') := by
  fun_induction walk store supers seen level generalizing level' with
  | case1 seen level here hnext =>
    obtain ⟨-, hmet, hrest⟩ := visit_related hname hsupers h seen
    rw [walk, dif_pos]
    · exact hmet
    · exact List.forall₂_nil_left_iff.mp (hnext ▸ hrest)
  | case2 seen level here hnext ih =>
    obtain ⟨hseen, hmet, hrest⟩ := visit_related hname hsupers h seen
    have hne : (store.visit supers' seen level').next ≠ [] := by
      intro e
      rw [e, List.forall₂_nil_right_iff] at hrest
      exact hnext hrest
    have hwalk : store.walk supers' seen level' = (store.visit supers' seen level').met
        ++ store.walk supers' here.seen (store.visit supers' seen level').next := by
      rw [walk]
      simp only [dif_neg hne, hseen, here]
    rw [hwalk]
    exact List.rel_append hmet (ih _ hrest)

end Related

/-! ## Walks under a substitution -/

/-- The second type is the first with a substitution made in its arguments, or neither is a
class. -/
inductive Follows (s : Substitution) : JavaType → JavaType → Prop where
  | use (name : String) (arguments : List JavaType) :
      Follows s (.classType name arguments) (.classType name (arguments.map (substitute s)))
  | other {t t' : JavaType} : t.className? = none → t'.className? = none → Follows s t t'

/-- A type that is no variable is followed by itself under the substitution. -/
theorem follows_substitute {s : Substitution} {t : JavaType} (h : ∀ x, t ≠ typeVar x) :
    Follows s t (t.substitute s) := by
  cases t with
  | classType name arguments =>
    rw [substitute_classType]
    exact .use name arguments
  | typeVar x => exact absurd rfl (h x)
  | _ => exact .other rfl rfl

theorem Follows.className? {s : Substitution} {t t' : JavaType} (h : Follows s t t') :
    t'.className? = t.className? := by
  cases h with
  | use => rfl
  | other hn hn' => rw [hn, hn']

/-- A class is followed by the one with the substitution made in it. -/
theorem Follows.eq_substitute {s : Substitution} {t t' : JavaType} (h : Follows s t t')
    (hclass : t.className?.isSome) : t' = t.substitute s := by
  cases h with
  | use => rw [substitute_classType]
  | other hn =>
    rw [hn] at hclass
    cases hclass

theorem eq_map_of_follows {s : Substitution} {ts ts' : List JavaType}
    (h : List.Forall₂ (Follows s) ts ts') (hclasses : ∀ t ∈ ts, t.className?.isSome) :
    ts' = ts.map (substitute s) := by
  induction h with
  | nil => rfl
  | cons hhead _ ih =>
    rw [List.forall_mem_cons] at hclasses
    rw [List.map_cons, hhead.eq_substitute hclasses.1, ih hclasses.2]

/-- **A walk follows the substitution.** Substituting where a walk begins substitutes in all
types met and changes nothing else. -/
theorem walk_follows {s : Substitution}
    (hsupers : ∀ name d arguments, store.find? name = some d →
      List.Forall₂ (Follows s) (supers d arguments) (supers d (arguments.map (substitute s))))
    (seen : List String) (level level' : List JavaType)
    (h : List.Forall₂ (Follows s) level level') :
    store.walk supers seen level' = (store.walk supers seen level).map (substitute s) := by
  refine eq_map_of_follows ?_ (className?_of_mem_walk seen level)
  refine walk_related Follows.className? (fun hd huse => ?_) seen level level' h
  cases huse with
  | use => exact hsupers _ _ _ hd
  | other hn => cases hn

/-- What lies above a use of a class follows a substitution in its arguments, if it is over the
parameters of the class and the parameters without an argument are erased to types that the
substitution leaves alone. -/
theorem supersOfView_follows {s : Substitution} {d : ClassDef} {arguments : List JavaType}
    (hdeclared : ∀ u ∈ d.directSupertypes, u.MentionsOnly (· ∈ d.typeParamNames))
    (hvariable : ∀ u ∈ d.directSupertypes, ∀ x, u ≠ typeVar x)
    (hmissing : arguments ≠ [] → ∀ p ∈ d.typeParams.drop arguments.length,
      p.erasure.substitute s = p.erasure) :
    List.Forall₂ (Follows s) (supersOfView d arguments)
      (supersOfView d (arguments.map (substitute s))) := by
  unfold supersOfView
  rw [List.isEmpty_map]
  split
  · refine List.forall₂_same.mpr fun u hu => ?_
    obtain ⟨v, -, rfl⟩ := List.mem_map.mp hu
    cases v with
    | classType name arguments => exact .use name []
    | _ => exact .other rfl rfl
  · next hraw =>
    have herasure : ∀ p ∈ d.typeParams.drop arguments.length,
        p.erasure.substitute s = p.erasure := by
      cases arguments with
      | nil => simp_all
      | cons argument arguments => exact hmissing (List.cons_ne_nil argument arguments)
    simp only [supersOfUse, substituteAll_eq_map, List.forall₂_map_left_iff,
      List.forall₂_map_right_iff]
    refine List.forall₂_same.mpr fun u hu => ?_
    rw [← ClassDef.substitute_instantiation herasure (hdeclared u hu)]
    refine follows_substitute fun x hx => ?_
    cases u with
    | typeVar y => exact hvariable _ hu y rfl
    | _ => cases hx

/-! ## Views -/

/-- If a substitution is made in all that is above a type, it is made in each view. -/
theorem supertypeView_map {s : Substitution} {t t' : JavaType}
    (h : store.supertypes t' = (store.supertypes t).map (substitute s)) (name : String) :
    store.supertypeView t' name
      = (store.supertypeView t name).map (Option.map (substitute s)) := by
  have hclass : ∀ u ∈ store.supertypes t, (u.substitute s).className? = u.className? := by
    intro u hu
    refine className?_substitute ?_
    rintro x rfl
    cases className?_of_mem_walk [] [t] _ hu
  have hfind : (store.supertypes t').find? (·.className? = some name)
      = ((store.supertypes t).find? (·.className? = some name)).map (substitute s) := by
    rw [h, List.find?_map]
    congr 1
    exact List.find?_congr fun u hu => by rw [Function.comp_apply, hclass u hu]
  have hnames : (store.supertypes t').filterMap JavaType.className?
      = (store.supertypes t).filterMap JavaType.className? := by
    rw [h, List.filterMap_map]
    exact List.filterMap_congr hclass
  unfold supertypeView
  simp only [hfind, hnames]
  cases (store.supertypes t).find? (·.className? = some name) with
  | some view => rfl
  | none =>
    dsimp only [Option.map_none]
    split <;> rfl

/-- A view is the nearest use of the class among a type and what lies above it. -/
theorem supertypeView_eq_some {type view : JavaType} {name : String} :
    store.supertypeView type name = .ok (some view)
      ↔ (store.supertypes type).find? (·.className? = some name) = some view := by
  unfold supertypeView
  dsimp only
  constructor
  · intro h
    split at h
    · next hfind =>
      cases h
      exact hfind
    · split at h <;> cases h
  · intro h
    rw [h]

/-- A use of a class is seen as itself. -/
theorem supertypeView_self (name : String) (arguments : List JavaType) :
    store.supertypeView (.classType name arguments) name
      = .ok (some (.classType name arguments)) := by
  have hhead : ∃ others, store.supertypes (.classType name arguments)
      = .classType name arguments :: others := by
    unfold supertypes
    rw [walk]
    simp only [visit, List.not_mem_nil, if_false]
    split
    · exact ⟨_, rfl⟩
    · exact ⟨_, rfl⟩
  obtain ⟨others, hothers⟩ := hhead
  rw [supertypeView_eq_some, hothers, List.find?_cons_of_pos]
  simp [className?]

theorem mem_supertypes_of_view {type view : JavaType} {name : String}
    (h : store.supertypeView type name = .ok (some view)) : view ∈ store.supertypes type :=
  List.mem_of_find?_eq_some (supertypeView_eq_some.mp h)

theorem className?_of_view {type view : JavaType} {name : String}
    (h : store.supertypeView type name = .ok (some view)) : view.className? = some name := by
  simpa using List.find?_some (supertypeView_eq_some.mp h)

/-! ## Methods -/

theorem methods_eq {name : String} {d : ClassDef} (hd : store.find? name = some d) :
    store.methods name
      = .ok (d.methods ++ d.superClass.elim [] (store.inheritedMethods [name])) := by
  rw [methods, require, hd]
  rfl

/-- What a superclass hands down: its own methods as its use shows them, then what it gets from
above. -/
theorem inheritedMethods_eq {seen : List String} {name : String}
    {arguments : List JavaType} {d : ClassDef} (hd : store.find? name = some d) (hn : name ∉ seen) :
    store.inheritedMethods seen (classType name arguments)
      = d.methods.map (MethodDef.substitute (d.instantiation arguments))
        ++ d.superClass.elim [] fun superClass =>
          store.inheritedMethods (name :: seen) (superClass.substitute (d.instantiation arguments)) := by
  rw [inheritedMethods, dif_neg hn]
  split
  · next hnone =>
    rw [hd] at hnone
    cases hnone
  · next e he =>
    rw [hd, Option.some.injEq] at he
    subst he
    cases d.superClass with
    | none => exact (List.append_nil _).symm
    | some superClass => rfl

/-- Nothing comes from a superclass that has no methods and nothing above it. -/
theorem inheritedMethods_eq_nil {seen : List String} {name : String} {arguments : List JavaType}
    {d : ClassDef} (hd : store.find? name = some d) (hn : name ∉ seen) (hmethods : d.methods = [])
    (hsuper : d.superClass = none) :
    store.inheritedMethods seen (classType name arguments) = [] := by
  rw [inheritedMethods_eq hd hn, hmethods, hsuper]
  rfl

/-- What holds of the use of a superclass, and passes to the superclasses of that use, carries over
to all methods that come from there. -/
theorem inheritedMethods_forall {P : JavaType → Prop} {Q : MethodDef → Prop}
    (hsuper : ∀ name d arguments superClass, store.find? name = some d →
      P (classType name arguments) → d.superClass = some superClass →
      P (superClass.substitute (d.instantiation arguments)))
    (hown : ∀ name d arguments, store.find? name = some d → P (classType name arguments) →
      ∀ m ∈ d.methods, Q (m.substitute (d.instantiation arguments)))
    (seen : List String) {type : JavaType} (htype : P type) :
    ∀ m ∈ store.inheritedMethods seen type, Q m := by
  have hmap : ∀ {name d arguments}, store.find? name = some d → P (classType name arguments) →
      ∀ m ∈ d.methods.map (MethodDef.substitute (d.instantiation arguments)), Q m := by
    intro name d arguments hd huse
    exact List.forall_mem_map.mpr (hown name d arguments hd huse)
  fun_induction inheritedMethods store seen type with
  | case1 => simp
  | case2 => simp
  | case3 seen name arguments hn d hd s own hnone => exact hmap hd htype
  | case4 seen name arguments hn d hd s own superClass hsome ih =>
    exact List.forall_mem_append.mpr
      ⟨hmap hd htype, ih (hsuper name d arguments superClass hd htype hsome)⟩
  | case5 => simp

end Store

end Conformance
