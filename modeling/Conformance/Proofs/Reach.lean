import Mathlib.Logic.Relation
import Conformance.Proofs.Comparison
import Conformance.Proofs.Walk

/-!
# What a walk reaches

A walk meets a class under every name that can be reached from where it begins by going from
stored classes to what their definitions name above them (`mem_walk_of_reaches`). What carries
this is that the names met are closed: a name above one of them was met before the walk, is
met on it, or there is no definition to go on from. Arguments play no part, because putting
arguments in place or erasing them leaves the name of a class as it is.

So a class is assignable to the raw use of every class above it (`assignable_raw`).
-/

namespace Conformance

open JavaType

namespace Store

/-- The definition of a class names another one directly above it. -/
def Above (store : Store) (name above : String) : Prop :=
  ∃ d, store.find? name = some d ∧ above ∈ d.directSupertypes.filterMap className?

/-- The definition of a class names another one among its interfaces. -/
def Extends (store : Store) (name above : String) : Prop :=
  ∃ d, store.find? name = some d ∧ above ∈ d.interfaces.filterMap className?

variable {store : Store} {supers : ClassDef → List JavaType → List JavaType}

theorem mem_directSupertypes {d : ClassDef} {t : JavaType}
    (h : t ∈ d.superClass.toList ++ d.interfaces) : t ∈ d.directSupertypes := by
  unfold ClassDef.directSupertypes
  dsimp only
  split
  · exact List.mem_append_left _ h
  · exact h

theorem superClass_mem {d : ClassDef} {superClass : JavaType}
    (h : d.superClass = some superClass) : superClass ∈ d.directSupertypes :=
  mem_directSupertypes (List.mem_append_left _ (Option.mem_toList.mpr h))

/-- What is directly above a class is declared, or it is the top class that every interface has
above it. -/
theorem declared_or_object {d : ClassDef} {t : JavaType} (h : t ∈ d.directSupertypes) :
    t ∈ d.superClass.toList ++ d.interfaces ∨ t = .object := by
  unfold ClassDef.directSupertypes at h
  dsimp only at h
  split at h
  · rwa [List.mem_append, List.mem_singleton] at h
  · exact .inl h

theorem mentionsOnly_directSupertypes {d : ClassDef} {P : String → Prop}
    (h : ∀ u ∈ d.superClass.toList ++ d.interfaces, u.MentionsOnly P) :
    ∀ u ∈ d.directSupertypes, u.MentionsOnly P := by
  intro u hu
  rcases declared_or_object hu with hu | rfl
  · exact h u hu
  · exact mentionsOnly_classType.mpr (by simp)

theorem Extends.above {name above : String} (h : store.Extends name above) :
    store.Above name above := by
  obtain ⟨d, hd, h⟩ := h
  obtain ⟨t, ht, hname⟩ := List.mem_filterMap.mp h
  exact ⟨d, hd, List.mem_filterMap.mpr
    ⟨t, mem_directSupertypes (List.mem_append_right _ ht), hname⟩⟩

/-! ## Levels and walks -/

theorem mem_seen_visit (seen : List String) (level : List JavaType) (name : String) :
    name ∈ (store.visit supers seen level).seen
      ↔ name ∈ seen ∨ name ∈ (store.visit supers seen level).met.filterMap className? := by
  fun_induction visit store supers seen level with
  | case1 seen => simp
  | case2 seen name' arguments level hn ih => exact ih
  | case3 seen name' arguments level hn rest above ih =>
    rw [ih, List.filterMap_cons_some (show className? _ = some name' from rfl), List.mem_cons,
      List.mem_cons, or_assoc, or_left_comm]
  | case4 seen t level hc ih => exact ih

/-- Every name of a level was met before or is met on it. -/
theorem mem_visit_of_mem_level (seen : List String) (level : List JavaType) {name : String}
    (h : name ∈ level.filterMap className?) :
    name ∈ (store.visit supers seen level).seen := by
  fun_induction visit store supers seen level with
  | case1 seen => cases h
  | case2 seen name' arguments level hn ih =>
    rw [List.filterMap_cons_some (show className? _ = some name' from rfl)] at h
    rcases List.mem_cons.mp h with rfl | h
    · exact (mem_seen_visit ..).mpr (.inl hn)
    · exact ih h
  | case3 seen name' arguments level hn rest above ih =>
    rw [List.filterMap_cons_some (show className? _ = some name' from rfl)] at h
    rcases List.mem_cons.mp h with rfl | h
    · exact (mem_seen_visit ..).mpr (.inl (List.mem_cons_self ..))
    · exact ih h
  | case4 seen t level hc ih =>
    have hnone : t.className? = none := by
      cases t with
      | classType name' arguments => exact absurd rfl (hc name' arguments)
      | _ => rfl
    rw [List.filterMap_cons_none hnone] at h
    exact ih h

section Names

/-- Nothing that is declared above a class is left out by `supers`. -/
def KeepsNames (supers : ClassDef → List JavaType → List JavaType) : Prop :=
  ∀ d arguments, ∀ name ∈ d.directSupertypes.filterMap className?,
    name ∈ (supers d arguments).filterMap className?

variable (hsupers : KeepsNames supers)
include hsupers

/-- What lies above a class that is met on a level is on the next one. -/
theorem mem_next_of_above (seen : List String) (level : List JavaType) {name above : String}
    (hname : name ∈ (store.visit supers seen level).met.filterMap className?)
    (h : store.Above name above) :
    above ∈ (store.visit supers seen level).next.filterMap className? := by
  fun_induction visit store supers seen level with
  | case1 seen => cases hname
  | case2 seen name' arguments level hn ih => exact ih hname
  | case3 seen name' arguments level hn rest aboveUse ih =>
    rw [List.filterMap_append]
    rw [List.filterMap_cons_some (show className? _ = some name' from rfl)] at hname
    rcases List.mem_cons.mp hname with rfl | hname
    · obtain ⟨d, hd, habove⟩ := h
      refine List.mem_append_left _ ?_
      simp only [aboveUse, hd, Option.elim_some]
      exact hsupers d arguments above habove
    · exact List.mem_append_right _ (ih hname)
  | case4 seen t level hc ih => exact ih hname

/-- The names of a walk contain those it begins with, and what lies above one of them. -/
theorem walk_closed (seen : List String) (level : List JavaType) :
    (∀ name ∈ level.filterMap className?,
        name ∈ seen ∨ name ∈ (store.walk supers seen level).filterMap className?)
      ∧ ∀ name ∈ (store.walk supers seen level).filterMap className?,
        ∀ above, store.Above name above →
          above ∈ seen ∨ above ∈ (store.walk supers seen level).filterMap className? := by
  fun_induction walk store supers seen level with
  | case1 seen level here hnext =>
    constructor
    · intro name hname
      exact (mem_seen_visit ..).mp (mem_visit_of_mem_level seen level hname)
    · intro name hname above habove
      have hmem := mem_next_of_above hsupers seen level hname habove
      rw [show (store.visit supers seen level).next = [] from hnext] at hmem
      cases hmem
  | case2 seen level here hnext ih =>
    obtain ⟨hlevel, hclosed⟩ := ih
    -- a name that was seen by the end of the level was met before the walk or on the level
    have hmet : ∀ name ∈ here.seen, name ∈ seen
        ∨ name ∈ (here.met ++ store.walk supers here.seen here.next).filterMap className? := by
      intro name hname
      rw [List.filterMap_append, List.mem_append]
      rcases (mem_seen_visit ..).mp hname with h | h
      · exact .inl h
      · exact .inr (.inl h)
    have hlater : ∀ name, name ∈ here.seen
          ∨ name ∈ (store.walk supers here.seen here.next).filterMap className? →
        name ∈ seen
          ∨ name ∈ (here.met ++ store.walk supers here.seen here.next).filterMap className? := by
      rintro name (h | h)
      · exact hmet name h
      · rw [List.filterMap_append]
        exact .inr (List.mem_append_right _ h)
    constructor
    · intro name hname
      exact hmet name (mem_visit_of_mem_level seen level hname)
    · intro name hname above habove
      rw [List.filterMap_append, List.mem_append] at hname
      rcases hname with hname | hname
      · exact hlater above (hlevel above (mem_next_of_above hsupers seen level hname habove))
      · exact hlater above (hclosed name hname above habove)

/-- **A walk meets all that can be reached.** -/
theorem mem_walk_of_reaches (level : List JavaType) {name above : String}
    (hname : name ∈ level.filterMap className?)
    (h : Relation.ReflTransGen store.Above name above) :
    above ∈ (store.walk supers [] level).filterMap className? := by
  induction h with
  | refl => exact ((walk_closed hsupers [] level).1 name hname).resolve_left List.not_mem_nil
  | tail _ hstep ih =>
    exact ((walk_closed hsupers [] level).2 _ ih _ hstep).resolve_left List.not_mem_nil

end Names

/-! ## Supertypes -/

theorem className?_erasure (t : JavaType) : t.erasure.className? = t.className? := by
  cases t <;> rfl

theorem keepsNames_supersOfUse : KeepsNames supersOfUse := by
  intro d arguments name hname
  obtain ⟨t, ht, hclass⟩ := List.mem_filterMap.mp hname
  have hvariable : ∀ x, t ≠ typeVar x := by
    rintro x rfl
    cases hclass
  exact List.mem_filterMap.mpr
    ⟨_, mem_supersOfUse.mpr ⟨t, ht, rfl⟩, by rw [className?_substitute hvariable, hclass]⟩

theorem keepsNames_supersOfView : KeepsNames supersOfView := by
  intro d arguments name hname
  rw [supersOfView]
  split
  · obtain ⟨t, ht, hclass⟩ := List.mem_filterMap.mp hname
    exact List.mem_filterMap.mpr
      ⟨t.erasure, List.mem_map_of_mem ht, by rw [className?_erasure, hclass]⟩
  · exact keepsNames_supersOfUse d arguments name hname

/-- A class type can be seen as a use of each class above it. -/
theorem exists_supertypeView {name above : String} (arguments : List JavaType)
    (h : Relation.ReflTransGen store.Above name above) :
    ∃ viewArguments, store.supertypeView (.classType name arguments) above
      = .ok (some (.classType above viewArguments)) := by
  have hmem := mem_walk_of_reaches keepsNames_supersOfView [.classType name arguments]
    (List.mem_singleton_self name) h
  obtain ⟨t, ht, hclass⟩ := List.mem_filterMap.mp hmem
  have hfound : ((store.supertypes (.classType name arguments)).find?
      (·.className? = some above)).isSome := by
    rw [List.find?_isSome]
    exact ⟨t, ht, decide_eq_true hclass⟩
  obtain ⟨view, hview⟩ := Option.isSome_iff_exists.mp hfound
  have hname := List.find?_some hview
  rw [decide_eq_true_iff] at hname
  cases view with
  | classType other viewArguments =>
    cases hname
    exact ⟨viewArguments, supertypeView_eq_some.mpr hview⟩
  | _ => cases hname

/-- **A use of a class may stand where a raw class above it is expected.** -/
theorem assignable_raw {name above : String} (arguments : List JavaType)
    (h : Relation.ReflTransGen store.Above name above) :
    store.assignable (.raw above) (.classType name arguments) = some (.ok true) := by
  obtain ⟨viewArguments, hview⟩ := exists_supertypeView arguments h
  have hsubclass : store.subclassOver store.assignable above [] (.classType name arguments)
      = some (.ok true) := by
    rw [subclassOver, hview]
    split <;> rfl
  rw [assignable_eq]
  unfold assignableOver raw
  split
  · rfl
  · exact hsubclass

end Store

end Conformance
