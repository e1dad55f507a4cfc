import Conformance.Proofs.HierarchyWalks

/-!
# The order of ancestors

The list of ancestors is what a breadth-first search comes to: every class that can be reached by
leaving the class it begins with, once and with the nearest first (`ancestors_exact`).

What is listed is known from the edges alone (`mem_ancestors_iff`), and the order from the levels of
the walk, which begins one step above the class (`frontier_directSupertypes`). A class that is not
stored has a distance like any other, but no way goes on from there.
-/

namespace Conformance

open JavaType

namespace Store

/-- The type is one of the direct supertypes of a use of a stored class, with the arguments of the
use in place. -/
def UsedAbove (store : Store) (t u : JavaType) : Prop :=
  ∃ name arguments d, t = .classType name arguments ∧ store.find? name = some d
    ∧ u ∈ supersOfUse d arguments

section Ancestors

variable {store : Store} (hstore : store.ClassSupertypes)
include hstore

/-- Going up from use to use is going up from name to name. -/
theorem UsedAbove.above {t u : JavaType} {above : String} (h : store.UsedAbove t u)
    (habove : u.className? = some above) :
    ∃ name, t.className? = some name ∧ store.Above name above := by
  obtain ⟨name, arguments, d, rfl, hd, hu⟩ := h
  obtain ⟨v, hv, rfl⟩ := mem_supersOfUse.mp hu
  rw [hstore.className?_substitute hd hv] at habove
  exact ⟨name, rfl, d, hd, List.mem_filterMap.mpr ⟨v, hv, habove⟩⟩

omit hstore in
/-- The list of ancestors begins one step above the class as applied to its own parameters. -/
theorem frontier_directSupertypes {name : String} {d : ClassDef}
    (hd : store.find? name = some d) :
    store.Frontier store.UsedAbove d.selfType name 1 [name] d.directSupertypes where
  seen_iff := by
    intro other
    rw [List.mem_singleton]
    constructor
    · rintro rfl
      exact ⟨0, Nat.one_pos, .here other⟩
    · rintro ⟨m, hm, hclimb⟩
      obtain rfl := Nat.lt_one_iff.mp hm
      cases hclimb
      rfl
  reached := by
    intro t ht
    refine .up (.here d.selfType) ⟨name, d.typeParamNames.map typeVar, d, selfType_eq hd, hd, ?_⟩
    rwa [d.supersOfUse_own]
  complete := by
    rintro other (_ | ⟨⟨⟩, e, he, hother⟩)
    rw [hd, Option.some.injEq] at he
    subst he
    exact .inr hother

/-- **The ancestors of a class, nearest first.** The list consists of uses of the classes other
than the class itself that can be reached from it by going up, one for each; and the lengths of the
shortest ways to them do not decrease. Each is the use that a shortest way leads to from the class
as applied to its own parameters. -/
theorem ancestors_exact {name : String} {d : ClassDef} (hd : store.find? name = some d) :
    ∃ ancestors, store.ancestors name = .ok ancestors
      ∧ (∀ other, some other ∈ ancestors.map className?
          ↔ other ≠ name ∧ Relation.TransGen store.Above name other)
      ∧ (ancestors.map className?).Nodup
      ∧ ∃ distances : List Nat,
        List.Forall₂ (store.IsAt store.UsedAbove d.selfType name) ancestors distances
          ∧ distances.Pairwise (· ≤ ·) := by
  have hancestors := ancestors_eq hd
  refine ⟨_, hancestors, fun other => ?_, nodup_walk supersOfUse [name] d.directSupertypes, ?_⟩
  · rw [← mem_ancestors_iff hstore hancestors, List.mem_map, List.mem_filterMap]
  · have hself : d.selfType.className? = some name := by
      rw [selfType_eq hd]
      rfl
    obtain ⟨distances, hdistances, hsorted, -⟩ :=
      walk_byDistance keepsNames_supersOfUse (fun other e arguments he u hu =>
          ⟨other, arguments, e, rfl, he, hu⟩)
        (fun n t other hclimb hother =>
          climb_above (fun _ _ _ hstep => hstep.above hstore) hself hclimb hother)
        [name] d.directSupertypes 1 (frontier_directSupertypes hd)
    exact ⟨distances, hdistances, hsorted⟩

end Ancestors

/-- `p.Leaf<T>` names the interface `p.Named` itself and comes to it again by `p.Inner`, which is
where the arguments grow. `p.Outer` leads back to `p.Leaf` and on to a class that is not stored. -/
def diamondClasses : List ClassDef :=
  [ { name := "p.Leaf"
      kind := .plainClass
      typeParams := [{ name := "T" }]
      superClass := some (classType "p.Inner" [array (typeVar "T")])
      interfaces := [classType "p.Named" [typeVar "T"]] },
    { name := "p.Inner"
      kind := .plainClass
      typeParams := [{ name := "U" }]
      superClass := some (classType "p.Outer" [typeVar "U"])
      interfaces := [classType "p.Named" [typeVar "U"]] },
    { name := "p.Outer"
      kind := .plainClass
      typeParams := [{ name := "V" }]
      superClass := some (classType "p.Leaf" [typeVar "V"])
      interfaces := [raw "p.Missing", raw "p.Marked"] },
    { name := "p.Named"
      kind := .interface
      typeParams := [{ name := "N" }]
      interfaces := [raw "p.Marked"] },
    { name := "p.Marked", kind := .interface } ]

def diamondStore : Store := Store.empty.insertAll diamondClasses

/-- `p.Named` is listed once, with the arguments that the class itself gives it, and in front of
`p.Outer`, which is farther away. -/
theorem diamondStore_ancestors :
    diamondStore.ClassSupertypes
      ∧ diamondStore.ancestors "p.Leaf" = .ok
        [ classType "p.Inner" [array (typeVar "T")], classType "p.Named" [typeVar "T"],
          classType "p.Outer" [array (typeVar "T")], raw "p.Marked", .object, raw "p.Missing" ]
      ∧ Relation.TransGen diamondStore.Above "p.Leaf" "p.Missing"
      ∧ ∃ distances : List Nat, List.Forall₂
          (diamondStore.IsAt diamondStore.UsedAbove diamondClasses[0].selfType "p.Leaf")
          [ classType "p.Inner" [array (typeVar "T")], classType "p.Named" [typeVar "T"],
            classType "p.Outer" [array (typeVar "T")], raw "p.Marked", .object, raw "p.Missing" ]
          distances ∧ distances.Pairwise (· ≤ ·) := by
  have hstore : diamondStore.ClassSupertypes := by
    intro name d hd
    exact (by decide : ∀ d ∈ diamondClasses, ∀ u ∈ d.superClass.toList ++ d.interfaces,
      u.className?.isSome) d (mem_of_find?_insertAll hd)
  have hd : diamondStore.find? "p.Leaf" = some diamondClasses[0] := by decide
  have hlist : diamondStore.ancestors "p.Leaf" = .ok
      [ classType "p.Inner" [array (typeVar "T")], classType "p.Named" [typeVar "T"],
        classType "p.Outer" [array (typeVar "T")], raw "p.Marked", .object, raw "p.Missing" ] := by
    decide +kernel
  obtain ⟨ancestors, hancestors, hnames, -, hdistances⟩ := ancestors_exact hstore hd
  rw [hlist, Except.ok.injEq] at hancestors
  subst hancestors
  exact ⟨hstore, hlist, ((hnames "p.Missing").mp (by decide)).2, hdistances⟩

end Store

end Conformance
