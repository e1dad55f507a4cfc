import Conformance.Proofs.Distance

/-!
# Views of instances

A type in which variables are given values is seen from above as the type itself is, with the
variables given values in the view (`supertypeView_instance`). Both searches go through the same
names in the same order, each with its own arguments, so they come to the same end: they find the
class, find that it is not there, or fail on the same class that is not stored.

Every edge of the hierarchy must do its part. The supertypes that a class declares mention the
parameters of the class only, so they change with its arguments and with nothing else; they are
classes, because a variable could turn into one. And a use of a class has all arguments or none
(`Applied`): where some are missing, the parameter is erased to its bound, and a substitution
changes a variable in the bound although nobody substituted for the parameter.
-/

namespace Conformance

open JavaType

namespace Store

/-! ## The number of arguments -/

/-- A use of a stored class has a number of arguments that its definition allows. -/
def Applied (store : Store) (allowed : ClassDef → Nat → Prop) : JavaType → Prop
  | .classType name arguments => ∀ d ∈ store.find? name, allowed d arguments.length
  | _ => True

instance {store : Store} {allowed : ClassDef → Nat → Prop}
    [∀ d count, Decidable (allowed d count)] : DecidablePred (store.Applied allowed)
  | .classType name arguments =>
    inferInstanceAs (Decidable (∀ d ∈ store.find? name, allowed d arguments.length))
  | .void | .primitive _ | .array _ | .typeVar _ | .wildcard | .wildcardExtends _
  | .wildcardSuper _ => isTrue trivial

end Store

/-- There are arguments for all type parameters or for none. -/
def ClassDef.RawOrFull (d : ClassDef) (count : Nat) : Prop :=
  count = 0 ∨ count = d.typeParams.length

instance (d : ClassDef) (count : Nat) : Decidable (d.RawOrFull count) :=
  inferInstanceAs (Decidable (_ ∨ _))

namespace Store

variable {store : Store} {allowed : ClassDef → Nat → Prop}

/-- A substitution does not change how many arguments a use of a class has. -/
theorem Applied.substitute {t : JavaType} (h : store.Applied allowed t) (ht : t.className?.isSome)
    (s : Substitution) : store.Applied allowed (t.substitute s) := by
  cases t with
  | classType name arguments =>
    intro d hd
    rw [substituteAll_eq_map, List.length_map]
    exact h d hd
  | _ => cases ht

theorem Applied.erasure {t : JavaType} (h : store.Applied ClassDef.RawOrFull t) :
    store.Applied ClassDef.RawOrFull t.erasure := by
  cases t with
  | classType name arguments => exact fun _ _ => .inl rfl
  | _ => exact h

/-- What stored definitions declare above them are classes over the parameters of the definition,
each applied to as many arguments as it declares parameters, or raw. -/
structure ParametricSupertypes (store : Store) : Prop where
  classes : store.ClassSupertypes
  declared : ∀ name d, store.find? name = some d → ∀ u ∈ d.superClass.toList ++ d.interfaces,
    u.MentionsOnly (· ∈ d.typeParamNames)
  applied : ∀ name d, store.find? name = some d → ∀ u ∈ d.superClass.toList ++ d.interfaces,
    store.Applied ClassDef.RawOrFull u

namespace ParametricSupertypes

variable (hstore : store.ParametricSupertypes) {name : String} {d : ClassDef}
  (hd : store.find? name = some d)
include hstore hd

/-! ## One edge -/

theorem applied_supersOfView {arguments : List JavaType} {u : JavaType}
    (hu : u ∈ supersOfView d arguments) : store.Applied ClassDef.RawOrFull u := by
  have habove : ∀ v ∈ d.directSupertypes, store.Applied ClassDef.RawOrFull v := by
    intro v hv
    rcases declared_or_object hv with h | rfl
    · exact hstore.applied name d hd v h
    · exact fun _ _ => .inl rfl
  rcases mem_supersOfView.mp hu with ⟨-, -, v, hv, rfl⟩ | ⟨-, v, hv, rfl⟩
  · exact (habove v hv).erasure
  · exact (habove v hv).substitute
      (Option.isSome_iff_exists.mpr (hstore.classes.className? hd hv)) _

theorem supersOfView_follows {arguments : List JavaType}
    (huse : store.Applied ClassDef.RawOrFull (.classType name arguments)) (s : Substitution) :
    List.Forall₂ (Follows s) (supersOfView d arguments)
      (supersOfView d (arguments.map (substitute s))) := by
  refine Store.supersOfView_follows (mentionsOnly_directSupertypes (hstore.declared name d hd)) ?_ ?_
  · rintro u hu x rfl
    obtain ⟨above, habove⟩ := hstore.classes.className? hd hu
    cases habove
  · intro hne p hp
    have hfull : arguments.length = d.typeParams.length :=
      (huse d hd).resolve_left fun h => hne (List.length_eq_zero_iff.mp h)
    rw [hfull, List.drop_length] at hp
    cases hp

end ParametricSupertypes

/-! ## The whole search -/

/-- Substituting in a type substitutes in all that lies above it. -/
theorem supertypes_instance (hstore : store.ParametricSupertypes) {t : JavaType}
    (ht : ∀ x, t ≠ typeVar x) (huse : store.Applied ClassDef.RawOrFull t) (s : Substitution) :
    store.supertypes (t.substitute s) = (store.supertypes t).map (JavaType.substitute s) := by
  -- along both walks, uses of classes are raw or full and differ by the substitution
  have hwalk : List.Forall₂ (fun u u' => store.Applied ClassDef.RawOrFull u ∧ Follows s u u')
      (store.supertypes t) (store.supertypes (t.substitute s)) := by
    refine walk_related (fun h => h.2.className?) ?_ [] [t] [t.substitute s]
      (.cons ⟨huse, follows_substitute ht⟩ .nil)
    rintro name d arguments arguments' hd ⟨happlied, hfollows⟩
    cases hfollows with
    | use =>
      exact (List.forall₂_and_left ..).mpr ⟨fun u hu => hstore.applied_supersOfView hd hu,
        hstore.supersOfView_follows hd happlied s⟩
    | other hn => cases hn
  exact eq_map_of_follows ((List.forall₂_and_left ..).mp hwalk).2 (className?_of_mem_walk [] [t])

/-- **A view of an instance is an instance of the view.** If a substitution is made in a type that
is not a variable itself, the type is seen as a use of any class above it with the substitution
made in the view; where there is no view, there is none before and after, and what is missing is
the same. -/
theorem supertypeView_instance (hstore : store.ParametricSupertypes) {t : JavaType}
    (ht : ∀ x, t ≠ typeVar x) (huse : store.Applied ClassDef.RawOrFull t) (s : Substitution)
    (above : String) :
    store.supertypeView (t.substitute s) above
      = (store.supertypeView t above).map (Option.map (JavaType.substitute s)) :=
  supertypeView_map (supertypes_instance hstore ht huse s) above

/-- `p.Pairs<K, V>` is a collection of `p.Pair<V, K>`, and has a raw class above it that has one
that is not stored. -/
def pairsClasses : List ClassDef :=
  [ { name := "p.Pairs"
      kind := .plainClass
      typeParams := [{ name := "K" }, { name := "V", upperBounds := [typeVar "K"] }]
      superClass := some (raw "p.Bag")
      interfaces := [classType "p.Col" [classType "p.Pair" [typeVar "V", typeVar "K"]]] },
    { name := "p.Bag"
      kind := .plainClass
      typeParams := [{ name := "B" }]
      superClass := some (classType "p.Missing" [typeVar "B"]) },
    { name := "p.Col", kind := .plainClass, typeParams := [{ name := "E" }] } ]

def pairsStore : Store := Store.empty.insertAll pairsClasses

/-- Giving `T` a value in `p.Pairs<T, String>` gives it the value in the view, and changes nothing
about a class that is not found. -/
theorem pairsStore_views :
    let t := classType "p.Pairs" [typeVar "T", raw "java.lang.String"]
    let s := Substitution.ofPairs [("T", array (typeVar "K"))]
    pairsStore.ParametricSupertypes ∧ (∀ x, t ≠ typeVar x)
      ∧ pairsStore.Applied ClassDef.RawOrFull t
      ∧ pairsStore.supertypeView (t.substitute s) "p.Col" = .ok (some
          (classType "p.Col" [classType "p.Pair" [raw "java.lang.String", array (typeVar "K")]]))
      ∧ pairsStore.supertypeView (t.substitute s) "p.Other"
        = .error (.unresolved "p.Missing") := by
  intro t s
  have hcases : ∀ {name d}, pairsStore.find? name = some d → d ∈ pairsClasses :=
    mem_of_find?_insertAll
  have hstore : pairsStore.ParametricSupertypes := by
    refine ⟨fun name d hd => ?_, fun name d hd => ?_, fun name d hd => ?_⟩
    · exact (by decide : ∀ d ∈ pairsClasses, ∀ u ∈ d.superClass.toList ++ d.interfaces,
        u.className?.isSome) d (hcases hd)
    · have hmem := hcases hd
      simp only [pairsClasses, List.mem_cons, List.not_mem_nil, or_false] at hmem
      rcases hmem with rfl | rfl | rfl <;>
        simp +contextual [MentionsOnly, mentions, mentionsAny, raw, ClassDef.typeParamNames, or_imp]
    · exact (by decide : ∀ d ∈ pairsClasses, ∀ u ∈ d.superClass.toList ++ d.interfaces,
        pairsStore.Applied ClassDef.RawOrFull u) d (hcases hd)
  have ht : ∀ x, t ≠ typeVar x := by simp [t]
  have huse : pairsStore.Applied ClassDef.RawOrFull t := by decide
  have hcol : pairsStore.supertypeView t "p.Col" = .ok (some
      (classType "p.Col" [classType "p.Pair" [raw "java.lang.String", typeVar "T"]])) := by
    decide +kernel
  have hother : pairsStore.supertypeView t "p.Other" = .error (.unresolved "p.Missing") := by
    decide +kernel
  refine ⟨hstore, ht, huse, ?_, ?_⟩
  · rw [supertypeView_instance hstore ht huse, hcol]
    rfl
  · rw [supertypeView_instance hstore ht huse, hother]
    rfl

/-- Where an argument is missing, the bound of its parameter shows in the view, and a substitution
changes that. -/
example :
    let store := Store.empty.insertAll
      [ { name := "p.Box"
          kind := .plainClass
          typeParams := [{ name := "K" }, { name := "V", upperBounds := [typeVar "K"] }]
          interfaces := [classType "p.Col" [typeVar "V"]] } ]
    let t := classType "p.Box" [raw "java.lang.String"]
    let s := Substitution.ofPairs [("K", .object)]
    t.substitute s = t ∧ store.supertypeView (t.substitute s) "p.Col"
      ≠ (store.supertypeView t "p.Col").map (Option.map (JavaType.substitute s)) := by
  decide +kernel

end Store

end Conformance
