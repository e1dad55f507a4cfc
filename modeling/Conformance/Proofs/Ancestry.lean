import Conformance.Proofs.Additions
import Conformance.Proofs.Distance

/-!
# What a class has from above

Whether an interface is redundant is answered by two walks, one after the other: the first lists
what lies above the class, the second sees each of these types as a use of the interface. Each of
them goes by names, so both together come down to the edges between names
(`isRedundant_iff_above`). Neither is misled by a class that is not stored: the first walk lists
it, and the second fails only where it would have found nothing.

The one edge that does not count leads from a class to itself. The first walk never lists the
class it begins with, so a class whose definition names itself is not above itself for that,
while one on a longer cycle is.
-/

namespace Conformance

open JavaType

/-! ## Edges that lead somewhere else -/

section Relation

variable {α : Type} {r : α → α → Prop} {a b : α}

theorem reflTransGen_ne (h : Relation.ReflTransGen r a b) :
    Relation.ReflTransGen (fun x y => r x y ∧ x ≠ y) a b := by
  induction h with
  | refl => exact .refl
  | @tail x y _ hstep ih =>
    by_cases hxy : x = y
    · exact hxy ▸ ih
    · exact ih.tail ⟨hstep, hxy⟩

/-- A way that uses no edge from a thing to itself is one that gets away from where it begins. -/
theorem transGen_ne_iff : Relation.TransGen (fun x y => r x y ∧ x ≠ y) a b
    ↔ ∃ c, c ≠ a ∧ Relation.TransGen r a c ∧ Relation.ReflTransGen r c b := by
  constructor
  · intro h
    obtain ⟨c, ⟨hac, hne⟩, hcb⟩ := Relation.TransGen.head'_iff.mp h
    exact ⟨c, hne.symm, .single hac, hcb.lift id fun _ _ h => h.1⟩
  · rintro ⟨c, hne, hac, hcb⟩
    rcases Relation.reflTransGen_iff_eq_or_transGen.mp (reflTransGen_ne hac.to_reflTransGen) with
      heq | hac
    · exact absurd heq hne
    · exact hac.trans_left (reflTransGen_ne hcb)

end Relation

namespace Store

variable {store : Store}

/-! ## The list of ancestors -/

theorem not_mem_seen_of_mem_walk {supers : ClassDef → List JavaType → List JavaType}
    {seen : List String} {level : List JavaType} {name : String}
    (h : name ∈ (store.walk supers seen level).filterMap className?) : name ∉ seen := by
  fun_induction walk store supers seen level with
  | case1 seen level here hnext =>
    obtain ⟨t, ht, hname⟩ := List.mem_filterMap.mp h
    obtain ⟨-, other, hother, hseen⟩ := mem_level_of_mem_met ht
    rw [hname, Option.some.injEq] at hother
    exact hother ▸ hseen
  | case2 seen level here hnext ih =>
    rw [List.filterMap_append] at h
    rcases List.mem_append.mp h with h | h
    · obtain ⟨t, ht, hname⟩ := List.mem_filterMap.mp h
      obtain ⟨-, other, hother, hseen⟩ := mem_level_of_mem_met ht
      rw [hname, Option.some.injEq] at hother
      exact hother ▸ hseen
    · exact fun hseen => ih h ((mem_seen_visit ..).mpr (.inl hseen))

theorem nodup_visit (supers : ClassDef → List JavaType → List JavaType) (seen : List String)
    (level : List JavaType) : ((store.visit supers seen level).met.map className?).Nodup := by
  fun_induction visit store supers seen level with
  | case1 seen => exact .nil
  | case2 seen name arguments level hn ih => exact ih
  | case3 seen name arguments level hn rest above ih =>
    refine List.nodup_cons.mpr ⟨fun hmem => ?_, ih⟩
    obtain ⟨t, ht, hname⟩ := List.mem_map.mp hmem
    obtain ⟨-, other, hother, hseen⟩ := mem_level_of_mem_met ht
    rw [hname, className?, Option.some.injEq] at hother
    exact hseen (hother ▸ List.mem_cons_self ..)
  | case4 seen t level hc ih => exact ih

/-- No name is met twice on a walk. -/
theorem nodup_walk (supers : ClassDef → List JavaType → List JavaType) (seen : List String)
    (level : List JavaType) : ((store.walk supers seen level).map className?).Nodup := by
  fun_induction walk store supers seen level with
  | case1 seen level here hnext => exact nodup_visit supers seen level
  | case2 seen level here hnext ih =>
    rw [List.map_append]
    refine (nodup_visit supers seen level).append ih fun name? hmet hlater => ?_
    -- what is met later has a name that was not seen by the end of the level
    obtain ⟨t, ht, rfl⟩ := List.mem_map.mp hmet
    obtain ⟨u, hu, hsame⟩ := List.mem_map.mp hlater
    obtain ⟨-, name, hname, -⟩ := mem_level_of_mem_met ht
    refine not_mem_seen_of_mem_walk (List.mem_filterMap.mpr ⟨u, hu, hsame.trans hname⟩) ?_
    exact (mem_seen_visit ..).mpr (.inr (List.mem_filterMap.mpr ⟨t, ht, hname⟩))

theorem ancestors_eq {name : String} {d : ClassDef} (hd : store.find? name = some d) :
    store.ancestors name = .ok (store.walk supersOfUse [name] d.directSupertypes) := by
  simp [ancestors, require, hd, bind, Except.bind, pure, Except.pure]

section Ancestors

variable (hstore : store.ClassSupertypes)
include hstore

/-- The ancestors of a class are the classes other than itself that can be reached from it. -/
theorem mem_ancestors_iff {name other : String} {above : List JavaType}
    (h : store.ancestors name = .ok above) : other ∈ above.filterMap className?
      ↔ other ≠ name ∧ Relation.TransGen store.Above name other := by
  obtain ⟨d, hd⟩ : ∃ d, store.find? name = some d := by
    cases hd : store.find? name with
    | some d => exact ⟨d, rfl⟩
    | none => simp [ancestors, require, hd, bind, Except.bind] at h
  rw [ancestors_eq hd, Except.ok.injEq] at h
  subst h
  obtain ⟨hlevel, hclosed⟩ := @walk_closed store supersOfUse keepsNames_supersOfUse [name]
    d.directSupertypes
  constructor
  · intro hother
    refine ⟨fun heq => not_mem_seen_of_mem_walk hother (List.mem_singleton.mpr heq), ?_⟩
    obtain ⟨t, ht, hname⟩ := List.mem_filterMap.mp hother
    refine walk_forall (P := fun t => ∀ other, t.className? = some other →
      Relation.TransGen store.Above name other) ?_ [name] d.directSupertypes ?_ t ht other hname
    · intro between d' arguments hd' hbetween u hu above habove
      obtain ⟨v, hv, rfl⟩ := mem_supersOfUse.mp hu
      rw [hstore.className?_substitute hd' hv] at habove
      exact (hbetween between rfl).tail ⟨d', hd', List.mem_filterMap.mpr ⟨v, hv, habove⟩⟩
    · intro u hu above habove
      exact .single ⟨d, hd, List.mem_filterMap.mpr ⟨u, hu, habove⟩⟩
  · rintro ⟨hne, hreach⟩
    -- the first edge leads to the first level, and so does every other one from the class itself
    have hdirect : ∀ above, store.Above name above → above ≠ name →
        above ∈ (store.walk supersOfUse [name] d.directSupertypes).filterMap className? := by
      rintro above ⟨d', hd', habove⟩ hne
      rw [hd, Option.some.injEq] at hd'
      subst hd'
      exact (hlevel above habove).resolve_left fun h => hne (List.mem_singleton.mp h)
    induction hreach with
    | single hedge => exact hdirect _ hedge hne
    | @tail between above _ hedge ih =>
      by_cases hbetween : between = name
      · exact hdirect above (hbetween ▸ hedge) hne
      · exact (hclosed between (ih hbetween) above hedge).resolve_left
          fun h => hne (List.mem_singleton.mp h)

/-- A use of a class may stand where a raw class is expected exactly if that is the class itself
or one above it; only the top class is above all. -/
theorem assignable_raw_iff {name above : String} (arguments : List JavaType)
    (habove : above ≠ objectName) :
    store.assignable (.raw above) (.classType name arguments) = some (.ok true)
      ↔ Relation.ReflTransGen store.Above name above := by
  refine ⟨fun h => ?_, assignable_raw arguments⟩
  rw [assignable_eq] at h
  unfold assignableOver raw at h
  split at h
  · next heq =>
    cases heq
    exact .refl
  · simp only [subclassOver, if_neg habove] at h
    split at h
    · cases h
    · next viewed viewArguments hview =>
      exact (exists_supertypeView_iff hstore arguments).mp ⟨_, hview⟩
    · cases h

/-- An ancestor may stand where the interface is expected exactly if the interface can be reached
from it, and the ancestors are what can be reached by leaving the class. -/
theorem isRedundant_iff_reached {name : String} {i : InterfaceDescriptor}
    (hname : store.contains name = true) (hi : i.name ≠ objectName) :
    store.isRedundant name i = true
      ↔ Relation.TransGen (fun below above => store.Above below above ∧ below ≠ above) name i.name := by
  obtain ⟨d, hd⟩ := Option.isSome_iff_exists.mp hname
  have hancestors := ancestors_eq hd
  rw [isRedundant_iff, transGen_ne_iff]
  constructor
  · rintro ⟨ancestors, h, t, ht, hassignable⟩
    rw [hancestors, Except.ok.injEq] at h
    subst h
    cases t with
    | classType between arguments =>
      obtain ⟨hne, hbetween⟩ := (mem_ancestors_iff hstore hancestors).mp
        (List.mem_filterMap.mpr ⟨_, ht, rfl⟩)
      exact ⟨between, hne, hbetween, (assignable_raw_iff hstore arguments hi).mp hassignable⟩
    | _ => cases className?_of_mem_walk _ _ _ ht
  · rintro ⟨between, hne, hbetween, habove⟩
    obtain ⟨t, ht, hclass⟩ :=
      List.mem_filterMap.mp ((mem_ancestors_iff hstore hancestors).mpr ⟨hne, hbetween⟩)
    cases t with
    | classType _ arguments =>
      cases hclass
      exact ⟨_, hancestors, _, ht, (assignable_raw_iff hstore arguments hi).mpr habove⟩
    | _ => cases hclass

/-- **An interface is redundant exactly if it is an ancestor already.** A class that is stored
has an interface from above if the name of the interface can be reached from that of the class
along edges between different classes. So nothing but these edges matters: not which type
arguments are declared or left out, not the order of the declarations, and not what is missing
elsewhere. -/
theorem isRedundant_iff_above {name : String} {i : InterfaceDescriptor}
    (hname : store.contains name = true) (hi : i.name ≠ objectName) :
    (store.isRedundant name i = true
        ↔ Relation.TransGen (fun below above => store.Above below above ∧ below ≠ above) name i.name)
      ∧ ∀ other : Store, other.ClassSupertypes → other.contains name = true →
        (∀ below above, other.Above below above ↔ store.Above below above) →
        other.isRedundant name i = store.isRedundant name i := by
  refine ⟨isRedundant_iff_reached hstore hname hi, fun other hother hcontains hedges => ?_⟩
  rw [Bool.eq_iff_iff, isRedundant_iff_reached hstore hname hi,
    isRedundant_iff_reached hother hcontains hi]
  simp only [hedges]

end Ancestors

/-- An interface `Sub` below `Top`, and a class `C` that has `Sub` after a superclass that is not
stored. -/
def missingSuperStore : Store :=
  Store.empty.insertAll
    [ { name := "p.Top", kind := .interface, typeParams := [{ name := "T" }] },
      { name := "p.Sub", kind := .interface, interfaces := [raw "p.Top"] },
      { name := "p.C"
        kind := .plainClass
        superClass := some (raw "p.Missing")
        interfaces := [raw "p.Sub"] } ]

/-- An interface of which only the name is known. -/
def bareInterface (name : String) : InterfaceDescriptor where
  name
  typeParams := []
  methods := []
  origin := .classpath

/-- The superclass that is not stored does not hide what the interfaces lead to. -/
theorem missingSuperStore_redundant :
    missingSuperStore.ClassSupertypes ∧ missingSuperStore.contains "p.C" = true
      ∧ (bareInterface "p.Top").name ≠ objectName
      ∧ missingSuperStore.isRedundant "p.C" (bareInterface "p.Top") = true := by
  have hstore : missingSuperStore.ClassSupertypes := by
    intro name d hd
    have hmem := mem_of_find?_insertAll hd
    simp only [List.mem_cons, List.not_mem_nil, or_false] at hmem
    rcases hmem with rfl | rfl | rfl <;> simp [className?, raw]
  have hcontains : missingSuperStore.contains "p.C" = true := by decide
  have hi : (bareInterface "p.Top").name ≠ objectName := by decide
  have hedge : ∀ below above d, missingSuperStore.find? below = some d →
      above ∈ d.directSupertypes.filterMap className? → below ≠ above →
      missingSuperStore.Above below above ∧ below ≠ above :=
    fun below above d hd habove hne => ⟨⟨d, hd, habove⟩, hne⟩
  refine ⟨hstore, hcontains, hi, (isRedundant_iff_above hstore hcontains hi).1.mpr ?_⟩
  exact .tail (.single (hedge "p.C" "p.Sub" _ rfl (by decide) (by decide)))
    (hedge "p.Sub" "p.Top" _ rfl (by decide) (by decide))

/-- An interface whose definition names it as its own super-interface. -/
def loopStore : Store :=
  Store.empty.insertAll
    [ { name := objectName, kind := .plainClass },
      { name := "p.C", kind := .interface, interfaces := [raw "p.C"] } ]

/-- An edge from a class to itself leads from the class to the class, and yet the class is not
redundant. -/
theorem loopStore_not_redundant :
    loopStore.ClassSupertypes ∧ loopStore.contains "p.C" = true
      ∧ (bareInterface "p.C").name ≠ objectName
      ∧ Relation.TransGen loopStore.Above "p.C" (bareInterface "p.C").name
      ∧ loopStore.isRedundant "p.C" (bareInterface "p.C") = false := by
  have hstore : loopStore.ClassSupertypes := by
    intro name d hd
    have hmem := mem_of_find?_insertAll hd
    simp only [List.mem_cons, List.not_mem_nil, or_false] at hmem
    rcases hmem with rfl | rfl <;> simp [className?, raw]
  have hedge : loopStore.Above "p.C" "p.C" :=
    ⟨{ name := "p.C", kind := .interface, interfaces := [raw "p.C"] }, by decide,
      by decide⟩
  have hancestors : loopStore.ancestors "p.C" = .ok [.object] := by decide +kernel
  have hroot : loopStore.assignableWithin 1 (bareInterface "p.C").rawType .object
      = some (.ok false) := by decide +kernel
  exact ⟨hstore, by decide, by decide, .single hedge,
    isRedundant_of_root hancestors (assignable_of_within hroot)⟩

end Store

end Conformance
