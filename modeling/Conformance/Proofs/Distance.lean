import Mathlib.Data.List.Pairwise
import Conformance.Proofs.Aligned
import Conformance.Proofs.Reach

/-!
# The nearest use of a class

A walk meets each name once, and what it keeps of a class is the use that it meets first. That
this is a nearest one follows from what is known when a level begins (`Frontier`): the names
seen are those that are nearer, the types of the level are as many steps away as levels came
before it, and no name at this distance is missing. A level keeps all three (`Frontier.next`),
so everything that is met was reached by a shortest way, the near before the far
(`walk_byDistance`).

Names can be counted on because the supertypes that a definition declares are classes. A
supertype that is a type variable would turn into whatever the variable stands for.

For a view this settles all three outcomes (`supertypeView_exact`). A class that is not stored
is a reason for having no answer only if the class that is looked for was not found.
-/

namespace Conformance

open JavaType

/-! ## Ways of so many steps -/

/-- A way of so many steps from one thing to another. -/
inductive Climb {α : Type} (step : α → α → Prop) : Nat → α → α → Prop where
  | here (a : α) : Climb step 0 a a
  | up {n : Nat} {a b c : α} : Climb step n a b → step b c → Climb step (n + 1) a c

theorem Climb.reflTransGen {α : Type} {step : α → α → Prop} {n : Nat} {a b : α}
    (h : Climb step n a b) : Relation.ReflTransGen step a b := by
  induction h with
  | here => exact .refl
  | up _ hstep ih => exact ih.tail hstep

theorem exists_climb {α : Type} {step : α → α → Prop} {a b : α}
    (h : Relation.ReflTransGen step a b) : ∃ n, Climb step n a b := by
  induction h with
  | refl => exact ⟨0, .here a⟩
  | tail _ hstep ih =>
    obtain ⟨n, hclimb⟩ := ih
    exact ⟨n + 1, .up hclimb hstep⟩

namespace Store

/-! ## Steps from use to use -/

/-- All that stored definitions declare above them are classes. -/
def ClassSupertypes (store : Store) : Prop :=
  ∀ name d, store.find? name = some d → ∀ u ∈ d.superClass.toList ++ d.interfaces,
    u.className?.isSome

/-- A type is directly above a use of a stored class: it is a declared supertype with the
arguments in place, or an erased one if the class is generic and its use raw. -/
inductive SeenAbove (store : Store) : JavaType → JavaType → Prop where
  | use {name : String} {arguments : List JavaType} {d : ClassDef} {u : JavaType} :
      store.find? name = some d → u ∈ d.directSupertypes → (arguments = [] → d.typeParams = []) →
      SeenAbove store (.classType name arguments) (u.substitute (d.instantiation arguments))
  | raw {name : String} {d : ClassDef} {u : JavaType} :
      store.find? name = some d → u ∈ d.directSupertypes → d.typeParams ≠ [] →
      SeenAbove store (.raw name) u.erasure

variable {store : Store} {supers : ClassDef → List JavaType → List JavaType}

theorem seenAbove_of_mem {name : String} {arguments : List JavaType} {d : ClassDef} {u : JavaType}
    (hd : store.find? name = some d) (hu : u ∈ supersOfView d arguments) :
    store.SeenAbove (.classType name arguments) u := by
  rcases mem_supersOfView.mp hu with ⟨rfl, hgeneric, v, hv, rfl⟩ | ⟨hused, v, hv, rfl⟩
  · exact .raw hd hv hgeneric
  · exact .use hd hv hused

/-- Also the top class that every interface has above it is a class. -/
theorem ClassSupertypes.className? (hstore : store.ClassSupertypes) {name : String} {d : ClassDef}
    (hd : store.find? name = some d) {u : JavaType} (hu : u ∈ d.directSupertypes) :
    ∃ above, u.className? = some above := by
  rcases declared_or_object hu with h | rfl
  · exact Option.isSome_iff_exists.mp (hstore name d hd u h)
  · exact ⟨objectName, rfl⟩

theorem ClassSupertypes.className?_substitute (hstore : store.ClassSupertypes) {name : String}
    {d : ClassDef} (hd : store.find? name = some d) {u : JavaType} (hu : u ∈ d.directSupertypes)
    (s : Substitution) : (u.substitute s).className? = u.className? := by
  obtain ⟨above, habove⟩ := hstore.className? hd hu
  refine JavaType.className?_substitute ?_
  rintro x rfl
  cases habove

/-- Going up from use to use is going up from name to name. -/
theorem SeenAbove.above (hstore : store.ClassSupertypes) {t u : JavaType}
    (h : store.SeenAbove t u) {above : String} (habove : u.className? = some above) :
    ∃ name, t.className? = some name ∧ store.Above name above := by
  cases h with
  | @use name arguments d v hd hv _ =>
    rw [hstore.className?_substitute hd hv] at habove
    exact ⟨name, rfl, d, hd, List.mem_filterMap.mpr ⟨v, hv, habove⟩⟩
  | @raw name d v hd hv _ =>
    rw [className?_erasure] at habove
    exact ⟨name, rfl, d, hd, List.mem_filterMap.mpr ⟨v, hv, habove⟩⟩

/-- If each step from use to use goes up from name to name, so does each way. -/
theorem climb_above {step : JavaType → JavaType → Prop}
    (hsteps : ∀ t u above, step t u → u.className? = some above →
      ∃ name, t.className? = some name ∧ store.Above name above)
    {n : Nat} {t u : JavaType} {name above : String} (hname : t.className? = some name)
    (h : Climb step n t u) (habove : u.className? = some above) :
    Climb store.Above n name above := by
  induction h generalizing above with
  | here =>
    rw [hname, Option.some.injEq] at habove
    rw [habove]
    exact .here above
  | up _ hstep ih =>
    obtain ⟨between, hbetween, hedge⟩ := hsteps _ _ _ hstep habove
    exact .up (ih hname hbetween) hedge

theorem above_of_climb (hstore : store.ClassSupertypes) {n : Nat} {t u : JavaType}
    {name above : String} (hname : t.className? = some name) (h : Climb store.SeenAbove n t u)
    (habove : u.className? = some above) : Climb store.Above n name above :=
  climb_above (fun _ _ _ hstep => hstep.above hstore) hname h habove

/-! ## What a level meets -/

/-- What is met on a level is on it, under a name that was not seen before. -/
theorem mem_level_of_mem_met {seen : List String} {level : List JavaType} {t : JavaType}
    (h : t ∈ (store.visit supers seen level).met) :
    t ∈ level ∧ ∃ name, t.className? = some name ∧ name ∉ seen := by
  fun_induction visit store supers seen level with
  | case1 seen => cases h
  | case2 seen name arguments level hn ih =>
    exact ⟨List.mem_cons_of_mem _ (ih h).1, (ih h).2⟩
  | case3 seen name arguments level hn rest above ih =>
    rcases List.mem_cons.mp h with rfl | h
    · exact ⟨List.mem_cons_self .., name, rfl, hn⟩
    · obtain ⟨hmem, other, hother, hseen⟩ := ih h
      exact ⟨List.mem_cons_of_mem _ hmem, other, hother, List.not_mem_of_not_mem_cons hseen⟩
  | case4 seen t level hc ih => exact ⟨List.mem_cons_of_mem _ (ih h).1, (ih h).2⟩

/-- What is on the next level is directly above a class that was met on this one. -/
theorem exists_met_of_mem_next {seen : List String} {level : List JavaType} {u : JavaType}
    (h : u ∈ (store.visit supers seen level).next) :
    ∃ name arguments d, .classType name arguments ∈ (store.visit supers seen level).met
      ∧ store.find? name = some d ∧ u ∈ supers d arguments := by
  fun_induction visit store supers seen level with
  | case1 seen => cases h
  | case2 seen name arguments level hn ih => exact ih h
  | case3 seen name arguments level hn rest above ih =>
    rcases List.mem_append.mp h with h | h
    · cases hd : store.find? name with
      | none => simp [above, hd] at h
      | some d =>
        exact ⟨name, arguments, d, List.mem_cons_self .., hd, by simpa [above, hd] using h⟩
    · obtain ⟨name', arguments', d, hmet, hd, hu⟩ := ih h
      exact ⟨name', arguments', d, List.mem_cons_of_mem _ hmet, hd, hu⟩
  | case4 seen t level hc ih => exact ih h

/-! ## Levels by distance -/

/-- How many steps a shortest way from one class to another has. -/
structure Distance (store : Store) (name other : String) (n : Nat) : Prop where
  reached : Climb store.Above n name other
  least : ∀ m, Climb store.Above m name other → n ≤ m

/-- The type is a use of a class at some distance, and it is the use that a way of that length
leads to. -/
structure IsAt (store : Store) (step : JavaType → JavaType → Prop) (start : JavaType)
    (origin : String) (t : JavaType) (n : Nat) : Prop where
  reached : Climb step n start t
  distance : ∃ name, t.className? = some name ∧ store.Distance origin name n

/-- What is known when a walk from a class gets to a level. -/
structure Frontier (store : Store) (step : JavaType → JavaType → Prop) (start : JavaType)
    (origin : String) (n : Nat) (seen : List String) (level : List JavaType) : Prop where
  /-- The names seen are those that are nearer. -/
  seen_iff : ∀ name, name ∈ seen ↔ ∃ m < n, Climb store.Above m origin name
  /-- What is on the level is so many steps away. -/
  reached : ∀ t ∈ level, Climb step n start t
  /-- No name that is so many steps away is missing. -/
  complete : ∀ name, Climb store.Above n origin name →
    name ∈ seen ∨ name ∈ level.filterMap className?

section Frontier

variable {step : JavaType → JavaType → Prop} {start : JavaType} {origin : String}
  (hkeeps : KeepsNames supers)
  (hsupers : ∀ name d arguments, store.find? name = some d → ∀ u ∈ supers d arguments,
    step (.classType name arguments) u)
  (hnames : ∀ n t name, Climb step n start t → t.className? = some name →
    Climb store.Above n origin name)
include hkeeps hsupers hnames

theorem Frontier.next {n : Nat} {seen : List String} {level : List JavaType}
    (h : store.Frontier step start origin n seen level) :
    store.Frontier step start origin (n + 1) (store.visit supers seen level).seen
      (store.visit supers seen level).next := by
  have hseen : ∀ name, name ∈ (store.visit supers seen level).seen
      ↔ ∃ m < n + 1, Climb store.Above m origin name := by
    intro name
    constructor
    · intro hname
      rcases (mem_seen_visit ..).mp hname with hname | hname
      · obtain ⟨m, hm, hclimb⟩ := (h.seen_iff name).mp hname
        exact ⟨m, Nat.lt_succ_of_lt hm, hclimb⟩
      · obtain ⟨t, ht, hclass⟩ := List.mem_filterMap.mp hname
        have hreached := h.reached t (mem_level_of_mem_met ht).1
        exact ⟨n, Nat.lt_succ_self n, hnames n t name hreached hclass⟩
    · rintro ⟨m, hm, hclimb⟩
      rcases Nat.lt_or_eq_of_le (Nat.le_of_lt_succ hm) with hm | rfl
      · exact (mem_seen_visit ..).mpr (.inl ((h.seen_iff name).mpr ⟨m, hm, hclimb⟩))
      · rcases h.complete name hclimb with hname | hname
        · exact (mem_seen_visit ..).mpr (.inl hname)
        · exact mem_visit_of_mem_level seen level hname
  refine ⟨hseen, fun u hu => ?_, fun above hclimb => ?_⟩
  · obtain ⟨name, arguments, d, hmet, hd, hu⟩ := exists_met_of_mem_next hu
    exact .up (h.reached _ (mem_level_of_mem_met hmet).1) (hsupers name d arguments hd u hu)
  · obtain _ | ⟨hbelow, hedge⟩ := hclimb
    -- the class below was met on this level, unless it is nearer and so is the one above it
    rcases (mem_seen_visit ..).mp ((hseen _).mpr ⟨n, Nat.lt_succ_self n, hbelow⟩) with hname | hname
    · obtain ⟨m, hm, hclimb⟩ := (h.seen_iff _).mp hname
      exact .inl ((hseen above).mpr ⟨m + 1, Nat.succ_lt_succ hm, .up hclimb hedge⟩)
    · exact .inr (mem_next_of_above hkeeps seen level hname hedge)

omit hkeeps hsupers hnames in
/-- A class that is met on a level cannot be reached sooner. -/
theorem Frontier.le_of_met {n : Nat} {seen : List String} {level : List JavaType}
    (h : store.Frontier step start origin n seen level) {t : JavaType}
    (ht : t ∈ (store.visit supers seen level).met) {name : String} (hname : t.className? = some name)
    {m : Nat} (hclimb : Climb store.Above m origin name) : n ≤ m := by
  obtain ⟨-, other, hother, hseen⟩ := mem_level_of_mem_met ht
  rw [hname, Option.some.injEq] at hother
  subst hother
  exact Nat.le_of_not_lt fun hlt => hseen ((h.seen_iff name).mpr ⟨m, hlt, hclimb⟩)

omit hkeeps hsupers in
theorem Frontier.met_isAt {n : Nat} {seen : List String} {level : List JavaType}
    (h : store.Frontier step start origin n seen level) :
    ∀ t ∈ (store.visit supers seen level).met, store.IsAt step start origin t n := by
  intro t ht
  obtain ⟨hlevel, name, hname, -⟩ := mem_level_of_mem_met ht
  have hreached := h.reached t hlevel
  exact ⟨hreached, name, hname, hnames n t name hreached hname, fun m => h.le_of_met ht hname⟩

/-- **A walk meets the near before the far**, and each class at the end of a shortest way. -/
theorem walk_byDistance (seen : List String) (level : List JavaType) :
    ∀ n, store.Frontier step start origin n seen level →
      ∃ distances : List Nat,
        List.Forall₂ (store.IsAt step start origin) (store.walk supers seen level) distances
          ∧ distances.Pairwise (· ≤ ·) ∧ ∀ k ∈ distances, n ≤ k := by
  -- all that is met on a level is equally far away
  have hlevel : ∀ {n seen level}, store.Frontier step start origin n seen level →
      List.Forall₂ (store.IsAt step start origin) (store.visit supers seen level).met
        (List.replicate (store.visit supers seen level).met.length n) := by
    intro n seen level h
    rw [← List.map_const', List.forall₂_map_right_iff]
    exact List.forall₂_same.mpr (h.met_isAt hnames)
  fun_induction walk store supers seen level with
  | case1 seen level here hnext =>
    intro n h
    exact ⟨_, hlevel h, List.pairwise_replicate_of_refl,
      fun k hk => Nat.le_of_eq (List.eq_of_mem_replicate hk).symm⟩
  | case2 seen level here hnext ih =>
    intro n h
    obtain ⟨later, hlater, hsorted, hfar⟩ := ih (n + 1) (h.next hkeeps hsupers hnames)
    refine ⟨_, List.rel_append (hlevel h) hlater, List.pairwise_append.mpr ⟨?_, hsorted, ?_⟩, ?_⟩
    · exact List.pairwise_replicate_of_refl
    · intro k hk m hm
      rw [List.eq_of_mem_replicate hk]
      exact Nat.le_of_succ_le (hfar m hm)
    · intro k hk
      rcases List.mem_append.mp hk with hk | hk
      · exact Nat.le_of_eq (List.eq_of_mem_replicate hk).symm
      · exact Nat.le_of_succ_le (hfar k hk)

theorem walk_nearest {seen : List String} {level : List JavaType} {t : JavaType}
    (ht : t ∈ store.walk supers seen level) {name : String} (hname : t.className? = some name)
    (n : Nat) (h : store.Frontier step start origin n seen level) :
    ∃ k, Climb step k start t ∧ ∀ m, Climb store.Above m origin name → k ≤ m := by
  obtain ⟨distances, hdistances, -⟩ := walk_byDistance hkeeps hsupers hnames seen level n h
  obtain ⟨k, -, hreached, other, hother, hdistance⟩ := exists_right_of_mem hdistances ht
  rw [hname, Option.some.injEq] at hother
  subst hother
  exact ⟨k, hreached, hdistance.least⟩

end Frontier

/-! ## Views -/

/-- The walk from a type begins with the type itself, no step away. -/
theorem frontier_self {t : JavaType} {name : String} (hname : t.className? = some name) :
    store.Frontier store.SeenAbove t name 0 [] [t] where
  seen_iff := by simp
  reached := by
    intro u hu
    rw [List.mem_singleton.mp hu]
    exact .here t
  complete := by
    intro other hclimb
    cases hclimb
    exact .inr (List.mem_filterMap.mpr ⟨t, List.mem_singleton_self t, hname⟩)

section Views

variable (hstore : store.ClassSupertypes)
include hstore

/-- What lies above a use of a class, or is the use itself, was reached by a shortest way. -/
theorem supertypes_nearest {name above : String} {arguments : List JavaType} {t : JavaType}
    (ht : t ∈ store.supertypes (.classType name arguments)) (habove : t.className? = some above) :
    ∃ n, Climb store.SeenAbove n (.classType name arguments) t
      ∧ ∀ m, Climb store.Above m name above → n ≤ m :=
  walk_nearest keepsNames_supersOfView (fun _ _ _ hd _ hu => seenAbove_of_mem hd hu)
    (fun _ _ _ hclimb hname => above_of_climb hstore rfl hclimb hname) ht habove 0
    (frontier_self rfl)

/-- The names of what lies above a use of a class are those that can be reached from it. -/
theorem mem_supertypes_iff {name above : String} {arguments : List JavaType} :
    above ∈ (store.supertypes (.classType name arguments)).filterMap className?
      ↔ Relation.ReflTransGen store.Above name above := by
  constructor
  · intro h
    obtain ⟨t, ht, habove⟩ := List.mem_filterMap.mp h
    obtain ⟨n, hclimb, -⟩ := supertypes_nearest hstore ht habove
    exact (above_of_climb hstore rfl hclimb habove).reflTransGen
  · exact mem_walk_of_reaches keepsNames_supersOfView [.classType name arguments]
      (List.mem_singleton_self name)

/-- A use of a class can be seen as a use of what can be reached from it, and of nothing else. -/
theorem exists_supertypeView_iff {name above : String} (arguments : List JavaType) :
    (∃ view, store.supertypeView (.classType name arguments) above = .ok (some view))
      ↔ Relation.ReflTransGen store.Above name above := by
  constructor
  · rintro ⟨view, h⟩
    exact (mem_supertypes_iff hstore).mp
      (List.mem_filterMap.mpr ⟨view, mem_supertypes_of_view h, className?_of_view h⟩)
  · intro h
    obtain ⟨viewArguments, h⟩ := exists_supertypeView arguments h
    exact ⟨_, h⟩

/-- A class that is not above a type is found not to be, if all that is above is stored;
otherwise one that is not stored is named. -/
theorem supertypeView_of_not_reached {name above : String} (arguments : List JavaType)
    (h : ¬ Relation.ReflTransGen store.Above name above) :
    (store.supertypeView (.classType name arguments) above = .ok none
        ∧ ∀ other, Relation.ReflTransGen store.Above name other → store.contains other = true)
      ∨ ∃ unknown,
        store.supertypeView (.classType name arguments) above = .error (.unresolved unknown)
          ∧ Relation.ReflTransGen store.Above name unknown ∧ store.contains unknown = false := by
  have hnone : (store.supertypes (.classType name arguments)).find? (·.className? = some above)
      = none := by
    rw [List.find?_eq_none]
    intro t ht hname
    rw [decide_eq_true_iff] at hname
    exact h ((mem_supertypes_iff hstore).mp (List.mem_filterMap.mpr ⟨t, ht, hname⟩))
  unfold supertypeView
  simp only [hnone]
  split
  · next unknown hunknown =>
    have hmissing := List.find?_some hunknown
    rw [Bool.not_eq_true'] at hmissing
    have hmem := List.mem_of_find?_eq_some hunknown
    exact .inr ⟨unknown, rfl, (mem_supertypes_iff hstore).mp hmem, hmissing⟩
  · next hall =>
    refine .inl ⟨rfl, fun other hother => ?_⟩
    rw [List.find?_eq_none] at hall
    simpa using hall other ((mem_supertypes_iff hstore).mpr hother)

/-- **A view is an exact search.** A use of a class can be seen as a use of each class that can
be reached from it, and of no other. The view is what the declared supertypes make of the use
along a shortest way. If the class cannot be reached, there is no view if all that can be reached
is stored, and otherwise the answer names a class that is not. -/
theorem supertypeView_exact (name above : String) (arguments : List JavaType) :
    ((∃ view, store.supertypeView (.classType name arguments) above = .ok (some view))
        ↔ Relation.ReflTransGen store.Above name above)
      ∧ (∀ view, store.supertypeView (.classType name arguments) above = .ok (some view) →
          view.className? = some above
            ∧ ∃ n, Climb store.SeenAbove n (.classType name arguments) view
              ∧ ∀ m, Climb store.Above m name above → n ≤ m)
      ∧ (store.supertypeView (.classType name arguments) above = .ok none
          ↔ ¬ Relation.ReflTransGen store.Above name above
            ∧ ∀ other, Relation.ReflTransGen store.Above name other → store.contains other = true)
      ∧ (¬ Relation.ReflTransGen store.Above name above →
          (∃ other, Relation.ReflTransGen store.Above name other ∧ store.contains other = false) →
          ∃ unknown,
            store.supertypeView (.classType name arguments) above = .error (.unresolved unknown)
              ∧ Relation.ReflTransGen store.Above name unknown
              ∧ store.contains unknown = false) := by
  have hreached : (∃ view, store.supertypeView (.classType name arguments) above = .ok (some view))
      ↔ Relation.ReflTransGen store.Above name above := exists_supertypeView_iff hstore arguments
  refine ⟨hreached, fun view h => ?_, ⟨fun h => ?_, ?_⟩, fun hnot ⟨other, hother, hmissing⟩ => ?_⟩
  · exact ⟨className?_of_view h,
      supertypes_nearest hstore (mem_supertypes_of_view h) (className?_of_view h)⟩
  · have hnot : ¬ Relation.ReflTransGen store.Above name above := by
      intro hreach
      obtain ⟨view, hview⟩ := hreached.mpr hreach
      rw [h] at hview
      cases hview
    rcases supertypeView_of_not_reached hstore arguments hnot with ⟨-, hall⟩ | ⟨unknown, herror, -⟩
    · exact ⟨hnot, hall⟩
    · rw [h] at herror
      cases herror
  · rintro ⟨hnot, hall⟩
    rcases supertypeView_of_not_reached hstore arguments hnot with ⟨h, -⟩ | ⟨unknown, -, hu, hmissing⟩
    · exact h
    · rw [hall unknown hu] at hmissing
      cases hmissing
  · rcases supertypeView_of_not_reached hstore arguments hnot with ⟨-, hall⟩ | hunknown
    · rw [hall other hother] at hmissing
      cases hmissing
    · exact hunknown

end Views

/-- A hierarchy in which the arguments grow around a cycle: `A<T>` is below `B<List<T>>` and
`B<U>` below `A<U>` again. A superclass of `A` is not stored, and above `B<U>` there is also
`C<U>`. -/
def growingClasses : List ClassDef :=
  [ { name := "p.A"
      kind := .plainClass
      typeParams := [{ name := "T" }]
      superClass := some (raw "p.Missing")
      interfaces := [classType "p.B" [classType "java.util.List" [typeVar "T"]]] },
    { name := "p.B"
      kind := .plainClass
      typeParams := [{ name := "U" }]
      superClass := some (classType "p.A" [typeVar "U"])
      interfaces := [classType "p.C" [typeVar "U"]] },
    { name := "p.C", kind := .plainClass, typeParams := [{ name := "V" }] } ]

def growingStore : Store := Store.empty.insertAll growingClasses

/-- The missing class does not hide `C`, which is two steps above a use of `A`; but it might be the
one that has a `D` above it. -/
theorem growingStore_views :
    growingStore.ClassSupertypes
      ∧ (∃ view,
        growingStore.supertypeView (classType "p.A" [raw "java.lang.String"]) "p.C" = .ok (some view)
          ∧ ∃ n, Climb growingStore.SeenAbove n (classType "p.A" [raw "java.lang.String"]) view
            ∧ ∀ m, Climb growingStore.Above m "p.A" "p.C" → n ≤ m)
      ∧ growingStore.supertypeView (raw "p.A") "p.D" = .error (.unresolved "p.Missing") := by
  have hstore : growingStore.ClassSupertypes := by
    intro name d hd
    have hmem := mem_of_find?_insertAll hd
    simp only [growingClasses, List.mem_cons, List.not_mem_nil, or_false] at hmem
    rcases hmem with rfl | rfl | rfl <;> simp [className?, raw]
  have hstep : ∀ name above d, growingStore.find? name = some d →
      above ∈ d.directSupertypes.filterMap className? → growingStore.Above name above :=
    fun name above d hd habove => ⟨d, hd, habove⟩
  have habove : Relation.ReflTransGen growingStore.Above "p.A" "p.C" :=
    .tail (.single (hstep "p.A" "p.B" growingClasses[0] (by decide) (by decide)))
      (hstep "p.B" "p.C" growingClasses[1] (by decide) (by decide))
  obtain ⟨hfound, hnearest, -, -⟩ :=
    supertypeView_exact hstore "p.A" "p.C" [raw "java.lang.String"]
  obtain ⟨view, hview⟩ := hfound.mpr habove
  exact ⟨hstore, ⟨view, hview, (hnearest view hview).2⟩, by decide +kernel⟩

end Store

end Conformance
