import Mathlib.Data.List.Pairwise
import Conformance.Proofs.Outline

/-!
# Descriptions of interfaces

An interface is described by a visit of what lies above it, and of the methods met on the way those
stay that no earlier one stands for. A catalog keeps its entries in the same way. Which elements of
a list stay depends on their order only where different elements stand for each other
(`keepFirst_perm`).
-/

namespace Conformance

/-! ## The first of each kind -/

section KeepFirst

variable {α : Type} {same : α → α → Bool} {l l' : List α}

theorem mem_of_mem_keepFirst {a : α} (h : a ∈ keepFirst same l) : a ∈ l := by
  induction l with
  | nil => exact h
  | cons b l ih =>
    rcases List.mem_cons.mp h with rfl | h
    · exact List.mem_cons_self ..
    · exact List.mem_cons_of_mem _ (ih (List.mem_of_mem_filter h))

theorem pairwise_keepFirst (same : α → α → Bool) (l : List α) :
    (keepFirst same l).Pairwise fun a b => same a b = false := by
  induction l with
  | nil => exact .nil
  | cons a l ih =>
    refine .cons (fun b hb => ?_) (ih.filter _)
    simpa using (List.mem_filter.mp hb).2

theorem keepFirst_append (l l' : List α) : keepFirst same (l ++ l')
    = keepFirst same l ++ (keepFirst same l').filter fun b => !l.any (same · b) := by
  induction l with
  | nil => simp [keepFirst]
  | cons a l ih =>
    rw [List.cons_append, keepFirst, ih, List.filter_append, List.filter_filter, keepFirst,
      List.cons_append]
    simp only [List.any_cons, Bool.not_or]

/-- An element stays at its place exactly if no earlier one stands for it. -/
theorem mem_keepFirst_iff {a : α} : a ∈ keepFirst same l
    ↔ ∃ before after, l = before ++ a :: after ∧ ∀ b ∈ before, same b a = false := by
  constructor
  · intro ha
    induction l with
    | nil => cases ha
    | cons b l ih =>
      rcases List.mem_cons.mp ha with rfl | ha
      · exact ⟨[], l, rfl, nofun⟩
      · obtain ⟨before, after, rfl, hbefore⟩ := ih (List.mem_of_mem_filter ha)
        have hb : same b a = false := by simpa using (List.mem_filter.mp ha).2
        exact ⟨b :: before, after, rfl, List.forall_mem_cons.mpr ⟨hb, hbefore⟩⟩
  · rintro ⟨before, after, rfl, hbefore⟩
    induction before with
    | nil => exact List.mem_cons_self ..
    | cons b before ih =>
      rw [List.forall_mem_cons] at hbefore
      refine List.mem_cons_of_mem _ (List.mem_filter.mpr ⟨ih hbefore.2, ?_⟩)
      rw [hbefore.1, Bool.not_false]

/-- An element stays if no other one stands for it. -/
theorem mem_keepFirst {a : α} (ha : a ∈ l) (honly : ∀ b ∈ l, same b a = true → b = a) :
    a ∈ keepFirst same l := by
  induction l with
  | nil => exact ha
  | cons b l ih =>
    rw [List.forall_mem_cons] at honly
    rcases List.mem_cons.mp ha with rfl | ha
    · exact List.mem_cons_self ..
    · cases hb : same b a with
      | true => exact honly.1 hb ▸ List.mem_cons_self ..
      | false =>
        refine List.mem_cons_of_mem _ (List.mem_filter.mpr ⟨ih ha honly.2, ?_⟩)
        rw [hb, Bool.not_false]

/-- Which elements stay is no matter of order if only equal elements stand for each other. -/
theorem keepFirst_perm (hself : ∀ a, same a a = true)
    (honly : ∀ a ∈ l, ∀ b ∈ l, same a b = true → a = b) (h : l.Perm l') :
    (keepFirst same l).Perm (keepFirst same l') := by
  have hnodup : ∀ l : List α, (keepFirst same l).Nodup := by
    intro l
    refine (pairwise_keepFirst same l).imp ?_
    rintro a b hab rfl
    rw [hself a] at hab
    cases hab
  rw [List.perm_ext_iff_of_nodup (hnodup l) (hnodup l')]
  intro a
  constructor
  · intro ha
    have hmem := mem_of_mem_keepFirst ha
    exact mem_keepFirst (h.mem_iff.mp hmem) fun b hb hba => honly b (h.mem_iff.mpr hb) a hmem hba
  · intro ha
    have hmem := h.mem_iff.mpr (mem_of_mem_keepFirst ha)
    exact mem_keepFirst hmem fun b hb hba => honly b hb a hmem hba

end KeepFirst

/-! ## Stored interfaces -/

namespace Store

variable {store : Store} {name : String} {d : ClassDef}

/-- The visit of an interface that is stored and was not met before. -/
theorem interfaceVisits_cons {visited : List String} {s : Substitution}
    {stack : List (String × Substitution)} (hd : store.find? name = some d)
    (hn : name ∉ visited) :
    store.interfaceVisits visited ((name, s) :: stack)
      = (d, s) :: store.interfaceVisits (name :: visited)
          (store.superInterfaceUses d s ++ stack) := by
  rw [interfaceVisits, dif_neg hn]
  split
  · next hnone =>
    rw [hd] at hnone
    cases hnone
  · next e he =>
    rw [hd, Option.some.injEq] at he
    subst he
    rfl

/-- An interface that was met before is passed over. -/
theorem interfaceVisits_seen {visited : List String} {s : Substitution}
    {stack : List (String × Substitution)} (hn : name ∈ visited) :
    store.interfaceVisits visited ((name, s) :: stack) = store.interfaceVisits visited stack := by
  rw [interfaceVisits, dif_pos hn]

/-- An interface that is not stored is passed over. -/
theorem interfaceVisits_missing {visited : List String} {s : Substitution}
    {stack : List (String × Substitution)} (hd : store.find? name = none) (hn : name ∉ visited) :
    store.interfaceVisits visited ((name, s) :: stack)
      = store.interfaceVisits (name :: visited) stack := by
  rw [interfaceVisits, dif_neg hn]
  split
  · rfl
  · next e he =>
    rw [hd] at he
    cases he

theorem describe_eq_some {origin : InterfaceOrigin} (hd : store.find? name = some d)
    (hi : d.isInterface = true) : store.describe name origin
      = some {
          name
          typeParams := d.typeParamNames
          methods := keepFirst WantedMethod.sameSignature
            ((store.interfaceVisits [] [(name, fun _ => none)]).flatMap fun (d, s) =>
              d.wantedMethods s)
          origin } := by
  rw [describe, hd, Option.bind_eq_bind, Option.bind_some, if_pos hi, name_of_find? hd]

/-- An interface that extends no other asks for its own methods. -/
theorem describe_alone {origin : InterfaceOrigin} (hd : store.find? name = some d)
    (hi : d.isInterface = true) (halone : d.interfaces = []) : store.describe name origin
      = some {
          name
          typeParams := d.typeParamNames
          methods := keepFirst WantedMethod.sameSignature (d.wantedMethods fun _ => none)
          origin } := by
  have huses : store.superInterfaceUses d (fun _ => none) = [] := by
    rw [superInterfaceUses, halone, List.filterMap_nil]
  rw [describe_eq_some hd hi, interfaceVisits_cons hd List.not_mem_nil, huses, List.append_nil,
    interfaceVisits, List.flatMap_singleton]

/-- What is described is an interface of that name in the store. -/
theorem found_of_describe {i : InterfaceDescriptor} {origin : InterfaceOrigin}
    (hi : store.describe name origin = some i) :
    i.name = name ∧ ∃ d, store.find? name = some d ∧ d.isInterface = true := by
  have hname := store.name_of_describe name origin
  rw [hi, Option.map_some] at hname
  cases hd : store.find? name with
  | none => simp [hd] at hname
  | some d =>
    rw [hd, Option.any_some] at hname
    by_cases hinterface : d.isInterface = true
    · rw [if_pos hinterface, Option.some.injEq] at hname
      exact ⟨hname, d, rfl, hinterface⟩
    · rw [if_neg hinterface] at hname
      cases hname

/-- Where an interface was found makes no difference to what it asks for. -/
theorem methods_of_described {i j : InterfaceDescriptor} {name name' : String}
    {origin origin' : InterfaceOrigin} (hi : store.describe name origin = some i)
    (hj : store.describe name' origin' = some j) (h : i.name = j.name) :
    i.methods = j.methods := by
  obtain ⟨rfl, d, hd, hinterface⟩ := found_of_describe hi
  obtain ⟨rfl, -⟩ := found_of_describe hj
  rw [describe_eq_some hd hinterface, Option.some.injEq] at hi
  rw [← h, describe_eq_some hd hinterface, Option.some.injEq] at hj
  rw [← hi, ← hj]

end Store

end Conformance
