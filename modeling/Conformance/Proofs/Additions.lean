import Mathlib.Data.List.Induction
import Conformance.Proofs.Naming

/-!
# What a class gets, and what it does without

A class goes through the catalog once. It gets an interface that it conforms to unless it has
the interface already, and it may have it for three reasons: something above the class is the
interface or below it, so is something that was added before, or the list in the header names
it. The reasons are looked at while the list grows. But what was a reason once stays one
(`has_after_append`), so at the end of the catalog every interface that was passed over still
has its reason (`mem_added_or_has`), and each one that was added had none at its own moment,
when the class had what stands before it (`exists_moment`).
-/

namespace Conformance

open Java

/-! ## Reasons -/

namespace Store

variable {store : Store} {i : InterfaceDescriptor}

theorem isCovered_iff {types : List JavaType} : store.isCovered i types = true
    ↔ ∃ t ∈ types, store.assignable i.rawType t = some (.ok true) := by
  rw [isCovered, List.any_eq_true]
  refine exists_congr fun t => and_congr_right fun _ => ?_
  obtain ⟨verdict, hverdict⟩ := Option.isSome_iff_exists.mp (store.isSome_assignable_rawType i t)
  simp only [hverdict, Option.get_some, Option.some.injEq]
  cases verdict <;> simp

theorem isRedundant_iff {name : String} : store.isRedundant name i = true
    ↔ ∃ above, store.ancestors name = .ok above
      ∧ ∃ t ∈ above, store.assignable i.rawType t = some (.ok true) := by
  rw [isRedundant]
  cases store.ancestors name with
  | error fault => simp
  | ok above => simp [isCovered_iff]

/-- A class with nothing above it but the root has no interface yet. -/
theorem isRedundant_of_root {name : String} (habove : store.ancestors name = .ok [.object])
    (hroot : store.assignable i.rawType .object = some (.ok false)) :
    store.isRedundant name i = false := by
  rw [← Bool.not_eq_true, isRedundant_iff]
  rintro ⟨above, h, t, ht, hassignable⟩
  rw [habove, Except.ok.injEq] at h
  subst h
  rw [List.mem_singleton] at ht
  subst ht
  rw [hroot] at hassignable
  cases hassignable

end Store

namespace Retrofit

namespace Candidate

variable {c : Candidate} {d : Declaration} {p : Progress} {i : InterfaceDescriptor}
  {types : List JavaType} {t : JavaType}

/-! ## One interface -/

/-- What a class that has got some types has come to. -/
def after (c : Candidate) (d : Declaration) (types : List JavaType) : Progress :=
  ⟨{ d with added := d.added ++ types.map (c.scope.spell c.context) }, types⟩

/-- The type that a class gets for an interface, unless it has the interface. -/
def wanted? (c : Candidate) (i : InterfaceDescriptor) : Option JavaType :=
  if i.name = c.name then none else (c.store.matchClass c.name i).map i.parameterized

theorem wanted?_eq_some : c.wanted? i = some t
    ↔ i.name ≠ c.name ∧ ∃ b, c.store.matchClass c.name i = some b ∧ t = i.parameterized b := by
  unfold wanted?
  by_cases hname : i.name = c.name
  · simp [hname]
  · simp only [hname, if_false, Option.map_eq_some_iff, ne_eq, not_false_eq_true, true_and,
      eq_comm (a := t)]

theorem gain?_eq (c : Candidate) (p : Progress) (i : InterfaceDescriptor) :
    c.gain? p i = if c.has p i then none else c.wanted? i := by
  unfold gain? wanted?
  by_cases hname : i.name = c.name
  · rw [if_pos hname, if_pos hname, ite_self]
  · rw [if_neg hname, if_neg hname]
    cases c.store.matchClass c.name i with
    | none => rw [Option.map_none, ite_self]
    | some b => rfl

theorem after_nil (c : Candidate) (d : Declaration) : c.after d [] = ⟨d, []⟩ := by
  cases d
  rw [after, List.map_nil, List.append_nil]

theorem step_after_of_none (h : c.gain? (c.after d types) i = none) :
    c.step (c.after d types) i = c.after d types := by
  rw [step, h]

theorem step_after_of_some (h : c.gain? (c.after d types) i = some t) :
    c.step (c.after d types) i = c.after d (types ++ [t]) := by
  rw [step, h]
  dsimp only
  rw [after, after, Declaration.addInterface, List.map_append, ← List.append_assoc]
  rfl

/-- What was a reason to do without an interface stays one when more is added. -/
theorem has_after_append (more : List JavaType) (h : c.has (c.after d types) i = true) :
    c.has (c.after d (types ++ more)) i = true := by
  unfold has at h ⊢
  rw [Bool.or_eq_true, Bool.or_eq_true] at h ⊢
  rcases h with (h | h) | h
  · exact .inl (.inl h)
  · refine .inl (.inr ?_)
    obtain ⟨t, ht, hcovers⟩ := Store.isCovered_iff.mp h
    exact Store.isCovered_iff.mpr ⟨t, List.mem_append_left _ ht, hcovers⟩
  · refine .inr ?_
    rw [Scope.namesInterface_eq] at h ⊢
    have hlist : (c.after d (types ++ more)).declaration.interfaces
        = (c.after d types).declaration.interfaces ++ more.map (c.scope.spell c.context) := by
      simp only [after, Declaration.interfaces, List.map_append, List.append_assoc]
    rw [hlist, Scope.namesType_append, h, Bool.true_or]

/-! ## The whole catalog -/

/-- Going through interfaces adds to what the class has, and takes nothing back. -/
theorem foldl_step_after (c : Candidate) (d : Declaration) (entries : List InterfaceDescriptor)
    (types : List JavaType) :
    ∃ more, entries.foldl c.step (c.after d types) = c.after d (types ++ more) := by
  induction entries generalizing types with
  | nil => exact ⟨[], by rw [List.append_nil, List.foldl_nil]⟩
  | cons i entries ih =>
    rw [List.foldl_cons]
    cases hgain : c.gain? (c.after d types) i with
    | none =>
      rw [step_after_of_none hgain]
      exact ih types
    | some t =>
      rw [step_after_of_some hgain]
      obtain ⟨more, hmore⟩ := ih (types ++ [t])
      exact ⟨t :: more, by rw [hmore, List.append_assoc, List.singleton_append]⟩

/-- **Each type was added at a moment when there was no reason against it.** The moment comes
when the interfaces in front of it in the catalog have been gone through, and by then the
class has got the types in front of it. -/
theorem exists_moment {entries : List InterfaceDescriptor} {before rest : List JavaType}
    (h : entries.foldl c.step (c.after d []) = c.after d (before ++ t :: rest)) :
    ∃ pre i post, entries = pre ++ i :: post
      ∧ pre.foldl c.step (c.after d []) = c.after d before
      ∧ c.gain? (c.after d before) i = some t := by
  induction entries using List.reverseRecOn generalizing rest with
  | nil =>
    have hnil := congrArg Progress.added h
    exact absurd hnil.symm (List.append_ne_nil_of_right_ne_nil _ (List.cons_ne_nil _ _))
  | append_singleton entries i ih =>
    obtain ⟨types, htypes⟩ := foldl_step_after c d entries []
    rw [List.foldl_append, List.foldl_cons, List.foldl_nil, htypes, List.nil_append] at h
    -- if the last interface added the type, its moment is the last one
    have hearlier : ∀ {rest'}, types = before ++ t :: rest' → ∃ pre i' post,
        entries ++ [i] = pre ++ i' :: post
          ∧ pre.foldl c.step (c.after d []) = c.after d before
          ∧ c.gain? (c.after d before) i' = some t := by
      intro rest' hrest
      rw [List.nil_append, hrest] at htypes
      obtain ⟨pre, i', post, hentries, hmoment⟩ := ih htypes
      exact ⟨pre, i', post ++ [i], by rw [hentries, List.append_assoc, List.cons_append], hmoment⟩
    cases hgain : c.gain? (c.after d types) i with
    | none =>
      rw [step_after_of_none hgain] at h
      exact hearlier (congrArg Progress.added h)
    | some u =>
      rw [step_after_of_some hgain] at h
      have hadded : types ++ [u] = before ++ t :: rest := congrArg Progress.added h
      rcases List.eq_nil_or_concat rest with rfl | ⟨rest', last, rfl⟩
      · obtain ⟨rfl, hlast⟩ := List.append_inj' hadded rfl
        rw [List.cons.injEq] at hlast
        obtain ⟨rfl, -⟩ := hlast
        rw [List.nil_append] at htypes
        exact ⟨entries, i, [], rfl, htypes, hgain⟩
      · rw [List.concat_eq_append, ← List.cons_append, ← List.append_assoc] at hadded
        exact hearlier (List.append_inj' hadded rfl).1

/-- **An interface that the class conforms to was added, or there is a reason against it.** -/
theorem mem_added_or_has {entries : List InterfaceDescriptor} (hi : i ∈ entries)
    (ht : c.wanted? i = some t)
    (h : entries.foldl c.step (c.after d []) = c.after d types) :
    t ∈ types ∨ c.has (c.after d types) i = true := by
  obtain ⟨pre, post, rfl⟩ := List.append_of_mem hi
  obtain ⟨before, hbefore⟩ := foldl_step_after c d pre []
  rw [List.nil_append] at hbefore
  rw [List.foldl_append, List.foldl_cons, hbefore] at h
  by_cases hhas : c.has (c.after d before) i = true
  · right
    have hgain : c.gain? (c.after d before) i = none := by rw [gain?_eq, if_pos hhas]
    obtain ⟨more, hmore⟩ := foldl_step_after c d post before
    rw [step_after_of_none hgain, hmore] at h
    have hadded : before ++ more = types := congrArg Progress.added h
    rw [← hadded]
    exact has_after_append more hhas
  · left
    have hgain : c.gain? (c.after d before) i = some t := by rw [gain?_eq, if_neg hhas, ht]
    obtain ⟨more, hmore⟩ := foldl_step_after c d post (before ++ [t])
    rw [step_after_of_some hgain, hmore] at h
    have hadded : before ++ [t] ++ more = types := congrArg Progress.added h
    rw [← hadded]
    exact List.mem_append_left _ (List.mem_append_right _ (List.mem_singleton_self t))

end Candidate

/-! ## Files -/

/-- The class that a declaration at the top of a file stands for. -/
def classOf (store : Store) (f : SourceFile) (d : Declaration) : Candidate :=
  { store, name := f.qualify d.name, scope := f.scope store, context := header d }

/-- Why a declaration at the top of a file does without an interface, when some have been
added to it. -/
inductive Has (store : Store) (f : SourceFile) (d : Declaration) (additions : List Addition)
    (i : InterfaceDescriptor) : Prop where
  /-- Something above the class is the interface or below it. -/
  | inherited {above : List JavaType} {t : JavaType}
      (habove : store.ancestors (f.qualify d.name) = .ok above) (ht : t ∈ above)
      (hassignable : store.assignable i.rawType t = some (.ok true)) : Has store f d additions i
  /-- Something that was added is the interface or below it. -/
  | covered {a : Addition} (ha : a ∈ additions)
      (hassignable : store.assignable i.rawType a.type = some (.ok true)) : Has store f d additions i
  /-- A name in the header is that of the interface, or means it, or is its simple name and
  means nothing. -/
  | named {t : WrittenType} {written : String}
      (ht : t ∈ d.interfaces ++ additions.map (·.clause)) (hname : t.name? = some written)
      (hmeans : written = i.name
        ∨ (f.scope store).resolve? (header d) written = some i.name
        ∨ (written = i.simpleName ∧ (f.scope store).resolve? (header d) written = none)) :
      Has store f d additions i

/-- The record of a type that was added to a declaration. -/
def record (store : Store) (pass : Nat) (f : SourceFile) (d : Declaration) (type : JavaType) :
    Addition where
  pass := pass
  className := f.qualify d.name
  path := f.path
  type := type
  clause := (f.scope store).spell (header d) type

/-- The reasons that the comparison looks at are the ones above. -/
theorem has_iff {store : Store} {f : SourceFile} {d : Declaration} {i : InterfaceDescriptor}
    {types : List JavaType} (pass : Nat) :
    (classOf store f d).has ((classOf store f d).after d types) i = true
      ↔ Has store f d (types.map (record store pass f d)) i := by
  have hinterfaces : ((classOf store f d).after d types).declaration.interfaces
      = d.interfaces ++ (types.map (record store pass f d)).map (·.clause) := by
    rw [List.map_map]
    exact (List.append_assoc ..).symm
  rw [Candidate.has, Bool.or_eq_true, Bool.or_eq_true, Store.isRedundant_iff,
    Store.isCovered_iff, Scope.namesInterface, hinterfaces, List.any_eq_true]
  constructor
  · rintro ((⟨above, habove, t, ht, hassignable⟩ | ⟨t, ht, hassignable⟩) | ⟨written, hmem, hmeans⟩)
    · exact .inherited habove ht hassignable
    · exact .covered (List.mem_map_of_mem ht) hassignable
    · obtain ⟨t, ht, hname⟩ := List.mem_filterMap.mp hmem
      refine .named ht hname ?_
      rw [Scope.meansInterface, Bool.or_eq_true, Bool.or_eq_true, Bool.and_eq_true,
        decide_eq_true_iff, decide_eq_true_iff, decide_eq_true_iff, Option.isNone_iff_eq_none,
        or_assoc] at hmeans
      exact hmeans
  · rintro (⟨habove, ht, hassignable⟩ | ⟨ha, hassignable⟩ | ⟨ht, hname, hmeans⟩)
    · exact .inl (.inl ⟨_, habove, _, ht, hassignable⟩)
    · obtain ⟨t, ht, rfl⟩ := List.mem_map.mp ha
      exact .inl (.inr ⟨t, ht, hassignable⟩)
    · refine .inr ⟨_, List.mem_filterMap.mpr ⟨_, ht, hname⟩, ?_⟩
      rw [Scope.meansInterface, Bool.or_eq_true, Bool.or_eq_true, Bool.and_eq_true,
        decide_eq_true_iff, decide_eq_true_iff, decide_eq_true_iff, Option.isNone_iff_eq_none,
        or_assoc]
      exact hmeans

/-- What a pass makes of a declaration at the top of a file, and the record of it. -/
structure Accounted (store : Store) (catalog : Catalog) (pass : Nat) (f : SourceFile)
    (d e : Declaration) (additions : List Addition) : Prop where
  /-- The recorded clauses stand in order at the end of the list of interfaces, and nothing
  else changes. -/
  declaration : e = { d with added := d.added ++ additions.map (·.clause) }
  /-- Only classes that the store knows get interfaces. -/
  known : additions ≠ [] → d.kind = .plainClass ∧ store.contains (f.qualify d.name) = true
  /-- Each was conformed to, and there was no reason against it when it was added. -/
  justified : ∀ before a others, additions = before ++ a :: others →
    ∃ i ∈ catalog.entries, ∃ b, i.name ≠ f.qualify d.name
      ∧ store.matchClass (f.qualify d.name) i = some b
      ∧ a = record store pass f d (i.parameterized b) ∧ ¬ Has store f d before i
  /-- What the class conforms to was added, or there is a reason against it in the end. -/
  complete : d.kind = .plainClass → store.contains (f.qualify d.name) = true →
    ∀ i ∈ catalog.entries, i.name ≠ f.qualify d.name →
      ∀ b, store.matchClass (f.qualify d.name) i = some b →
        record store pass f d (i.parameterized b) ∈ additions ∨ Has store f d additions i

variable {store : Store} {f : SourceFile} {d : Declaration}

theorem candidate?_of_known (h : d.kind = .plainClass ∧ store.contains (f.qualify d.name) = true) :
    candidate? store f d = some (classOf store f d) := by
  rw [candidate?, if_pos (by rw [h.2, decide_eq_true h.1, Bool.and_self])]
  rfl

/-- A class that the store knows goes through the catalog, to its end if all searches end. -/
theorem declaration?_of_known {catalog : Catalog} {pass : Nat} {r : Declaration × List Addition}
    (h : d.kind = .plainClass ∧ store.contains (f.qualify d.name) = true) :
    declaration? store catalog pass f d = some r
      ↔ (∀ i ∈ catalog.entries, (classOf store f d).Ends i) ∧ ∃ types,
        catalog.entries.foldl (classOf store f d).step ((classOf store f d).after d [])
            = (classOf store f d).after d types
          ∧ r = (((classOf store f d).after d types).declaration,
            types.map (record store pass f d)) := by
  obtain ⟨types, htypes⟩ := Candidate.foldl_step_after (classOf store f d) d catalog.entries []
  rw [List.nil_append] at htypes
  rw [declaration?, candidate?_of_known h, htypes]
  simp only [Option.bind_eq_bind, Option.bind_eq_some_iff, Candidate.compare?_eq_some,
    ← (classOf store f d).after_nil d, htypes, Option.pure_def, Option.some.injEq]
  constructor
  · rintro ⟨p, ⟨hends, rfl⟩, rfl⟩
    exact ⟨hends, types, rfl, rfl⟩
  · rintro ⟨hends, types', heq, rfl⟩
    obtain rfl : types = types' := congrArg Progress.added heq
    exact ⟨_, ⟨hends, rfl⟩, rfl⟩

/-- What is no class that the store knows stays as it is. -/
theorem declaration?_of_not_known (catalog : Catalog) (pass : Nat)
    (h : ¬ (d.kind = .plainClass ∧ store.contains (f.qualify d.name) = true)) :
    declaration? store catalog pass f d = some (d, []) := by
  have hcandidate : candidate? store f d = none := by
    rw [candidate?, if_neg (by rwa [Bool.and_eq_true, decide_eq_true_iff])]
  rw [declaration?, hcandidate]

/-- A class gets the only interface of a catalog, if it conforms to it and has no reason to do
without it. -/
theorem declaration_single (pass : Nat) {i : InterfaceDescriptor} {t : JavaType}
    (hclass : d.kind = .plainClass ∧ store.contains (f.qualify d.name) = true)
    (hwanted : (classOf store f d).wanted? i = some t)
    (hnew : (classOf store f d).has ((classOf store f d).after d []) i = false) :
    declaration? store ⟨[i]⟩ pass f d
      = some ({ d with added := d.added ++ [(f.scope store).spell (header d) t] },
          [record store pass f d t]) := by
  obtain ⟨hname, b, hmatch, -⟩ := Candidate.wanted?_eq_some.mp hwanted
  have hends : ∀ i' ∈ [i], (classOf store f d).Ends i' :=
    List.forall_mem_singleton.mpr (Candidate.ends_of_matchClass hmatch)
  refine (declaration?_of_known hclass).mpr ⟨hends, [t], ?_, rfl⟩
  have hgain : (classOf store f d).gain? ((classOf store f d).after d []) i = some t := by
    rw [Candidate.gain?_eq, hnew, if_neg Bool.false_ne_true, hwanted]
  rw [List.foldl_cons, Candidate.step_after_of_some hgain, List.foldl_nil, List.nil_append]

/-- Nothing comes of a declaration exactly if the search for an interface of the catalog never
ends. -/
theorem declaration?_eq_none {catalog : Catalog} {pass : Nat} :
    declaration? store catalog pass f d = none
      ↔ d.kind = .plainClass ∧ store.contains (f.qualify d.name) = true
        ∧ ∃ i ∈ catalog.entries, i.name ≠ f.qualify d.name
          ∧ store.search (f.qualify d.name) i = .endless := by
  by_cases hknown : d.kind = .plainClass ∧ store.contains (f.qualify d.name) = true
  · have hends : (∀ i ∈ catalog.entries, (classOf store f d).Ends i)
        ↔ ∃ r, declaration? store catalog pass f d = some r := by
      constructor
      · intro hends
        obtain ⟨types, htypes⟩ :=
          Candidate.foldl_step_after (classOf store f d) d catalog.entries []
        exact ⟨_, (declaration?_of_known hknown).mpr ⟨hends, types, htypes, rfl⟩⟩
      · rintro ⟨r, hr⟩
        exact ((declaration?_of_known hknown).mp hr).1
    rw [← Option.not_isSome_iff_eq_none, Option.isSome_iff_exists, ← hends, ← and_assoc,
      and_iff_right hknown]
    simp only [Candidate.Ends, classOf, not_forall, not_not, exists_prop, ne_eq]
  · rw [declaration?_of_not_known catalog pass hknown]
    exact iff_of_false nofun fun h => hknown ⟨h.1, h.2.1⟩

/-- Nothing comes of a file exactly if nothing comes of one of its declarations. -/
theorem file?_eq_none {catalog : Catalog} {pass : Nat} :
    file? store catalog pass f = none ↔ ∃ d ∈ f.types, d.kind = .plainClass
      ∧ store.contains (f.qualify d.name) = true
      ∧ ∃ i ∈ catalog.entries, i.name ≠ f.qualify d.name
        ∧ store.search (f.qualify d.name) i = .endless := by
  unfold file?
  simp only [Option.bind_eq_bind, Option.bind_eq_none_iff, Option.pure_def, reduceCtorEq,
    imp_false, ← Option.eq_none_iff_forall_ne_some, mapM_eq_none_iff, declaration?_eq_none]

theorem accounted_of_declaration? {catalog : Catalog} {pass : Nat} {r : Declaration × List Addition}
    (h : declaration? store catalog pass f d = some r) :
    Accounted store catalog pass f d r.1 r.2 := by
  by_cases hknown : d.kind = .plainClass ∧ store.contains (f.qualify d.name) = true
  · obtain ⟨-, types, htypes, rfl⟩ := (declaration?_of_known hknown).mp h
    refine ⟨?_, fun _ => hknown, ?_, ?_⟩
    · rw [List.map_map]
      rfl
    · intro before a others hsplit
      -- the types in front of the recorded one are those that had been added by then
      obtain ⟨typesBefore, typesFrom, rfl, rfl, hfrom⟩ := List.map_eq_append_iff.mp hsplit
      obtain ⟨t, rest, rfl, rfl, -⟩ := List.map_eq_cons_iff.mp hfrom
      obtain ⟨pre, i, post, hentries, -, hgain⟩ := Candidate.exists_moment htypes
      rw [Candidate.gain?_eq] at hgain
      split at hgain
      · cases hgain
      · next hnone =>
        obtain ⟨hname, b, hmatch, rfl⟩ := Candidate.wanted?_eq_some.mp hgain
        refine ⟨i, ?_, b, hname, hmatch, rfl, mt (has_iff pass).mpr hnone⟩
        rw [hentries]
        exact List.mem_append_right _ (List.mem_cons_self ..)
    · intro _ _ i hi hname b hmatch
      have hwanted : (classOf store f d).wanted? i = some (i.parameterized b) :=
        Candidate.wanted?_eq_some.mpr ⟨hname, b, hmatch, rfl⟩
      rcases Candidate.mem_added_or_has hi hwanted htypes with hmem | hhas
      · exact .inl (List.mem_map_of_mem hmem)
      · exact .inr ((has_iff pass).mp hhas)
  · rw [declaration?_of_not_known catalog pass hknown, Option.some.injEq] at h
    subst h
    refine ⟨?_, fun h => absurd rfl h, ?_, fun hkind hcontains => absurd ⟨hkind, hcontains⟩ hknown⟩
    · cases d
      rw [List.map_nil, List.append_nil]
    · intro before a others hsplit
      exact absurd hsplit.symm (List.append_ne_nil_of_right_ne_nil _ (List.cons_ne_nil _ _))

/-- **A pass over a file is complete, justified, and changes nothing else.** Each declaration
at the top of the file has its own part in the record, and the parts follow each other in the
order of the declarations. The pass does not get to the end of the file exactly if, for a class
and an interface of the catalog, the search never ends. -/
theorem file_accounted (store : Store) (catalog : Catalog) (pass : Nat) (f : SourceFile) :
    (∀ result, file? store catalog pass f = some result →
      ∃ results : List (Declaration × List Addition),
        List.Forall₂ (fun d result => Accounted store catalog pass f d result.1 result.2)
          f.types results
        ∧ result = ({ f with types := results.map (·.1) }, results.flatMap (·.2)))
      ∧ (file? store catalog pass f = none ↔ ∃ d ∈ f.types, d.kind = .plainClass
        ∧ store.contains (f.qualify d.name) = true
        ∧ ∃ i ∈ catalog.entries, i.name ≠ f.qualify d.name
          ∧ store.search (f.qualify d.name) i = .endless) := by
  refine ⟨fun result h => ?_, file?_eq_none⟩
  obtain ⟨results, hresults, rfl⟩ := file?_eq_some.mp h
  exact ⟨results, hresults.imp fun d r hd => accounted_of_declaration? hd, rfl⟩

end Retrofit

end Conformance
