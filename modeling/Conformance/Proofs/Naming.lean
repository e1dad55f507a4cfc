import Conformance.Project.Retrofit
import Conformance.Proofs.Aligned
import Conformance.Proofs.Outline

/-!
# Recognizing an interface that was added

An interface is written into a header under the shortest name that means it there. So the list
of interfaces names it from then on (`namesType_append_spell`), for as long as names mean the
same, and a declaration that names an interface does not get it. Going through the catalog
preserves that whatever was added is named by the declaration and was not named before
(`Gained`).

Whether a search ends does not depend on what was added before. So a class either comes to the end
of the catalog, by steps that all lead on (`compare?_eq_some`), or it does not.
-/

namespace Conformance

namespace Java

open Declaration

namespace Scope

variable {s : Scope} {c : Context}

/-- Whether a written name is meant for the class of a canonical name. -/
def meansType (s : Scope) (c : Context) (name written : String) : Bool :=
  written = name || s.resolve? c written = some name
    || (written = Text.lastSegment name && (s.resolve? c written).isNone)

/-- Whether some written types name a class. -/
def namesType (s : Scope) (c : Context) (types : List WrittenType) (name : String) : Bool :=
  (types.filterMap WrittenType.name?).any (s.meansType c name)

/-- Of an interface nothing but its name matters. -/
theorem namesInterface_eq (s : Scope) (c : Context) (d : Declaration) (i : InterfaceDescriptor) :
    s.namesInterface c d i = s.namesType c d.interfaces i.name := rfl

theorem namesType_append (types others : List WrittenType) (name : String) :
    s.namesType c (types ++ others) name
      = (s.namesType c types name || s.namesType c others name) := by
  rw [namesType, List.filterMap_append, List.any_append]
  rfl

/-- The shortest name is the canonical one, or means it. -/
theorem shortestName_spec (s : Scope) (c : Context) (name : String) :
    s.shortestName c name = name ∨ s.resolve? c (s.shortestName c name) = some name := by
  unfold shortestName
  cases h : (endings name).find? fun written =>
      !isHidden c written && decide (s.resolve? c written = some name) with
  | none => exact .inl rfl
  | some written =>
    have hfound := List.find?_some h
    rw [Bool.and_eq_true, decide_eq_true_iff] at hfound
    exact .inr hfound.2

theorem meansType_shortestName (s : Scope) (c : Context) (name : String) :
    s.meansType c name (s.shortestName c name) = true := by
  unfold meansType
  rcases s.shortestName_spec c name with h | h
  · rw [decide_eq_true h, Bool.true_or, Bool.true_or]
  · rw [decide_eq_true h, Bool.or_true, Bool.true_or]

theorem name?_spell {type : JavaType} {name : String} (h : type.className? = some name) :
    (s.spell c type).name? = some (s.shortestName c name) := by
  cases type with
  | classType other arguments =>
    cases h
    rw [spell]
    rfl
  | _ => cases h

/-- **A type that is written at the end of a list is named by the list.** -/
theorem namesType_append_spell {type : JavaType} {name : String}
    (h : type.className? = some name) (types : List WrittenType) :
    s.namesType c (types ++ [s.spell c type]) name = true := by
  have hspelled : s.namesType c [s.spell c type] name = true := by
    rw [namesType, List.filterMap_cons_some (name?_spell h), List.any_cons,
      meansType_shortestName, Bool.true_or]
  rw [namesType_append, hspelled, Bool.or_true]

/-- What a list names depends on what names mean. -/
theorem namesType_congr {s' : Scope} (h : ∀ written, s'.resolve? c written = s.resolve? c written)
    (types : List WrittenType) (name : String) :
    s'.namesType c types name = s.namesType c types name := by
  unfold namesType meansType
  simp only [h]

end Scope

end Java

open Java

namespace Retrofit

/-! ## One declaration -/

/-- The name of the interface that a type is an application of. -/
def interfaceOf (type : JavaType) : String := type.className?.getD ""

namespace Candidate

variable {c : Candidate} {p : Progress} {i : InterfaceDescriptor} {type : JavaType}

/-- Whether the list of interfaces of a declaration names a class. -/
def names (c : Candidate) (d : Declaration) (name : String) : Bool :=
  c.scope.namesType c.context d.interfaces name

/-- The type to add for an interface, if there is reason to add it. -/
def gain? (c : Candidate) (p : Progress) (i : InterfaceDescriptor) : Option JavaType :=
  if i.name = c.name then none
  else
    match c.store.matchClass c.name i with
    | none => none
    | some b => if c.has p i then none else some (i.parameterized b)

/-- What comparing the class with one more interface comes to if the search for it ends. -/
def step (c : Candidate) (p : Progress) (i : InterfaceDescriptor) : Progress :=
  match c.gain? p i with
  | none => p
  | some type =>
    ⟨p.declaration.addInterface (c.scope.spell c.context type), p.added ++ [type]⟩

/-- There is no search for an interface that never ends. -/
def Ends (c : Candidate) (i : InterfaceDescriptor) : Prop :=
  i.name ≠ c.name → c.store.search c.name i ≠ .endless

theorem ends_of_matchClass {b : Binding} (h : c.store.matchClass c.name i = some b) : c.Ends i := by
  intro _ hends
  rw [Store.matchClass_eq_some, hends] at h
  cases h

theorem step?_eq_some {p' : Progress} : c.step? p i = some p' ↔ c.Ends i ∧ p' = c.step p i := by
  unfold step? Ends step gain? Store.matchClass
  split
  · next hname => simp [hname, eq_comm]
  · next hname =>
    cases c.store.search c.name i with
    | endless => simp [hname]
    | failed => simp [Search.binding?, eq_comm]
    | found b =>
      dsimp only [Search.binding?]
      split <;> simp [eq_comm]

theorem foldlM_step?_eq_some {entries : List InterfaceDescriptor} {p' : Progress} :
    entries.foldlM c.step? p = some p' ↔ (∀ i ∈ entries, c.Ends i) ∧ p' = entries.foldl c.step p := by
  induction entries generalizing p with
  | nil => simp [eq_comm]
  | cons i entries ih =>
    simp only [List.foldlM_cons, Option.bind_eq_bind, Option.bind_eq_some_iff, step?_eq_some, ih,
      List.forall_mem_cons, List.foldl_cons]
    constructor
    · rintro ⟨_, ⟨hi, rfl⟩, hentries, rfl⟩
      exact ⟨⟨hi, hentries⟩, rfl⟩
    · rintro ⟨⟨hi, hentries⟩, rfl⟩
      exact ⟨_, ⟨hi, rfl⟩, hentries, rfl⟩

/-- A class comes to the end of a catalog if all searches end. -/
theorem compare?_eq_some {catalog : Catalog} {d : Declaration} : c.compare? catalog d = some p
    ↔ (∀ i ∈ catalog.entries, c.Ends i) ∧ p = catalog.entries.foldl c.step ⟨d, []⟩ :=
  foldlM_step?_eq_some

theorem gain?_eq_some (h : c.gain? p i = some type) :
    type.className? = some i.name ∧ c.names p.declaration i.name = false := by
  unfold gain? at h
  split at h
  · cases h
  · split at h
    · cases h
    · next b _ =>
      split at h
      · cases h
      · next hhas =>
        rw [Option.some.injEq] at h
        subst h
        rw [has, Bool.or_eq_true, not_or, Scope.namesInterface_eq] at hhas
        exact ⟨rfl, Bool.eq_false_of_not_eq_true hhas.2⟩

/-- What was made of a declaration by adding some interfaces of a catalog to it. -/
structure Gained (c : Candidate) (entries : List InterfaceDescriptor) (d : Declaration)
    (p : Progress) : Prop where
  /-- What was added is written at the end of the list. -/
  declaration : p.declaration
    = { d with added := d.added ++ p.added.map (c.scope.spell c.context) }
  /-- Only interfaces of the catalog are added, -/
  offered : ∀ t ∈ p.added, interfaceOf t ∈ entries.map (·.name)
  /-- each of them once, -/
  distinct : (p.added.map interfaceOf).Nodup
  /-- none that was named before, -/
  fresh : ∀ t ∈ p.added, c.names d (interfaceOf t) = false
  /-- and all of them are named from then on. -/
  named : ∀ t ∈ p.added, c.names p.declaration (interfaceOf t) = true

theorem gained_refl (c : Candidate) (entries : List InterfaceDescriptor) (d : Declaration) :
    Gained c entries d ⟨d, []⟩ where
  declaration := by
    cases d
    rw [List.map_nil, List.append_nil]
  offered := by simp
  distinct := List.nodup_nil
  fresh := by simp
  named := by simp

theorem interfaces_addInterface (d : Declaration) (t : WrittenType) :
    (d.addInterface t).interfaces = d.interfaces ++ [t] := by
  rw [Declaration.interfaces, Declaration.interfaces, Declaration.addInterface,
    List.append_assoc]

/-- Comparing with one more interface of the catalog preserves what was gained. -/
theorem Gained.step {entries : List InterfaceDescriptor} {d : Declaration}
    (h : Gained c entries d p) (hi : i ∈ entries) : Gained c entries d (c.step p i) := by
  unfold Candidate.step
  cases hgain : c.gain? p i with
  | none => exact h
  | some type =>
    obtain ⟨hclass, hfresh⟩ := gain?_eq_some hgain
    have hname : interfaceOf type = i.name := by rw [interfaceOf, hclass, Option.getD_some]
    have hkept : ∀ name, c.names p.declaration name = true →
        c.names (p.declaration.addInterface (c.scope.spell c.context type)) name = true := by
      intro name hnamed
      unfold names at hnamed ⊢
      rw [interfaces_addInterface, Scope.namesType_append, hnamed, Bool.true_or]
    -- a name that was there before any addition is there after each of them
    have hearlier : ∀ name, c.names p.declaration name = false → c.names d name = false := by
      intro name hnot
      unfold names at hnot ⊢
      rw [h.declaration, Declaration.interfaces, ← List.append_assoc, Scope.namesType_append,
        Bool.or_eq_false_iff] at hnot
      exact hnot.1
    refine ⟨?_, ?_, ?_, ?_, ?_⟩
    · rw [h.declaration, List.map_append, ← List.append_assoc]
      rfl
    · rw [List.forall_mem_append, List.forall_mem_singleton, hname]
      exact ⟨h.offered, List.mem_map_of_mem hi⟩
    · rw [List.map_append, List.map_singleton, List.nodup_append]
      refine ⟨h.distinct, by simp, ?_⟩
      -- what was added before is named by now, and what is named is not added
      intro name hmem other hother heq
      rw [List.mem_singleton, hname] at hother
      obtain ⟨t, ht, rfl⟩ := List.mem_map.mp hmem
      have := h.named t ht
      rw [heq, hother, hfresh] at this
      cases this
    · rw [List.forall_mem_append, List.forall_mem_singleton, hname]
      exact ⟨h.fresh, hearlier _ hfresh⟩
    · rw [List.forall_mem_append, List.forall_mem_singleton, hname]
      refine ⟨fun t ht => hkept _ (h.named t ht), ?_⟩
      unfold names
      rw [interfaces_addInterface]
      exact Scope.namesType_append_spell hclass _

/-- **What going through the catalog makes of a declaration.** -/
theorem gained_of_compare? {catalog : Catalog} {d : Declaration}
    (h : c.compare? catalog d = some p) : Gained c catalog.entries d p := by
  rw [(compare?_eq_some.mp h).2]
  refine List.foldlRecOn (motive := Gained c catalog.entries d) _ _
    (gained_refl c catalog.entries d) ?_
  intro p h i hi
  exact h.step hi

end Candidate

/-! ## One file -/

/-- What is visible in the header of a declaration at the top of a file. -/
def header (d : Declaration) : Context := { typeVars := d.typeParams.map (·.name) }

/-- Whether the list of interfaces of a declaration at the top of a file names a class. -/
def names (store : Store) (f : SourceFile) (d : Declaration) (name : String) : Bool :=
  (f.scope store).namesType (header d) d.interfaces name

/-- The list of a declaration with the same outline names the same classes in the same way. -/
theorem names_congr {store store' : Store} {f g : SourceFile} (h : f.SameOutline g)
    (hkinds : Store.SameKinds store store') {d e : Declaration}
    (hparams : e.typeParams = d.typeParams) (name : String) :
    names store' g e name = (f.scope store).namesType (header d) e.interfaces name := by
  have hheader : header e = header d := by rw [header, header, hparams]
  rw [names, hheader]
  exact Scope.namesType_congr (h.resolve?_eq hkinds (header d)) e.interfaces name

/-- What was made of a declaration at the top of a file, and the record of it. -/
structure Extended (store : Store) (catalog : Catalog) (f : SourceFile) (d e : Declaration)
    (additions : List Addition) : Prop where
  declaration : e = { d with added := d.added ++ additions.map (·.clause) }
  /-- Only classes get interfaces, and only those of the catalog, -/
  kind : ∀ a ∈ additions, d.kind = .plainClass
  offered : ∀ a ∈ additions, a.interface ∈ catalog.entries.map (·.name)
  /-- each of them once, -/
  distinct : (additions.map Addition.interface).Nodup
  /-- none that was named before, -/
  fresh : ∀ a ∈ additions, names store f d a.interface = false
  /-- and all of them are named from then on. -/
  named : ∀ a ∈ additions, names store f e a.interface = true

theorem extended_refl (store : Store) (catalog : Catalog) (f : SourceFile) (d : Declaration) :
    Extended store catalog f d d [] := by
  refine ⟨?_, by simp, by simp, List.nodup_nil, by simp, by simp⟩
  cases d
  rw [List.map_nil, List.append_nil]

/-- **What a declaration gains in a pass.** -/
theorem extended_of_declaration? {store : Store} {catalog : Catalog} {pass : Nat} {f : SourceFile}
    {d : Declaration} {r : Declaration × List Addition}
    (h : declaration? store catalog pass f d = some r) : Extended store catalog f d r.1 r.2 := by
  unfold declaration? at h
  cases hc : candidate? store f d with
  | none =>
    rw [hc] at h
    cases h
    exact extended_refl store catalog f d
  | some c =>
    rw [hc] at h
    obtain ⟨p, hp, hr⟩ := Option.bind_eq_some_iff.mp h
    rw [Option.pure_def, Option.some.injEq] at hr
    subst hr
    have hgained := Candidate.gained_of_compare? hp
    unfold candidate? at hc
    dsimp only at hc
    split at hc
    · next hkind =>
      rw [Bool.and_eq_true, decide_eq_true_iff] at hkind
      rw [Option.some.injEq] at hc
      subst hc
      -- interfaces do not change what is visible in the header
      have hheader : header p.declaration = header d := by
        rw [hgained.declaration]
        rfl
      refine ⟨?_, fun _ _ => hkind.1, ?_, ?_, ?_, ?_⟩
      · rw [List.map_map]
        exact hgained.declaration
      · rw [List.forall_mem_map]
        exact hgained.offered
      · rw [List.map_map]
        exact hgained.distinct
      · rw [List.forall_mem_map]
        exact hgained.fresh
      · rw [List.forall_mem_map]
        unfold names
        rw [hheader]
        exact hgained.named
    · cases hc

theorem Extended.interfaces {store : Store} {catalog : Catalog} {f : SourceFile}
    {d e : Declaration} {additions : List Addition}
    (h : Extended store catalog f d e additions) :
    e.interfaces = d.interfaces ++ additions.map (·.clause) := by
  rw [h.declaration, Declaration.interfaces, Declaration.interfaces, List.append_assoc]

theorem Extended.outline {store : Store} {catalog : Catalog} {f : SourceFile}
    {d e : Declaration} {additions : List Addition}
    (h : Extended store catalog f d e additions) : e.outline = d.outline := by
  rw [h.declaration, Declaration.outline_eq, Declaration.outline_eq]

/-- A declaration that gains nothing stays as it is. -/
theorem Extended.eq_of_nil {store : Store} {catalog : Catalog} {f : SourceFile}
    {d e : Declaration} {additions : List Addition}
    (h : Extended store catalog f d e additions) (hnone : additions = []) : e = d := by
  rw [h.declaration, hnone, List.map_nil, List.append_nil]
  cases d
  rfl

/-- A declaration without added interfaces did not gain any. -/
theorem Extended.nil_of_added {store : Store} {catalog : Catalog} {f : SourceFile}
    {d e : Declaration} {additions : List Addition}
    (h : Extended store catalog f d e additions) (hadded : e.added = []) : additions = [] := by
  rw [h.declaration] at hadded
  exact List.map_eq_nil_iff.mp (List.append_eq_nil_iff.mp hadded).2

theorem added_of_not_anyModified {ds : List Declaration}
    (h : Declaration.anyModified ds = false) : ∀ d ∈ ds, d.added = [] := by
  induction ds with
  | nil => simp
  | cons d ds ih =>
    rw [Declaration.anyModified, Bool.or_eq_false_iff] at h
    rw [List.forall_mem_cons]
    refine ⟨?_, ih h.2⟩
    have hd := h.1
    cases d
    rw [Declaration.isModified, Bool.or_eq_false_iff, Bool.not_eq_false',
      List.isEmpty_iff] at hd
    exact hd.1

section File

variable {store : Store} {catalog : Catalog} {pass : Nat} {f : SourceFile}
  {r : SourceFile × List Addition}

theorem file?_eq_some : file? store catalog pass f = some r ↔ ∃ results,
    List.Forall₂ (fun d result => declaration? store catalog pass f d = some result) f.types results
      ∧ r = ({ f with types := results.map (·.1) }, results.flatMap (·.2)) := by
  unfold file?
  simp only [Option.bind_eq_bind, Option.bind_eq_some_iff, mapM_eq_some_iff, Option.pure_def,
    Option.some.injEq, eq_comm (a := r)]

theorem file?_of_forall (results : Declaration → Declaration × List Addition)
    (h : ∀ d ∈ f.types, declaration? store catalog pass f d = some (results d)) :
    file? store catalog pass f = some ({ f with types := f.types.map fun d => (results d).1 },
      f.types.flatMap fun d => (results d).2) := by
  refine file?_eq_some.mpr ⟨f.types.map results, ?_, ?_⟩
  · rw [List.forall₂_map_right_iff, List.forall₂_same]
    exact h
  · rw [List.map_map, List.flatMap_map]
    rfl

/-- Each declaration has become what comes of it. -/
theorem types_of_file? (h : file? store catalog pass f = some r) :
    List.Forall₂ (fun d e => ∃ additions, declaration? store catalog pass f d = some (e, additions))
      f.types r.1.types := by
  obtain ⟨results, hresults, rfl⟩ := file?_eq_some.mp h
  exact List.forall₂_map_right_iff.mpr (hresults.imp fun d result hd => ⟨result.2, hd⟩)

theorem mem_types_of_file? (h : file? store catalog pass f = some r) {d : Declaration}
    (hd : d ∈ f.types) {result : Declaration × List Addition}
    (hresult : declaration? store catalog pass f d = some result) : result.1 ∈ r.1.types := by
  obtain ⟨e, he, additions, hde⟩ := exists_right_of_mem (types_of_file? h) hd
  rw [hresult, Option.some.injEq] at hde
  rwa [hde]

/-- A pass leaves the outline of a file as it is. -/
theorem sameOutline_of_file? (h : file? store catalog pass f = some r) :
    SourceFile.SameOutline f r.1 := by
  have houtline : r.1.types.map Declaration.outline = f.types.map Declaration.outline :=
    map_eq_of_forall₂ (types_of_file? h) fun d e hde => by
      obtain ⟨additions, hd⟩ := hde
      exact (extended_of_declaration? hd).outline
  obtain ⟨results, -, rfl⟩ := file?_eq_some.mp h
  exact ⟨rfl, rfl, rfl, houtline⟩

/-- A file of declarations that get nothing stays as it is. -/
theorem eq_of_no_additions (h : file? store catalog pass f = some r)
    (hnone : ∀ d ∈ f.types, ∀ result, declaration? store catalog pass f d = some result →
      result.2 = []) : r.1 = f := by
  have htypes : r.1.types.map id = f.types.map id :=
    map_eq_of_forall₂ ((List.forall₂_and_left ..).mpr ⟨fun d hd => hd, types_of_file? h⟩)
      fun d e hde => by
        obtain ⟨hmem, additions, hd⟩ := hde
        exact (extended_of_declaration? hd).eq_of_nil (hnone d hmem _ hd)
  rw [List.map_id, List.map_id] at htypes
  obtain ⟨results, -, rfl⟩ := file?_eq_some.mp h
  exact congrArg (fun types => { f with types }) htypes

/-- A file that is not to be saved is the file that was read. -/
theorem eq_of_not_isModified (h : file? store catalog pass f = some r)
    (hmodified : r.1.isModified = false) : r.1 = f := by
  have hadded := added_of_not_anyModified hmodified
  refine eq_of_no_additions h fun d hd result hresult => ?_
  obtain ⟨e, he, additions, hde⟩ := exists_right_of_mem (types_of_file? h) hd
  rw [hde, Option.some.injEq] at hresult
  subst hresult
  exact (extended_of_declaration? hde).nil_of_added (hadded e he)

end File

end Retrofit

end Conformance
