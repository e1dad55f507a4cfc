import Conformance.Proofs.Saving

/-!
# What a run does not change

A pass adds to the lists of interfaces of some declarations. All else that a file says is its
outline: the package and the imports, and the declarations without those lists. Which names a
store knows, and which of them are interfaces, is a matter of the outlines alone
(`sameKinds_withSources`), and so are the classes that can get interfaces (`targets_eq`), the
interfaces that they are compared with (`interfaceKeys_eq`), and what a written name means
(`SameOutline.resolve?_eq`).
-/

namespace Conformance

namespace Java

namespace Declaration

/-- A declaration without its list of interfaces. -/
def outline (d : Declaration) : Declaration := { d.settled with declared := [] }

theorem settled_eq (d : Declaration) : d.settled
    = { d with declared := d.declared ++ d.added, added := []
               members := settledAll d.members, anchor := ⟨0, false⟩ } := by
  cases d
  rfl

theorem outline_eq (d : Declaration) : d.outline
    = { d with declared := [], added := [], members := settledAll d.members
               anchor := ⟨0, false⟩ } := by
  rw [outline, settled_eq]

theorem outline_of_settled {d e : Declaration} (h : d.settled = e.settled) :
    d.outline = e.outline := by
  rw [outline, outline, h]

theorem interfaces_of_settled {d e : Declaration} (h : d.settled = e.settled) :
    d.interfaces = e.interfaces := by
  rw [settled_eq, settled_eq] at h
  exact congrArg declared h

theorem kind_of_outline {d e : Declaration} (h : d.outline = e.outline) : d.kind = e.kind := by
  rw [outline_eq, outline_eq] at h
  have := congrArg kind h
  exact this

theorem name_of_outline {d e : Declaration} (h : d.outline = e.outline) : d.name = e.name := by
  rw [outline_eq, outline_eq] at h
  have := congrArg name h
  exact this

theorem typeParams_of_outline {d e : Declaration} (h : d.outline = e.outline) :
    d.typeParams = e.typeParams := by
  rw [outline_eq, outline_eq] at h
  have := congrArg typeParams h
  exact this

/-! ## Names and kinds -/

mutual

theorem placeholders_settled (name : String) :
    (d : Declaration) → d.settled.placeholders name = d.placeholders name
  | { kind, members, .. } => by
    simp only [settled, placeholders, memberPlaceholders_settled name members]

theorem memberPlaceholders_settled (outer : String) : (ds : List Declaration) →
    memberPlaceholders outer (settledAll ds) = memberPlaceholders outer ds
  | [] => rfl
  | d :: ds => by
    have hname : d.settled.name = d.name := by rw [settled_eq]
    simp only [settledAll, memberPlaceholders, hname, placeholders_settled _ d,
      memberPlaceholders_settled outer ds]

end

theorem placeholders_eq (name : String) (d : Declaration) :
    d.placeholders name = { name, kind := d.kind } :: memberPlaceholders name d.members := by
  cases d
  rfl

/-- The names and kinds of nested classes do not depend on lists of interfaces. -/
theorem placeholders_of_outline {d e : Declaration} (h : d.outline = e.outline) (name : String) :
    d.placeholders name = e.placeholders name := by
  have hmembers : settledAll d.members = settledAll e.members := by
    rw [outline_eq, outline_eq] at h
    have := congrArg members h
    exact this
  rw [placeholders_eq, placeholders_eq, kind_of_outline h, ← memberPlaceholders_settled,
    hmembers, memberPlaceholders_settled]

mutual

/-- Definitions have the names and kinds of the empty ones. -/
theorem definitions_kinds (s : Scope) (name : String) (around : List String) :
    (d : Declaration) → (d.definitions s name around).map (fun c => (c.name, c.kind))
      = (d.placeholders name).map fun c => (c.name, c.kind)
  | { members, .. } => by
    simp only [definitions, placeholders, List.map_cons,
      memberDefinitions_kinds s name around members]

theorem memberDefinitions_kinds (s : Scope) (outer : String) (around : List String) :
    (ds : List Declaration) →
      (memberDefinitions s outer around ds).map (fun c => (c.name, c.kind))
        = (memberPlaceholders outer ds).map fun c => (c.name, c.kind)
  | [] => rfl
  | d :: ds => by
    simp only [memberDefinitions, memberPlaceholders, List.map_append,
      definitions_kinds s _ _ d, memberDefinitions_kinds s outer around ds]

end

end Declaration

namespace SourceFile

/-- Two files at the same path differ in lists of interfaces at most. -/
structure SameOutline (f g : SourceFile) : Prop where
  path : g.path = f.path
  package? : g.package? = f.package?
  imports : g.imports = f.imports
  types : g.types.map Declaration.outline = f.types.map Declaration.outline

variable {f g : SourceFile}

theorem SameOutline.trans {k : SourceFile} (h : SameOutline f g) (h' : SameOutline g k) :
    SameOutline f k :=
  ⟨h'.path.trans h.path, h'.package?.trans h.package?, h'.imports.trans h.imports,
    h'.types.trans h.types⟩

theorem SaysSame.sameOutline (h : SaysSame f g) : SameOutline f g := by
  refine ⟨h.path, h.package?, h.imports, ?_⟩
  have := congrArg (List.map fun d : Declaration => { d with declared := [] }) h.types
  rw [List.map_map, List.map_map] at this
  exact this

theorem SameOutline.qualify (h : SameOutline f g) (name : String) :
    g.qualify name = f.qualify name := by
  rw [SourceFile.qualify, SourceFile.qualify, packageName, packageName, h.package?]

/-- What depends on outlines of declarations only is the same in both files. -/
theorem SameOutline.map_types {α : Type} {F : Declaration → α}
    (hF : ∀ d e : Declaration, d.outline = e.outline → F d = F e) (h : SameOutline f g) :
    g.types.map F = f.types.map F :=
  map_eq_of_forall₂ (forall₂_of_map_eq h.types) fun d e hde => hF e d hde

theorem SameOutline.placeholders (h : SameOutline f g) : g.placeholders = f.placeholders := by
  have := h.map_types (F := fun d => d.placeholders (f.qualify d.name)) fun d e hde => by
    rw [Declaration.name_of_outline hde, Declaration.placeholders_of_outline hde]
  rw [SourceFile.placeholders, SourceFile.placeholders, List.flatMap_def, List.flatMap_def, ← this]
  simp only [h.qualify]

/-- The declarations of a kind have the same names in both files. -/
theorem SameOutline.declared {α : Type} (h : SameOutline f g) (kind : ClassKind)
    (F : String → α) :
    ((g.types.filter (·.kind = kind)).map fun d => F d.name)
      = (f.types.filter (·.kind = kind)).map fun d => F d.name := by
  have hkind : ∀ d e : Declaration, e.outline = d.outline →
      (decide (d.kind = kind) = true ↔ decide (e.kind = kind) = true) := by
    intro d e hde
    rw [Declaration.kind_of_outline hde]
  have hfilter := List.rel_filter (R := fun d e : Declaration => e.outline = d.outline)
    (fun d e hde => hkind d e hde) (forall₂_of_map_eq h.types)
  exact map_eq_of_forall₂ hfilter fun d e hde => by rw [Declaration.name_of_outline hde]

theorem definitions_kinds (f : SourceFile) (store : Store) :
    (f.definitions store).map (fun c => (c.name, c.kind))
      = f.placeholders.map fun c => (c.name, c.kind) := by
  rw [definitions, SourceFile.placeholders, List.map_flatMap, List.map_flatMap]
  exact List.flatMap_congr fun d _ => d.definitions_kinds _ _ _

theorem flatMap_definitions_kinds (files : List SourceFile) (store : Store) :
    (files.flatMap (·.definitions store)).map (fun c => (c.name, c.kind))
      = (files.flatMap SourceFile.placeholders).map fun c => (c.name, c.kind) := by
  rw [List.map_flatMap, List.map_flatMap]
  exact List.flatMap_congr fun f _ => f.definitions_kinds store

theorem flatMap_definitions_names (files : List SourceFile) (store : Store) :
    (files.flatMap (·.definitions store)).map (·.name)
      = (files.flatMap SourceFile.placeholders).map (·.name) := by
  have := congrArg (List.map Prod.fst) (flatMap_definitions_kinds files store)
  rwa [List.map_map, List.map_map] at this

end SourceFile

end Java

open Java

/-! ## Stores -/

namespace Store

/-- Two stores know the same names, each for the same kind of class. -/
def SameKinds (store store' : Store) : Prop :=
  ∀ name, (store'.find? name).map (·.kind) = (store.find? name).map (·.kind)

variable {store store' : Store}

theorem SameKinds.contains_eq (h : SameKinds store store') (name : String) :
    store'.contains name = store.contains name := by
  have := congrArg Option.isSome (h name)
  rw [Option.isSome_map, Option.isSome_map] at this
  exact this

theorem sameKinds_insert (h : SameKinds store store') {d d' : ClassDef} (hname : d'.name = d.name)
    (hkind : d'.kind = d.kind) : SameKinds (store.insert d) (store'.insert d') := by
  intro name
  rw [find?_insert, find?_insert, hname]
  by_cases hd : d.name = name
  · rw [if_pos hd, if_pos hd, Option.map_some, Option.map_some, hkind]
  · rw [if_neg hd, if_neg hd]
    exact h name

theorem sameKinds_insertAll (h : SameKinds store store') {defs defs' : List ClassDef}
    (hdefs : List.Forall₂ (fun d d' => (d'.name, d'.kind) = (d.name, d.kind)) defs defs') :
    SameKinds (store.insertAll defs) (store'.insertAll defs') := by
  induction hdefs generalizing store store' with
  | nil => exact h
  | cons hd _ ih =>
    rw [Prod.mk.injEq] at hd
    exact ih (sameKinds_insert h hd.1 hd.2)

/-- **A store knows its names and kinds from the outlines of the files.** -/
theorem sameKinds_withSources (base : Store) {files files' : List SourceFile}
    (h : List.Forall₂ SourceFile.SameOutline files files') :
    SameKinds (base.withSources files) (base.withSources files') := by
  have hplaceholders : files'.flatMap SourceFile.placeholders
      = files.flatMap SourceFile.placeholders := by
    rw [List.flatMap_def, List.flatMap_def, map_eq_of_forall₂ h fun _ _ hfg => hfg.placeholders]
  unfold withSources
  rw [hplaceholders]
  refine sameKinds_insertAll (fun _ => rfl) (forall₂_of_map_eq ?_)
  rw [SourceFile.flatMap_definitions_kinds, SourceFile.flatMap_definitions_kinds, hplaceholders]

end Store

namespace Snapshot

theorem kind_storeOf (index : ClasspathIndex) {files files' : List SourceFile}
    (h : List.Forall₂ SourceFile.SameOutline files files') :
    Store.SameKinds (storeOf index files) (storeOf index files') :=
  Store.sameKinds_withSources _ h

/-! ## Snapshots -/

/-- Two snapshots differ in lists of interfaces at most. -/
structure SameOutline (s s' : Snapshot) : Prop where
  index : s'.index = s.index
  project : s'.project = s.project
  interfaceSources : s'.interfaceSources = s.interfaceSources
  files : List.Forall₂ SourceFile.SameOutline s.files s'.files
  kinds : Store.SameKinds s.store s'.store

variable {s s' : Snapshot}

theorem SameOutline.refl (s : Snapshot) : SameOutline s s :=
  ⟨rfl, rfl, rfl, List.forall₂_same.mpr fun f _ => (SourceFile.SaysSame.refl f).sameOutline,
    fun _ => rfl⟩

theorem SameOutline.trans {s'' : Snapshot} (h : SameOutline s s') (h' : SameOutline s' s'') :
    SameOutline s s'' := by
  refine ⟨h'.index.trans h.index, h'.project.trans h.project,
    h'.interfaceSources.trans h.interfaceSources, ?_, fun name => (h'.kinds name).trans (h.kinds name)⟩
  exact forall₂_trans (fun _ _ _ hfg hgk => hfg.trans hgk) h.files h'.files

theorem SameOutline.filesAt (h : SameOutline s s') (positions : List Nat) :
    List.Forall₂ SourceFile.SameOutline (s.filesAt positions) (s'.filesAt positions) := by
  unfold Snapshot.filesAt
  induction positions with
  | nil => exact .nil
  | cons position positions ih =>
    cases hf : s.files[position]? with
    | none =>
      have hf' : s'.files[position]? = none := by
        rw [List.getElem?_eq_none_iff] at hf ⊢
        rw [← h.files.length_eq]
        exact hf
      rw [List.filterMap_cons_none hf, List.filterMap_cons_none hf']
      exact ih
    | some f =>
      obtain ⟨f', hf', hff'⟩ := exists_right_of_getElem? h.files hf
      rw [List.filterMap_cons_some hf, List.filterMap_cons_some hf']
      exact .cons hff' ih

theorem targets_eq (h : SameOutline s s') : s'.targets = s.targets := by
  rw [targets, targets, h.project, List.flatMap_def, List.flatMap_def]
  refine congrArg List.flatten (map_eq_of_forall₂ (h.filesAt s.project) fun f g hfg => ?_)
  simp only [hfg.qualify]
  exact hfg.declared .plainClass f.qualify

theorem interfaceNames_eq (h : SameOutline s s') (packages : List String) :
    s'.interfaceNames packages = s.interfaceNames packages := by
  have hwritten : (s'.filesAt s'.interfaceSources).map (fun f =>
        (f.types.filter (·.kind = .interface)).map fun d =>
          (f.qualify d.name, InterfaceOrigin.source f.path))
      = (s.filesAt s.interfaceSources).map fun f =>
        (f.types.filter (·.kind = .interface)).map fun d =>
          (f.qualify d.name, InterfaceOrigin.source f.path) := by
    rw [h.interfaceSources]
    refine map_eq_of_forall₂ (h.filesAt s.interfaceSources) fun f g hfg => ?_
    simp only [hfg.qualify, hfg.path]
    exact hfg.declared .interface fun name => (f.qualify name, InterfaceOrigin.source f.path)
  unfold interfaceNames
  simp only [List.flatMap_def, hwritten, h.index]

/-! ## Catalogs -/

/-- The names of the interfaces that classes are compared with. -/
def interfaceKeys (s : Snapshot) (packages : List String) : List String :=
  ((keepFirst (fun a b => a.1 = b.1) (s.interfaceNames packages)).map Prod.fst).filter fun name =>
    (s.store.find? name).any (·.isInterface)

theorem interfaceKeys_eq (h : SameOutline s s') (packages : List String) :
    s'.interfaceKeys packages = s.interfaceKeys packages := by
  have hany : ∀ d : Option ClassDef,
      d.any (·.isInterface) = (d.map (·.kind)).any fun kind => decide (kind = .interface) := by
    intro d
    cases d <;> rfl
  unfold interfaceKeys
  rw [interfaceNames_eq h]
  refine List.filter_congr fun name _ => ?_
  rw [hany, hany, h.kinds name]

end Snapshot

/-- A described interface has the name that it was looked up under. -/
theorem Store.name_of_describe (store : Store) (name : String) (origin : InterfaceOrigin) :
    (store.describe name origin).map (·.name)
      = if (store.find? name).any (·.isInterface) then some name else none := by
  unfold Store.describe
  cases hd : store.find? name with
  | none => rfl
  | some d =>
    rw [Option.bind_eq_bind, Option.bind_some, Option.any_some]
    by_cases hi : d.isInterface = true
    · rw [if_pos hi, if_pos hi, Option.map_some, Store.name_of_find? hd]
    · rw [if_neg hi, if_neg hi, Option.map_none]

/-- A catalog has an interface for each of the names that stand for one. -/
theorem Snapshot.catalog_names (s : Snapshot) (packages : List String) :
    ((s.catalog packages).entries.map (·.name)).Perm (s.interfaceKeys packages) := by
  unfold Snapshot.catalog Catalog.ofList Snapshot.interfaceKeys
  refine ((List.mergeSort_perm _ _).map _).trans (List.Perm.of_eq ?_)
  generalize keepFirst _ _ = names
  rw [List.map_filterMap]
  induction names with
  | nil => rfl
  | cons entry names ih =>
    have hname := s.store.name_of_describe entry.1 entry.2
    rw [List.filterMap_cons, List.map_cons, List.filter_cons, ← ih]
    dsimp only
    rw [hname]
    by_cases hi : (s.store.find? entry.1).any (·.isInterface) = true
    · rw [if_pos hi, if_pos hi]
    · rw [if_neg hi, if_neg hi]

/-- Catalogs of two snapshots with the same outline are equally long. -/
theorem Snapshot.SameOutline.catalog_size {s s' : Snapshot} (h : SameOutline s s')
    (packages : List String) : (s'.catalog packages).size = (s.catalog packages).size := by
  have hsize : ∀ r : Snapshot, (r.catalog packages).size = (r.interfaceKeys packages).length := by
    intro r
    rw [Catalog.size, ← (r.catalog_names packages).length_eq, List.length_map]
  rw [hsize, hsize, interfaceKeys_eq h]

/-! ## Scopes -/

/-- **What a name means is known from outlines.** -/
theorem Java.SourceFile.SameOutline.resolve?_eq {f g : SourceFile} (h : SameOutline f g)
    {store store' : Store} (hkinds : Store.SameKinds store store') (c : Context)
    (written : String) : (g.scope store').resolve? c written = (f.scope store).resolve? c written := by
  have htop : (g.scope store').topLevel = (f.scope store).topLevel :=
    h.map_types fun d e hde => Declaration.name_of_outline hde
  have hpackage : (g.scope store').package = (f.scope store).package := by
    unfold SourceFile.scope SourceFile.packageName
    rw [h.package?]
  have himports : (g.scope store').imports = (f.scope store).imports := h.imports
  have hcontains : (g.scope store').store.contains = (f.scope store).store.contains :=
    funext hkinds.contains_eq
  unfold Scope.resolve? Scope.candidates Scope.singleImports Scope.qualify
  rw [htop, hpackage, himports, hcontains]

end Conformance
