import Conformance.Proofs.Rereading

/-!
# Source files in any order

A declaration is resolved while not all of its neighbours have a definition yet, so what it comes
to could depend on what was read before it. It does not: to resolve a name is to ask which names
are known (`definitions_congr`), and those are registered for all files before the first
declaration is looked at. Where every name is declared once, nothing takes the place of anything
else, and the files can be loaded in any order (`withSources_perm`).

The catalog of interfaces needs one more step. It goes through the interface files in their order
and keeps the first interface of each name, but a name then comes from one file only, and sorting
forgets in which order the entries came (`catalog_perm`).
-/

namespace Conformance

open Java

namespace Java

/-! ## Declared names -/

namespace Declaration

mutual

/-- The canonical names of a declaration and of the types nested in it. -/
def canonicalNames (name : String) : Declaration → List String
  | { members, .. } => name :: memberNames name members

/-- The canonical names of the members of a type. -/
def memberNames (outer : String) : List Declaration → List String
  | [] => []
  | d :: others => d.canonicalNames (memberName outer d.name) ++ memberNames outer others

end

mutual

theorem placeholders_names (name : String) :
    (d : Declaration) → (d.placeholders name).map (·.name) = d.canonicalNames name
  | { members, .. } => by
    simp only [placeholders, canonicalNames, List.map_cons, memberPlaceholders_names name members]

theorem memberPlaceholders_names (outer : String) : (ds : List Declaration) →
    (memberPlaceholders outer ds).map (·.name) = memberNames outer ds
  | [] => rfl
  | d :: ds => by
    simp only [memberPlaceholders, memberNames, List.map_append, placeholders_names _ d,
      memberPlaceholders_names outer ds]

end

theorem mem_canonicalNames (name : String) (d : Declaration) : name ∈ d.canonicalNames name := by
  cases d
  exact List.mem_cons_self ..

end Declaration

namespace SourceFile

/-- The canonical names of all types that a file declares, nested ones included. -/
def declaredNames (f : SourceFile) : List String :=
  f.types.flatMap fun d => d.canonicalNames (f.qualify d.name)

theorem placeholders_names (f : SourceFile) :
    f.placeholders.map (·.name) = f.declaredNames := by
  rw [placeholders, declaredNames, List.map_flatMap]
  exact List.flatMap_congr fun d _ => d.placeholders_names _

theorem flatMap_placeholders_names (files : List SourceFile) :
    (files.flatMap placeholders).map (·.name) = files.flatMap declaredNames := by
  rw [List.map_flatMap]
  exact List.flatMap_congr fun f _ => f.placeholders_names

/-- A file gives one definition for each name that it declares. -/
theorem definitions_names (f : SourceFile) (store : Store) :
    (f.definitions store).map (·.name) = f.declaredNames := by
  have := flatMap_definitions_names [f] store
  rwa [flatMap_placeholders_names, List.flatMap_singleton, List.flatMap_singleton] at this

end SourceFile

/-! ## What a definition depends on -/

namespace Scope

/-- A written name means the same in both scopes, whether it is known or guessed. -/
structure Agrees (s s' : Scope) : Prop where
  known : ∀ c written, s'.resolve? c written = s.resolve? c written
  guessed : ∀ written, s'.guess written = s.guess written

variable {s s' : Scope}

mutual

theorem Agrees.typeOf (h : Agrees s s') (c : Context) :
    (t : WrittenType) → s'.typeOf c t = s.typeOf c t
  | .void => rfl
  | .primitive _ => rfl
  | .named name arguments => by
    rw [Scope.typeOf, Scope.typeOf, h.known, h.guessed, h.typesOf c arguments]
  | .array element => by rw [Scope.typeOf, Scope.typeOf, h.typeOf c element]
  | .wildcard => rfl
  | .wildcardExtends bound => by rw [Scope.typeOf, Scope.typeOf, h.typeOf c bound]
  | .wildcardSuper bound => by rw [Scope.typeOf, Scope.typeOf, h.typeOf c bound]
  | .unknown _ => rfl

theorem Agrees.typesOf (h : Agrees s s') (c : Context) :
    (ts : List WrittenType) → s'.typesOf c ts = s.typesOf c ts
  | [] => rfl
  | t :: ts => by rw [Scope.typesOf, Scope.typesOf, h.typeOf c t, h.typesOf c ts]

end

theorem Agrees.typeParams (h : Agrees s s') (c : Context) (params : List WrittenTypeParam) :
    s'.typeParams c params = s.typeParams c params := by
  unfold Scope.typeParams
  simp only [h.typesOf]

theorem Agrees.define (h : Agrees s s') (c : Context) (m : WrittenMethod) :
    m.define s' c = m.define s c := by
  unfold WrittenMethod.define
  simp only [h.typeParams, h.typesOf, h.typeOf]

theorem Agrees.superTypeOf (h : Agrees s s') (c : Context) (name : String) (kind : ClassKind)
    (written : Option WrittenType) :
    Java.superTypeOf s' c name kind written = Java.superTypeOf s c name kind written := by
  cases kind with
  | plainClass => rw [Java.superTypeOf, Java.superTypeOf, funext (h.typeOf c)]
  | _ => rfl

/-- Files see the same in two stores that know the same names. -/
theorem agrees_scope {store store' : Store} (f : SourceFile)
    (h : ∀ name, store'.contains name = store.contains name) :
    Agrees (f.scope store) (f.scope store') :=
  ⟨fun c written => resolve?_congr h c written, fun _ => rfl⟩

end Scope

namespace Declaration

mutual

theorem definitions_congr {s s' : Scope} (h : s.Agrees s') (name : String) (around : List String) :
    (d : Declaration) → d.definitions s' name around = d.definitions s name around
  | { members, .. } => by
    simp only [definitions, h.typeParams, h.superTypeOf, h.typesOf, h.define,
      memberDefinitions_congr h name around members]

theorem memberDefinitions_congr {s s' : Scope} (h : s.Agrees s') (outer : String)
    (around : List String) : (ds : List Declaration) →
      memberDefinitions s' outer around ds = memberDefinitions s outer around ds
  | [] => rfl
  | d :: ds => by
    rw [memberDefinitions, memberDefinitions, definitions_congr h _ _ d,
      memberDefinitions_congr h outer around ds]

end

end Declaration

/-- **The definitions in a file depend on nothing but which names are known.** -/
theorem SourceFile.definitions_congr {store store' : Store} (f : SourceFile)
    (h : ∀ name, store'.contains name = store.contains name) :
    f.definitions store' = f.definitions store := by
  unfold definitions
  exact List.flatMap_congr fun d _ => d.definitions_congr (Scope.agrees_scope f h) _ _

end Java

/-! ## Stores -/

namespace Store

theorem insert_comm (store : Store) {d e : ClassDef} (h : d.name ≠ e.name) :
    (store.insert d).insert e = (store.insert e).insert d := by
  refine ext_find? fun name => ?_
  simp only [find?_insert]
  by_cases hd : d.name = name
  · rw [if_pos hd, if_pos hd, if_neg fun he => h (hd.trans he.symm)]
  · rw [if_neg hd, if_neg hd]

/-- Definitions of different names can be added in any order. -/
theorem insertAll_perm (store : Store) {defs defs' : List ClassDef} (h : defs.Perm defs')
    (hnames : (defs.map (·.name)).Nodup) : store.insertAll defs' = store.insertAll defs := by
  unfold insertAll
  refine (h.foldl_eq' (fun d hd e he known => ?_) store).symm
  by_cases hname : d.name = e.name
  · rw [List.inj_on_of_nodup_map hnames hd he hname]
  · exact known.insert_comm hname

theorem find?_insertAll_of_not_mem (store : Store) {defs : List ClassDef} {name : String}
    (h : name ∉ defs.map (·.name)) : (store.insertAll defs).find? name = store.find? name := by
  have hnone : defs.reverse.find? (fun d => decide (d.name = name)) = none := by
    rw [List.find?_eq_none]
    intro d hd heq
    rw [decide_eq_true_iff] at heq
    exact h (heq ▸ List.mem_map_of_mem (List.mem_reverse.mp hd))
  rw [find?_insertAll_eq, hnone, Option.none_or]

variable (base : Store) {files files' : List SourceFile}

/-- The definitions are those that the files give when all of them are loaded. -/
theorem withSources_eq (files : List SourceFile) : base.withSources files
    = (base.insertAll (files.flatMap SourceFile.placeholders)).insertAll
        (files.flatMap (·.definitions (base.withSources files))) := by
  have hdefinitions : files.flatMap (·.definitions (base.withSources files))
      = files.flatMap (·.definitions (base.insertAll (files.flatMap SourceFile.placeholders))) :=
    List.flatMap_congr fun f _ => f.definitions_congr (contains_withSources base files)
  rw [hdefinitions]
  rfl

theorem withSources_perm (hnames : (files.flatMap SourceFile.declaredNames).Nodup)
    (h : files.Perm files') : base.withSources files' = base.withSources files := by
  have hknown : base.insertAll (files'.flatMap SourceFile.placeholders)
      = base.insertAll (files.flatMap SourceFile.placeholders) :=
    base.insertAll_perm (h.flatMap_right _)
      (by rwa [SourceFile.flatMap_placeholders_names])
  unfold withSources
  rw [hknown]
  refine insertAll_perm _ (h.flatMap_right _) ?_
  rwa [SourceFile.flatMap_definitions_names, SourceFile.flatMap_placeholders_names]

theorem find?_withSources_of_mem (hnames : (files.flatMap SourceFile.declaredNames).Nodup)
    {f : SourceFile} (hf : f ∈ files) {d : ClassDef}
    (hd : d ∈ f.definitions (base.withSources files)) :
    (base.withSources files).find? d.name = some d := by
  have hmem : d ∈ files.flatMap (·.definitions (base.withSources files)) :=
    List.mem_flatMap.mpr ⟨f, hf, hd⟩
  rw [withSources_eq]
  refine find?_insertAll_of_count hmem (List.count_eq_one_of_mem ?_ (List.mem_map_of_mem hmem))
  rwa [SourceFile.flatMap_definitions_names, SourceFile.flatMap_placeholders_names]

theorem find?_withSources_of_not_mem {name : String}
    (h : name ∉ files.flatMap SourceFile.declaredNames) :
    (base.withSources files).find? name = base.find? name := by
  rw [withSources_eq, find?_insertAll_of_not_mem, find?_insertAll_of_not_mem]
  · rwa [SourceFile.flatMap_placeholders_names]
  · rwa [SourceFile.flatMap_definitions_names, SourceFile.flatMap_placeholders_names]

end Store

/-! ## Catalogs -/

namespace Java.SourceFile

/-- The interfaces at the top of a file, as a catalog names them. -/
def interfaceEntries (f : SourceFile) : List (String × InterfaceOrigin) :=
  (f.types.filter (·.kind = .interface)).map fun d => (f.qualify d.name, .source f.path)

theorem declared_of_interfaceEntries {f : SourceFile} {a : String × InterfaceOrigin}
    (ha : a ∈ f.interfaceEntries) : a.1 ∈ f.declaredNames ∧ a.2 = .source f.path := by
  obtain ⟨d, hd, rfl⟩ := List.mem_map.mp ha
  exact ⟨List.mem_flatMap.mpr ⟨d, List.mem_of_mem_filter hd, d.mem_canonicalNames _⟩, rfl⟩

/-- Where every name is declared once, an interface comes from one file only. -/
theorem eq_of_interfaceEntries {files : List SourceFile}
    (hnames : (files.flatMap declaredNames).Nodup) {f g : SourceFile} (hf : f ∈ files)
    (hg : g ∈ files) {a b : String × InterfaceOrigin} (ha : a ∈ f.interfaceEntries)
    (hb : b ∈ g.interfaceEntries) (h : a.1 = b.1) : a = b := by
  obtain ⟨hdeclared, horigin⟩ := declared_of_interfaceEntries ha
  obtain ⟨hdeclared', horigin'⟩ := declared_of_interfaceEntries hb
  have hsame : f = g := by
    by_contra hne
    have : Std.Symm (Function.onFun List.Disjoint declaredNames) :=
      ⟨fun _ _ hdisjoint _ hg hf => hdisjoint hf hg⟩
    have hdisjoint := (List.nodup_flatMap.mp hnames).2.forall hf hg hne
    exact hdisjoint hdeclared (h ▸ hdeclared')
  exact Prod.ext h (by rw [horigin, horigin', hsame])

end Java.SourceFile

theorem InterfaceDescriptor.name_eq_of_comesBefore {i j : InterfaceDescriptor}
    (hij : i.comesBefore j = true) (hji : j.comesBefore i = true) : i.name = j.name := by
  rw [comesBefore_iff] at hij hji
  rcases hij with hij | ⟨hlength, hij⟩ <;> rcases hji with hji | ⟨hlength', hji⟩
  · omega
  · omega
  · omega
  · exact String.le_antisymm hij hji

/-- Descriptions with different names have one order only. -/
theorem Catalog.ofList_perm {is js : List InterfaceDescriptor}
    (hunique : ∀ i ∈ is, ∀ j ∈ is, i.name = j.name → i = j) (h : is.Perm js) :
    Catalog.ofList js = .ofList is := by
  rw [ofList, ofList]
  refine congrArg Catalog.mk (List.Perm.eq_of_pairwise (fun i j hi hj hij hji => ?_)
    (pairwise_ofList js) (pairwise_ofList is) ?_)
  · have hi : i ∈ is := h.mem_iff.mpr (mem_ofList.mp hi)
    exact hunique i hi j (mem_ofList.mp hj) (InterfaceDescriptor.name_eq_of_comesBefore hij hji)
  · exact (List.mergeSort_perm ..).trans (h.symm.trans (List.mergeSort_perm ..).symm)

namespace Snapshot

variable {s s' : Snapshot} (packages : List String)

/-- The names of interfaces, each with the first place where it was found. -/
def firstNames (s : Snapshot) : List (String × InterfaceOrigin) :=
  keepFirst (fun a b => a.1 = b.1) (s.interfaceNames packages)

/-- What a catalog is made from. -/
def catalogEntries (s : Snapshot) : List InterfaceDescriptor :=
  (s.firstNames packages).filterMap fun entry => s.store.describe entry.1 entry.2

theorem catalog_eq : s.catalog packages = .ofList (s.catalogEntries packages) := rfl

theorem interfaceNames_split : s.interfaceNames packages
    = (s.index.interfacesIn packages).map
        (fun stub => (canonicalName stub.internalName, InterfaceOrigin.classpath))
      ++ (s.filesAt s.interfaceSources).flatMap SourceFile.interfaceEntries := rfl

theorem nodup_firstNames : ((s.firstNames packages).map Prod.fst).Nodup :=
  List.pairwise_map.mpr ((pairwise_keepFirst ..).imp of_decide_eq_false)

/-- No two entries have the same name. -/
theorem eq_of_catalogEntries {i j : InterfaceDescriptor} (hi : i ∈ s.catalogEntries packages)
    (hj : j ∈ s.catalogEntries packages) (hname : i.name = j.name) : i = j := by
  obtain ⟨a, ha, hdescribe⟩ := List.mem_filterMap.mp hi
  obtain ⟨b, hb, hdescribe'⟩ := List.mem_filterMap.mp hj
  rw [(Store.found_of_describe hdescribe).1, (Store.found_of_describe hdescribe').1] at hname
  have hab : a = b := List.inj_on_of_nodup_map (nodup_firstNames packages) ha hb hname
  subst hab
  exact Option.some.inj (hdescribe.symm.trans hdescribe')

/-- The order of the files may decide where an interface is found first, but not if each is found
in one file only. -/
theorem firstNames_perm (hindex : s'.index = s.index)
    (hnames : (s.files.flatMap SourceFile.declaredNames).Nodup)
    (hfiles : (s.filesAt s.interfaceSources).Perm (s'.filesAt s'.interfaceSources)) :
    (s.firstNames packages).Perm (s'.firstNames packages) := by
  have honly : ∀ a ∈ (s.filesAt s.interfaceSources).flatMap SourceFile.interfaceEntries,
      ∀ b ∈ (s.filesAt s.interfaceSources).flatMap SourceFile.interfaceEntries,
      decide (a.1 = b.1) = true → a = b := by
    intro a ha b hb hab
    obtain ⟨f, hf, ha⟩ := List.mem_flatMap.mp ha
    obtain ⟨g, hg, hb⟩ := List.mem_flatMap.mp hb
    obtain ⟨n, -, hn⟩ := List.mem_filterMap.mp hf
    obtain ⟨m, -, hm⟩ := List.mem_filterMap.mp hg
    exact SourceFile.eq_of_interfaceEntries hnames (List.mem_of_getElem? hn)
      (List.mem_of_getElem? hm) ha hb (of_decide_eq_true hab)
  rw [firstNames, firstNames, interfaceNames_split, interfaceNames_split, hindex, keepFirst_append,
    keepFirst_append]
  refine List.Perm.append_left _ (List.Perm.filter _ ?_)
  exact keepFirst_perm (fun a => decide_eq_true rfl) honly (hfiles.flatMap_right _)

/-- A catalog does not depend on the order of the interface files. -/
theorem catalog_perm (hindex : s'.index = s.index) (hstore : s'.store = s.store)
    (hnames : (s.files.flatMap SourceFile.declaredNames).Nodup)
    (hfiles : (s.filesAt s.interfaceSources).Perm (s'.filesAt s'.interfaceSources)) :
    s'.catalog packages = s.catalog packages := by
  have hentries : (s.catalogEntries packages).Perm (s'.catalogEntries packages) := by
    rw [catalogEntries, catalogEntries, hstore]
    exact (firstNames_perm packages hindex hnames hfiles).filterMap _
  rw [catalog_eq, catalog_eq]
  exact Catalog.ofList_perm (fun i hi j hj => eq_of_catalogEntries packages hi hj) hentries

end Snapshot

/-- **Loading source files depends on no order, and changes nothing but what they declare.** Every
declared name comes to the definition that its file gives among all the others. -/
theorem sources_loaded (base : Store) {files : List SourceFile}
    (hnames : (files.flatMap SourceFile.declaredNames).Nodup) :
    (∀ files', files.Perm files' → base.withSources files' = base.withSources files)
    ∧ (∀ f ∈ files, (f.definitions (base.withSources files)).map (·.name) = f.declaredNames
        ∧ ∀ d ∈ f.definitions (base.withSources files),
          (base.withSources files).find? d.name = some d)
    ∧ (∀ name, name ∉ files.flatMap SourceFile.declaredNames →
        (base.withSources files).find? name = base.find? name)
    ∧ ∀ s s' : Snapshot, s.files = files → s.store = base.withSources s.files →
        files.Perm s'.files → s'.store = base.withSources s'.files → s'.index = s.index →
        (s.filesAt s.interfaceSources).Perm (s'.filesAt s'.interfaceSources) →
        ∀ packages, s'.catalog packages = s.catalog packages := by
  refine ⟨fun files' h => base.withSources_perm hnames h, fun f hf => ⟨f.definitions_names _, ?_⟩,
    fun name h => base.find?_withSources_of_not_mem h, ?_⟩
  · intro d hd
    exact base.find?_withSources_of_mem hnames hf hd
  · intro s s' hfiles hstore hperm hstore' hindex hinterfaces packages
    subst hfiles
    have hsame : s'.store = s.store := by
      rw [hstore, hstore', base.withSources_perm hnames hperm]
    exact Snapshot.catalog_perm packages hindex hsame hnames hinterfaces

/-! ## Two files that need each other -/

def homeMethod (type : WrittenType) : WrittenMethod where
  name := "home"
  typeParams := []
  params := []
  returnType := type
  isStatic := false
  isPrivate := false
  isAbstract := true
  isDefault := false

def interfaceDeclaration (name : String) (declared : List WrittenType)
    (methods : List WrittenMethod) (members : List Declaration) (anchor : ClauseAnchor) :
    Declaration where
  kind := .interface
  name := name
  typeParams := []
  superclass := none
  declared := declared
  added := []
  methods := methods
  members := members
  anchor := anchor

/-- An interface that extends one of the other file, with a member that the other file uses. -/
def personFile : SourceFile where
  path := "p/Person.java"
  text := "package p;\n\npublic interface Person extends Named \x7b\n    Address home();\n\n"
    ++ "    interface Address \x7b\n    \x7d\n\x7d\n"
  package? := some "p"
  imports := []
  types := [interfaceDeclaration "Person" [.named "Named" []] [homeMethod (.named "Address" [])]
    [interfaceDeclaration "Address" [] [] [] ⟨94, false⟩] ⟨49, true⟩]

def namedFile : SourceFile where
  path := "p/Named.java"
  text := "package p;\n\npublic interface Named \x7b\n    Person.Address home();\n\x7d\n"
  package? := some "p"
  imports := []
  types := [interfaceDeclaration "Named" [] [homeMethod (.named "Person.Address" [])] []
    ⟨34, false⟩]

theorem parse?_person : SourceFile.parse? personFile.path personFile.text = some personFile := by
  decide +kernel

theorem parse?_named : SourceFile.parse? namedFile.path namedFile.text = some namedFile := by
  decide +kernel

def interfaceSnapshot (files : List SourceFile) : Snapshot where
  index := .empty
  store := Store.coreLibrary.withSources files
  files := files
  project := []
  interfaceSources := [0, 1]
  failures := []

theorem person_and_named_loaded :
    SourceFile.parse? personFile.path personFile.text = some personFile
    ∧ SourceFile.parse? namedFile.path namedFile.text = some namedFile
    ∧ [personFile, namedFile].flatMap SourceFile.declaredNames
      = ["p.Person", "p.Person.Address", "p.Named"]
    ∧ Store.coreLibrary.withSources [namedFile, personFile]
      = Store.coreLibrary.withSources [personFile, namedFile]
    ∧ (Store.coreLibrary.withSources [personFile, namedFile]).find? "p.Named" = some
      { name := "p.Named", kind := .interface
        methods := [{ name := "home", params := [], returnType := .raw "p.Person.Address"
                      isAbstract := true }] }
    ∧ (Store.coreLibrary.withSources [personFile, namedFile]).find? "java.lang.Runnable"
      = Store.coreLibrary.find? "java.lang.Runnable"
    ∧ ∀ packages, (interfaceSnapshot [namedFile, personFile]).catalog packages
      = (interfaceSnapshot [personFile, namedFile]).catalog packages := by
  have hdeclared : [personFile, namedFile].flatMap SourceFile.declaredNames
      = ["p.Person", "p.Person.Address", "p.Named"] := by decide
  have hnodup : ([personFile, namedFile].flatMap SourceFile.declaredNames).Nodup := by
    rw [hdeclared]
    decide
  obtain ⟨horder, hdefinitions, hframe, hcatalog⟩ := sources_loaded Store.coreLibrary hnodup
  have hswap : [personFile, namedFile].Perm [namedFile, personFile] := .swap ..
  refine ⟨parse?_person, parse?_named, hdeclared, horder _ hswap, ?_, hframe _ (by rw [hdeclared]; decide), ?_⟩
  · have hdefined : { name := "p.Named", kind := .interface
                      methods := [{ name := "home", params := [], isAbstract := true
                                    returnType := .raw "p.Person.Address" }] }
        ∈ namedFile.definitions (Store.coreLibrary.withSources [personFile, namedFile]) := by
      decide
    exact (hdefinitions namedFile (by simp)).2 _ hdefined
  · exact hcatalog (interfaceSnapshot [personFile, namedFile])
      (interfaceSnapshot [namedFile, personFile]) rfl rfl hswap rfl rfl hswap

end Conformance
