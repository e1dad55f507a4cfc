import Conformance.ClassFile.Builder
import Conformance.Proofs.Loading
import Conformance.Proofs.SourceAccounts

/-!
# Where a catalog entry comes from

Two orders decide what a catalog says about a name. The list of candidates has the classpath before
the source files, and the first occurrence of a name gives its entry the origin. The definitions
are stored in the same order, and there the last one of a name counts (`find?_of_loaded`). So an
entry describes the last definition of its name, wherever that is from, and it describes what its
origin says exactly where the two are one, which is so where a name is found once
(`entry_describes`). A name that is found on the classpath and in a source file, or in two source
files, has an entry with the one origin and the methods of the other (`origins_not_described`).
-/

namespace Conformance

open Java

/-! ## The definition that counts -/

/-- The definition is in a list and no other one of its name comes after it. -/
def ClassDef.IsLastIn (d : ClassDef) (defs : List ClassDef) : Prop :=
  ∃ before after, defs = before ++ d :: after ∧ ∀ e ∈ after, e.name ≠ d.name

theorem find?_reverse_eq_some {defs : List ClassDef} {name : String} {d : ClassDef} :
    defs.reverse.find? (·.name = name) = some d ↔ d.name = name ∧ d.IsLastIn defs := by
  rw [List.find?_eq_some_iff_append]
  constructor
  · rintro ⟨hname, after, before, hreverse, hafter⟩
    rw [decide_eq_true_iff] at hname
    refine ⟨hname, before.reverse, after.reverse, ?_, fun e he => ?_⟩
    · rw [← List.reverse_reverse defs, hreverse, List.reverse_append, List.reverse_cons,
        List.append_assoc, List.singleton_append]
    · simpa [hname] using hafter e (List.mem_reverse.mp he)
  · rintro ⟨rfl, before, after, rfl, hafter⟩
    refine ⟨decide_eq_true rfl, after.reverse, before.reverse, ?_, fun e he => ?_⟩
    · rw [List.reverse_append, List.reverse_cons, List.append_assoc, List.singleton_append]
    · simpa using hafter e (List.mem_reverse.mp he)

/-- Of the definitions of a name only one is the last. -/
theorem ClassDef.IsLastIn.eq {defs : List ClassDef} {d e : ClassDef} (hd : d.IsLastIn defs)
    (he : e.IsLastIn defs) (hname : d.name = e.name) : d = e :=
  Option.some.inj <|
    (find?_reverse_eq_some.mpr ⟨hname, hd⟩).symm.trans (find?_reverse_eq_some.mpr ⟨rfl, he⟩)

/-- Where a name is defined, one of its definitions is the last. -/
theorem exists_isLastIn {defs : List ClassDef} {name : String} (h : ∃ e ∈ defs, e.name = name) :
    ∃ d : ClassDef, d.name = name ∧ d.IsLastIn defs := by
  obtain ⟨e, he, hname⟩ := h
  have hsome : (defs.reverse.find? (·.name = name)).isSome := by
    rw [List.find?_isSome]
    exact ⟨e, List.mem_reverse.mpr he, decide_eq_true hname⟩
  obtain ⟨d, hd⟩ := Option.isSome_iff_exists.mp hsome
  exact ⟨d, find?_reverse_eq_some.mp hd⟩

/-! ## Descriptions -/

/-- The interface has the type parameters of a definition, and its methods begin with those of the
definition itself. -/
structure InterfaceDescriptor.Describes (i : InterfaceDescriptor) (d : ClassDef) : Prop where
  name : i.name = d.name
  typeParams : i.typeParams = d.typeParamNames
  methods : keepFirst WantedMethod.sameSignature (d.wantedMethods fun _ => none) <+: i.methods

/-- What is described is the stored definition. -/
theorem Store.describes_of_describe {store : Store} {name : String} {origin : InterfaceOrigin}
    {i : InterfaceDescriptor} (hi : store.describe name origin = some i) :
    i.origin = origin ∧ ∃ d, store.find? name = some d ∧ d.isInterface = true ∧ i.Describes d := by
  obtain ⟨hname, d, hd, hinterface⟩ := found_of_describe hi
  rw [describe_eq_some hd hinterface, Option.some.injEq] at hi
  subst hi
  refine ⟨rfl, d, hd, hinterface, (name_of_find? hd).symm, rfl, ?_⟩
  rw [interfaceVisits_cons hd List.not_mem_nil, List.flatMap_cons, keepFirst_append]
  exact List.prefix_append ..

namespace Snapshot

variable {disk : Disk} {o : Options} {s : Snapshot} {packages : List String} {name : String}

/-! ## The definitions of a snapshot -/

/-- The definitions that a snapshot adds to the core library, in the order in which they are
stored: those of class files come before those of source files. -/
def definitions (s : Snapshot) : List ClassDef :=
  s.index.stubs.map ClassStub.toClassDef ++ s.files.flatMap (·.definitions s.store)

/-- **The last definition of a name counts**, and one of the core library only if there is no
other. -/
theorem find?_of_loaded (hstore : s.store = storeOf s.index s.files) (name : String) :
    s.store.find? name
      = (s.definitions.reverse.find? (·.name = name)).or (Store.coreLibrary.find? name) := by
  have hsources : s.store
      = ((Store.coreLibrary.insertAll (s.index.stubs.map ClassStub.toClassDef)).insertAll
          (s.files.flatMap SourceFile.placeholders)).insertAll
        (s.files.flatMap (·.definitions s.store)) := by
    have heq := Store.withSources_eq
      (Store.coreLibrary.insertAll (s.index.stubs.map ClassStub.toClassDef)) s.files
    rwa [← storeOf, ← hstore] at heq
  rw [definitions, List.reverse_append, List.find?_append, Option.or_assoc, hsources,
    Store.find?_insertAll_eq, Store.find?_insertAll_eq, Store.find?_insertAll_eq, ← hsources]
  cases hdefined : (s.files.flatMap (·.definitions s.store)).reverse.find? (·.name = name) with
  | some d => rw [Option.some_or, Option.some_or]
  | none =>
    -- what the files do not define they do not register
    have hplaceholders : (s.files.flatMap SourceFile.placeholders).reverse.find? (·.name = name)
        = none := by
      rw [List.find?_eq_none] at hdefined ⊢
      intro e he heq
      have hname : name ∈ (s.files.flatMap (·.definitions s.store)).map (·.name) := by
        rw [SourceFile.flatMap_definitions_names, ← of_decide_eq_true heq]
        exact List.mem_map_of_mem (List.mem_reverse.mp he)
      obtain ⟨d, hd, rfl⟩ := List.mem_map.mp hname
      exact hdefined d (List.mem_reverse.mpr hd) (decide_eq_true rfl)
    rw [hplaceholders, Option.none_or, Option.none_or]

/-! ## What an origin says -/

/-- A definition is what a catalog takes for a name from its origin: that of an interface in a
class file of one of the packages, or that of an interface at the top of the interface file at a
path. -/
def Says (disk : Disk) (s : Snapshot) (packages : List String) (name : String) :
    InterfaceOrigin → ClassDef → Prop
  | .classpath, d => d.name = name ∧ ∃ stub ∈ s.index.interfacesIn packages, d = stub.toClassDef
  | .source path, d => d.name = name ∧ ∃ f ∈ s.filesAt s.interfaceSources,
    f.path = path ∧ disk.fileAt? path = some f ∧ ∃ t ∈ f.types, t.kind = .interface
      ∧ ∃ members, t.definitions (f.scope s.store) (f.qualify t.name) [] = d :: members

/-- What is said of an interface in a file is among the definitions that the file gives. -/
theorem Says.exists_file {path : String} {d : ClassDef}
    (h : s.Says disk packages name (.source path) d) :
    ∃ f ∈ s.filesAt s.interfaceSources, f.path = path ∧ d ∈ f.definitions s.store := by
  obtain ⟨-, f, hf, hpath, -, t, ht, -, members, hdefinitions⟩ := h
  refine ⟨f, hf, hpath, List.mem_flatMap.mpr ⟨t, ht, ?_⟩⟩
  rw [hdefinitions]
  exact List.mem_cons_self ..

/-- What an origin says is among the definitions of the snapshot. -/
theorem Says.mem {origin : InterfaceOrigin} {d : ClassDef}
    (h : s.Says disk packages name origin d) : d.name = name ∧ d ∈ s.definitions := by
  cases origin with
  | classpath =>
    obtain ⟨hname, stub, hstub, rfl⟩ := h
    refine ⟨hname, List.mem_append_left _ (List.mem_map_of_mem ?_)⟩
    exact List.mem_of_mem_filter (List.mem_of_mem_filter hstub)
  | source path =>
    obtain ⟨f, hf, -, hd⟩ := h.exists_file
    obtain ⟨n, -, hn⟩ := List.mem_filterMap.mp hf
    refine ⟨h.1, List.mem_append_right _ (List.mem_flatMap.mpr ⟨f, ?_, hd⟩)⟩
    exact List.mem_of_getElem? hn

/-- Each candidate for the catalog has a definition where it comes from. -/
theorem exists_said (hproper : disk.Proper) (h : load disk o = .ok s) {origin : InterfaceOrigin}
    (hmem : (name, origin) ∈ s.interfaceNames packages) :
    ∃ d, s.Says disk packages name origin d := by
  rw [interfaceNames_split, List.mem_append] at hmem
  rcases hmem with hmem | hmem
  · obtain ⟨stub, hstub, heq⟩ := List.mem_map.mp hmem
    cases heq
    exact ⟨stub.toClassDef, rfl, stub, hstub, rfl⟩
  · obtain ⟨f, hf, hmem⟩ := List.mem_flatMap.mp hmem
    obtain ⟨t, ht, heq⟩ := List.mem_map.mp hmem
    cases heq
    obtain ⟨n, -, hn⟩ := List.mem_filterMap.mp hf
    have hfile := ((load_files hproper h).1 f (List.mem_of_getElem? hn)).1
    obtain ⟨htypes, hkind⟩ := List.mem_filter.mp ht
    cases hdefinitions : t.definitions (f.scope s.store) (f.qualify t.name) [] with
    | nil => cases t; cases hdefinitions
    | cons d members =>
      refine ⟨d, ?_, f, hf, rfl, hfile, t, htypes, of_decide_eq_true hkind, members, hdefinitions⟩
      cases t
      cases hdefinitions
      rfl

/-- **An entry describes the last definition of its name.** Its origin is the first occurrence of
the name, and its type parameters and its own methods are those of the definition that is the last.
So it describes what its origin says exactly where no later definition has the name. -/
theorem entry_describes (hproper : disk.Proper) (h : load disk o = .ok s) {i : InterfaceDescriptor}
    (hi : i ∈ (s.catalog packages).entries) :
    (∃ before after, s.interfaceNames packages = before ++ (i.name, i.origin) :: after
      ∧ ∀ b ∈ before, b.1 ≠ i.name)
    ∧ (∃ e, s.Says disk packages i.name i.origin e)
    ∧ ∃ d, s.store.find? i.name = some d ∧ d.IsLastIn s.definitions ∧ d.isInterface = true
      ∧ i.Describes d
      ∧ ∀ e, s.Says disk packages i.name i.origin e → (e.IsLastIn s.definitions ↔ e = d) := by
  rw [catalog_eq, Catalog.mem_ofList] at hi
  obtain ⟨⟨name, origin⟩, hfirst, hdescribe⟩ := List.mem_filterMap.mp hi
  obtain ⟨horigin, d, hd, hinterface, hdescribes⟩ := Store.describes_of_describe hdescribe
  have hname : i.name = name := hdescribes.name.trans (Store.name_of_find? hd)
  subst hname horigin
  obtain ⟨before, after, hsplit, hbefore⟩ := mem_keepFirst_iff.mp hfirst
  have hsaid : ∃ e, s.Says disk packages i.name i.origin e :=
    exists_said hproper h (hsplit ▸ List.mem_append_right _ (List.mem_cons_self ..))
  -- the name has a definition other than that of the core library, and so the last one counts
  have hlast : d.IsLastIn s.definitions := by
    obtain ⟨e, he⟩ := hsaid
    obtain ⟨hename, hmem⟩ := he.mem
    obtain ⟨last, hlname, hlast⟩ := exists_isLastIn ⟨e, hmem, hename⟩
    obtain ⟨-, -, -, -, -, hstore⟩ := load_spec hproper h
    rw [find?_of_loaded hstore, find?_reverse_eq_some.mpr ⟨hlname, hlast⟩, Option.some_or,
      Option.some.injEq] at hd
    exact hd ▸ hlast
  refine ⟨⟨before, after, hsplit, fun b hb => of_decide_eq_false (hbefore b hb)⟩, hsaid, d, hd,
    hlast, hinterface, hdescribes, fun e he => ⟨fun helast => ?_, fun heq => heq ▸ hlast⟩⟩
  exact helast.eq hlast (he.mem.1.trans hdescribes.name)

/-- An interface that extends no other is in the catalog with its methods, if no later definition
has its name. -/
theorem mem_catalog_of_last (hproper : disk.Proper) (h : load disk o = .ok s) {d : ClassDef}
    {origin : InterfaceOrigin} (hfirst : (d.name, origin) ∈ s.firstNames packages)
    (hlast : d.IsLastIn s.definitions) (hinterface : d.isInterface = true)
    (halone : d.interfaces = []) :
    ⟨d.name, d.typeParamNames, keepFirst WantedMethod.sameSignature (d.wantedMethods fun _ => none),
      origin⟩ ∈ (s.catalog packages).entries := by
  obtain ⟨-, -, -, -, -, hstore⟩ := load_spec hproper h
  have hd : s.store.find? d.name = some d := by
    rw [find?_of_loaded hstore, find?_reverse_eq_some.mpr ⟨rfl, hlast⟩, Option.some_or]
  rw [catalog_eq, Catalog.mem_ofList]
  exact List.mem_filterMap.mpr ⟨_, hfirst, Store.describe_alone hd hinterface halone⟩

/-! ## Names that are found twice -/

/-- The interface `Named` is declared in two files, and `Sized` in one and on the classpath. -/
def originDisk : Disk where
  root := .folder [
    ("api", .folder [
      ("A.java", .file (.text
        "package p; interface Named \x7bint first();\x7d interface Shown \x7bint show();\x7d")),
      ("B.java", .file (.text
        "package p; interface Named \x7bint second();\x7d interface Sized \x7bint size();\x7d"))]),
    ("lib", .folder [
      ("Sized.class", .file (.bytes ({ ClassFile.Builder.interface "p/Sized" with
        methods := [.abstract "length" "()I" none] } : ClassFile.Builder).toBytes))]),
    ("src", .folder [])]
  here := []

def originOptions : Options where
  scanDir := "src"
  interfacesDir := some "api"
  classpath := [.folder "lib"]

/-- The definition of an interface with a single method. -/
def counting (name method : String) : ClassDef where
  name := name
  kind := .interface
  methods := [{ name := method, params := [], returnType := .primitive .int, isAbstract := true }]

/-- What such an interface asks for. -/
def wantsCounting (name method : String) (origin : InterfaceOrigin) : InterfaceDescriptor where
  name := name
  typeParams := []
  methods := [{ name := method, params := [], returnType := .primitive .int }]
  origin := origin

theorem proper_originDisk : originDisk.Proper := by
  have hname : ∀ name ∈ ["api", "lib", "src", "A.java", "B.java", "Sized.class"],
      Path.IsName name := by
    have hall : ∀ name ∈ ["api", "lib", "src", "A.java", "B.java", "Sized.class"],
        name ≠ "" ∧ '/' ∉ name.toList ∧ name ≠ "." ∧ name ≠ ".." := by decide
    intro name h
    obtain ⟨hnonempty, hslash, hdot, hup⟩ := hall name h
    exact ⟨hnonempty, hslash, hdot, hup⟩
  refine .folder (by simp [hname]) (by decide) ?_
  simp only [List.forall_mem_cons]
  refine ⟨?_, ?_, .folder (by simp) .nil (by simp), by simp⟩
  · refine .folder (by simp [hname]) (by decide) ?_
    simp only [List.forall_mem_cons]
    exact ⟨.file _, .file _, by simp⟩
  · refine .folder (by simp [hname]) (List.pairwise_singleton ..) ?_
    rw [List.forall_mem_singleton]
    exact .file _

theorem load_origins : ∃ s, load originDisk originOptions = .ok s
    ∧ s.interfaceNames ["p"] = [("p.Sized", .classpath), ("p.Named", .source "api/A.java"),
        ("p.Shown", .source "api/A.java"), ("p.Named", .source "api/B.java"),
        ("p.Sized", .source "api/B.java")]
    ∧ (s.index.interfacesIn ["p"]).map ClassStub.toClassDef = [counting "p.Sized" "length"]
    ∧ (s.filesAt s.interfaceSources).map (fun f => (f.path, f.definitions s.store))
        = [("api/A.java", [counting "p.Named" "first", counting "p.Shown" "show"]),
          ("api/B.java", [counting "p.Named" "second", counting "p.Sized" "size"])]
    ∧ s.definitions = [counting "p.Sized" "length", counting "p.Named" "first",
        counting "p.Shown" "show", counting "p.Named" "second", counting "p.Sized" "size"] := by
  -- one evaluation gives the snapshot and all that is used of it
  have hload : (load originDisk originOptions).toOption.any fun s =>
      decide (s.interfaceNames ["p"] = [("p.Sized", .classpath), ("p.Named", .source "api/A.java"),
        ("p.Shown", .source "api/A.java"), ("p.Named", .source "api/B.java"),
        ("p.Sized", .source "api/B.java")])
      && decide
        ((s.index.interfacesIn ["p"]).map ClassStub.toClassDef = [counting "p.Sized" "length"])
      && decide ((s.filesAt s.interfaceSources).map (fun f => (f.path, f.definitions s.store))
        = [("api/A.java", [counting "p.Named" "first", counting "p.Shown" "show"]),
          ("api/B.java", [counting "p.Named" "second", counting "p.Sized" "size"])])
      && decide (s.definitions = [counting "p.Sized" "length", counting "p.Named" "first",
        counting "p.Shown" "show", counting "p.Named" "second", counting "p.Sized" "size"]) := by
    decide +kernel
  obtain ⟨s, hs, hfacts⟩ := (Option.any_eq_true ..).mp hload
  simp only [Bool.and_eq_true, decide_eq_true_iff, and_assoc] at hfacts
  exact ⟨s, toOption_eq_some_iff.mp hs, hfacts⟩

/-- What the first file says is one of its two definitions. -/
theorem exists_said_first {s : Snapshot} (hload : load originDisk originOptions = .ok s)
    (hwritten : (s.filesAt s.interfaceSources).map (fun f => (f.path, f.definitions s.store))
      = [("api/A.java", [counting "p.Named" "first", counting "p.Shown" "show"]),
        ("api/B.java", [counting "p.Named" "second", counting "p.Sized" "size"])])
    (hmem : (name, .source "api/A.java") ∈ s.interfaceNames ["p"]) :
    ∃ e ∈ [counting "p.Named" "first", counting "p.Shown" "show"], e.name = name
      ∧ s.Says originDisk ["p"] name (.source "api/A.java") e := by
  obtain ⟨e, he⟩ := exists_said proper_originDisk hload hmem
  obtain ⟨f, hf, hpath, hin⟩ := he.exists_file
  have hpair := List.mem_map_of_mem (f := fun f => (f.path, f.definitions s.store)) hf
  rw [hwritten, hpath, List.mem_pair] at hpair
  rcases hpair with hfirst | hsecond
  · rw [Prod.mk.injEq] at hfirst
    exact ⟨e, hfirst.2 ▸ hin, he.mem.1, he⟩
  · rw [Prod.mk.injEq] at hsecond
    exact absurd hsecond.1 (by decide)

/-- An interface that is found once is described as it is declared. -/
theorem shown_described : originDisk.Proper ∧ ∃ s, load originDisk originOptions = .ok s
    ∧ ∃ i ∈ (s.catalog ["p"]).entries, i.name = "p.Shown" ∧ i.origin = .source "api/A.java"
      ∧ s.Says originDisk ["p"] "p.Shown" (.source "api/A.java") (counting "p.Shown" "show")
      ∧ i.Describes (counting "p.Shown" "show") := by
  obtain ⟨s, hload, hnames, -, hwritten, hdefinitions⟩ := load_origins
  have hlast : (counting "p.Shown" "show").IsLastIn s.definitions := by
    have hfind : s.definitions.reverse.find? (·.name = "p.Shown")
        = some (counting "p.Shown" "show") := by
      rw [hdefinitions]
      decide
    exact (find?_reverse_eq_some.mp hfind).2
  have hfirst : ("p.Shown", .source "api/A.java") ∈ s.firstNames ["p"] := by
    rw [firstNames, hnames]
    decide
  have hentry := mem_catalog_of_last proper_originDisk hload hfirst hlast rfl rfl
  obtain ⟨-, -, d, -, -, -, hdescribes, hd⟩ := entry_describes proper_originDisk hload hentry
  have hsaid : s.Says originDisk ["p"] "p.Shown" (.source "api/A.java")
      (counting "p.Shown" "show") := by
    have hmem : ("p.Shown", .source "api/A.java") ∈ s.interfaceNames ["p"] := by
      rw [hnames]
      decide
    obtain ⟨e, he, hname, hsaid⟩ := exists_said_first hload hwritten hmem
    rcases List.mem_pair.mp he with rfl | rfl
    · exact absurd hname (by decide)
    · exact hsaid
  refine ⟨proper_originDisk, s, hload, _, hentry, rfl, rfl, hsaid, ?_⟩
  exact (hd _ hsaid).mp hlast ▸ hdescribes

/-- **Entries that do not describe what their origin says.** The entry for `Sized` is said to be
from the classpath and has the method of the source file, and the entry for `Named` is said to be
from the first of two files and has the method of the second. -/
theorem origins_not_described : ∃ s, load originDisk originOptions = .ok s
    ∧ wantsCounting "p.Sized" "size" .classpath ∈ (s.catalog ["p"]).entries
    ∧ s.Says originDisk ["p"] "p.Sized" .classpath (counting "p.Sized" "length")
    ∧ ¬ (wantsCounting "p.Sized" "size" .classpath).Describes (counting "p.Sized" "length")
    ∧ wantsCounting "p.Named" "second" (.source "api/A.java") ∈ (s.catalog ["p"]).entries
    ∧ s.Says originDisk ["p"] "p.Named" (.source "api/A.java") (counting "p.Named" "first")
    ∧ ¬ (wantsCounting "p.Named" "second" (.source "api/A.java")).Describes
        (counting "p.Named" "first") := by
  obtain ⟨s, hload, hnames, hcompiled, hwritten, hdefinitions⟩ := load_origins
  have hentry : ∀ name method origin, (name, origin) ∈ s.firstNames ["p"] →
      s.definitions.reverse.find? (·.name = name) = some (counting name method) →
      keepFirst WantedMethod.sameSignature ((counting name method).wantedMethods fun _ => none)
        = [⟨method, .primitive .int, []⟩] →
      wantsCounting name method origin ∈ (s.catalog ["p"]).entries := by
    intro name method origin hfirst hlast hwants
    rw [wantsCounting, ← hwants]
    exact mem_catalog_of_last proper_originDisk hload hfirst (find?_reverse_eq_some.mp hlast).2
      rfl rfl
  refine ⟨s, hload, ?_, ?_, ?_, ?_, ?_, ?_⟩
  · apply hentry
    · rw [firstNames, hnames]
      decide
    · rw [hdefinitions]
      decide
    · decide
  · have hmem : counting "p.Sized" "length"
        ∈ (s.index.interfacesIn ["p"]).map ClassStub.toClassDef :=
      hcompiled ▸ List.mem_singleton_self _
    obtain ⟨stub, hstub, heq⟩ := List.mem_map.mp hmem
    exact ⟨rfl, stub, hstub, heq.symm⟩
  · exact fun h => absurd h.methods (by decide)
  · apply hentry
    · rw [firstNames, hnames]
      decide
    · rw [hdefinitions]
      decide
    · decide
  · have hmem : ("p.Named", .source "api/A.java") ∈ s.interfaceNames ["p"] := by
      rw [hnames]
      decide
    obtain ⟨e, he, hname, hsaid⟩ := exists_said_first hload hwritten hmem
    rcases List.mem_pair.mp he with rfl | rfl
    · exact hsaid
    · exact absurd hname (by decide)
  · exact fun h => absurd h.methods (by decide)

end Snapshot

end Conformance
