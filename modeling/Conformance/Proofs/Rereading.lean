import Conformance.Proofs.Precedence
import Conformance.Proofs.Tokens

/-!
# What a written interface means afterwards

The name that is written for an interface is chosen to mean it in the header, where nothing but
the rest of the file is in view. When the class is read again, its definition is worked out with
the class itself around its header, so a member type of the class comes first
(`resolve?_enclosed`). There is one more trap: a name that is written in full may begin like
something that the file sees, and is then taken for a part of that. If neither is the case, the
definition has the interface at its place, and only then (`interface_reread_iff`).
-/

namespace Conformance

open Java

/-! ## Stores -/

namespace Store

variable {store : Store} {defs : List ClassDef} {name : String} {d : ClassDef}

/-- Of several definitions of a name the last one counts. -/
theorem find?_insertAll_eq (store : Store) (defs : List ClassDef) (name : String) :
    (store.insertAll defs).find? name
      = (defs.reverse.find? (·.name = name)).or (store.find? name) := by
  induction defs generalizing store with
  | nil => rfl
  | cons e defs ih =>
    have hinsert : store.insertAll (e :: defs) = (store.insert e).insertAll defs := rfl
    rw [hinsert, ih, find?_insert, List.reverse_cons, List.find?_append, Option.or_assoc]
    by_cases he : e.name = name
    · rw [if_pos he, List.find?_singleton, if_pos (decide_eq_true he), Option.some_or]
    · rw [if_neg he, List.find?_singleton, if_neg (by simpa using he), Option.none_or]

/-- The only definition of a name is the one that is found. -/
theorem find?_insertAll_of_count (hd : d ∈ defs) (hone : (defs.map (·.name)).count d.name = 1) :
    (store.insertAll defs).find? d.name = some d := by
  obtain ⟨before, after, rfl⟩ := List.append_of_mem hd
  rw [List.map_append, List.map_cons, List.count_append, List.count_cons_self] at hone
  have hafter : d.name ∉ after.map (·.name) := List.count_eq_zero.mp (by omega)
  have hnone : after.reverse.find? (fun c => decide (c.name = d.name)) = none := by
    rw [List.find?_eq_none]
    intro c hc heq
    rw [decide_eq_true_iff] at heq
    exact hafter (heq ▸ List.mem_map_of_mem (List.mem_reverse.mp hc))
  have hfound : (d :: before.reverse).find? (fun c => decide (c.name = d.name)) = some d :=
    List.find?_cons_of_pos (by simp)
  rw [find?_insertAll_eq, List.reverse_append, List.reverse_cons, List.append_assoc,
    List.find?_append, hnone, Option.none_or, List.singleton_append, hfound, Option.some_or]

theorem contains_insertAll (store : Store) (defs : List ClassDef) (name : String) :
    (store.insertAll defs).contains name = true
      ↔ name ∈ defs.map (·.name) ∨ store.contains name = true := by
  rw [contains, contains, find?_insertAll_eq, Option.isSome_or, Bool.or_eq_true,
    List.find?_isSome, List.mem_map]
  simp only [List.mem_reverse, decide_eq_true_iff]

/-- Working out the definitions of source files adds no names to those declared. -/
theorem contains_withSources (base : Store) (files : List SourceFile) (name : String) :
    (base.withSources files).contains name
      = (base.insertAll (files.flatMap SourceFile.placeholders)).contains name := by
  unfold withSources
  generalize hknown : base.insertAll (files.flatMap SourceFile.placeholders) = known
  rw [Bool.eq_iff_iff]
  dsimp only
  rw [contains_insertAll, SourceFile.flatMap_definitions_names, ← hknown, contains_insertAll,
    ← or_assoc, or_self]

end Store

namespace Java

/-! ## Names -/

namespace Scope

variable {s s' : Scope} {c : Context} {name written : String}

theorem resolve?_congr {store store' : Store} {f : SourceFile}
    (h : ∀ name, store'.contains name = store.contains name) (c : Context) (written : String) :
    (f.scope store').resolve? c written = (f.scope store).resolve? c written := by
  have hcontains : (f.scope store').store.contains = (f.scope store).store.contains := funext h
  unfold resolve? candidates singleImports qualify
  rw [hcontains]
  rfl

theorem splitName_append (written : String) :
    (splitName written).1 ++ (splitName written).2 = written := by
  rw [splitName, ← String.ofList_append, List.takeWhile_append_dropWhile, String.ofList_toList]

/-- **What is nested in the class around a place comes before all else.** -/
theorem resolve?_enclosed (s : Scope) (typeVars typeVars' : List String) (outer written : String) :
    s.resolve? { typeVars, enclosing := [outer] } written
      = if s.store.contains (memberName outer written) then some (memberName outer written)
        else s.resolve? { typeVars := typeVars' } written := by
  have hmember : outer ++ "." ++ (splitName written).1 ++ (splitName written).2
      = memberName outer written := by
    rw [memberName, String.append_assoc, splitName_append]
  unfold resolve? candidates
  simp only [List.map_cons, List.map_nil, List.cons_append, List.nil_append, List.map_append,
    hmember, List.find?_cons]
  cases s.store.contains (memberName outer written) <;> rfl

theorem isEmpty_rest_iff {written : String} :
    (splitName written).2.isEmpty = true ↔ '.' ∉ written.toList := by
  rw [splitName, String.isEmpty_iff, String.ofList_eq_empty_iff, List.dropWhile_eq_nil_iff]
  constructor
  · intro h hdot
    simpa using h '.' hdot
  · intro h c hc
    rw [decide_eq_true_iff]
    rintro rfl
    exact h hc

/-- A canonical name of several parts means something if the store knows it. -/
theorem isSome_resolve?_of_contains (hknown : s.store.contains name = true)
    (hdotted : '.' ∈ name.toList) : (s.resolve? c name).isSome = true := by
  have hrest : (splitName name).2.isEmpty = false := by
    rw [← Bool.not_eq_true, isEmpty_rest_iff, not_not]
    exact hdotted
  unfold resolve?
  simp only [hrest, Bool.false_eq_true, if_false]
  rw [List.find?_isSome]
  exact ⟨name, List.mem_append_right _ (List.mem_singleton_self name), hknown⟩

/-- What is written for a class is no type variable, if there are no dots in type variables. -/
theorem not_mem_typeVars_shortestName (hdotless : ∀ v ∈ c.typeVars, '.' ∉ v.toList)
    (hdotted : '.' ∈ name.toList) : s.shortestName c name ∉ c.typeVars := by
  intro hmem
  have hnoDot := hdotless _ hmem
  unfold shortestName at hmem hnoDot
  cases h : (endings name).find? fun written =>
      !isHidden c written && decide (s.resolve? c written = some name) with
  | none =>
    rw [h] at hnoDot
    exact hnoDot hdotted
  | some written =>
    rw [h, Option.getD_some] at hmem hnoDot
    have hfound := List.find?_some h
    rw [Bool.and_eq_true, Bool.not_eq_true', isHidden, isEmpty_rest_iff.mpr hnoDot, Bool.true_and,
      ← Bool.not_eq_true, List.contains_iff_mem] at hfound
    exact hfound.1 hmem

theorem typesOf_eq_map (s : Scope) (c : Context) (types : List WrittenType) :
    s.typesOf c types = types.map (s.typeOf c) := by
  induction types with
  | nil => rfl
  | cons t types ih => rw [typesOf, ih, List.map_cons]

theorem typeOf_named (hvar : written ∉ c.typeVars) (hmeans : s.resolve? c written = some name) :
    s.typeOf c (.named written []) = .raw name := by
  rw [typeOf, hmeans, Option.getD_some, typesOf,
    if_neg (by rwa [List.isEmpty_nil, Bool.true_and, List.contains_iff_mem])]
  rfl

end Scope

end Java

namespace Retrofit

/-! ## The clause of an interface -/

variable {base : Store} {files files' : List SourceFile} {catalog : Catalog} {pass k : Nat}
  {f g : SourceFile} {d : Declaration} {a : Addition} {name : String}
  {saved : SourceFile × List Addition} {result : Declaration × List Addition}

/-- What is in the way of an interface, when the header that it was written into is read. -/
inductive Obscured (store : Store) (f : SourceFile) (d : Declaration) (name written : String) :
    Prop where
  /-- The class has a member type of the written name. -/
  | member (hknown : store.contains (memberName (f.qualify d.name) written) = true)
      (hother : memberName (f.qualify d.name) written ≠ name) : Obscured store f d name written
  /-- The interface is written in full, and the full name means something else. -/
  | full {other : String} (hfull : written = name)
      (hfree : store.contains (memberName (f.qualify d.name) written) = false)
      (hmeans : (f.scope store).resolve? (header d) name = some other) (hother : other ≠ name) :
      Obscured store f d name written

/-- **What the chosen name of an interface means with the class around it.** -/
theorem resolve?_shortestName_iff {store : Store} (hknown : store.contains name = true)
    (hdotted : '.' ∈ name.toList) :
    (f.scope store).resolve? (Declaration.context [f.qualify d.name] d.typeParams)
        ((f.scope store).shortestName (header d) name) = some name
      ↔ ¬ Obscured store f d name ((f.scope store).shortestName (header d) name) := by
  generalize hwritten : (f.scope store).shortestName (header d) name = written
  rw [Declaration.context, Scope.resolve?_enclosed _ _ (d.typeParams.map (·.name))]
  have hstore : (f.scope store).store = store := rfl
  rw [hstore]
  by_cases hmember : store.contains (memberName (f.qualify d.name) written) = true
  · rw [if_pos hmember, Option.some.injEq]
    constructor
    · rintro hname (⟨-, hother⟩ | ⟨-, hfree, -⟩)
      · exact hother hname
      · rw [hmember] at hfree
        cases hfree
    · intro h
      by_contra hother
      exact h (.member hmember hother)
  · rw [if_neg hmember]
    rw [Bool.not_eq_true] at hmember
    constructor
    · rintro hmeans (⟨hknown', -⟩ | ⟨hfull, -, hmeans', hother⟩)
      · rw [hmember] at hknown'
        cases hknown'
      · subst hfull
        exact hother (Option.some.inj (hmeans'.symm.trans hmeans))
    · intro h
      rcases (f.scope store).shortestName_spec (header d) name with hfull | hmeans
      · -- the full name means something, and if not the interface then it obscures it
        rw [hwritten] at hfull
        subst hfull
        obtain ⟨other, hother⟩ := Option.isSome_iff_exists.mp
          (Scope.isSome_resolve?_of_contains (s := f.scope store) (c := header d) hknown hdotted)
        by_cases heq : other = written
        · rw [heq] at hother
          exact hother
        · exact absurd (.full rfl hmember hother heq) h
      · rw [hwritten] at hmeans
        exact hmeans

/-- Something is meant by the chosen name of an interface, whatever it is. -/
theorem isSome_resolve?_shortestName {store : Store} (hknown : store.contains name = true)
    (hdotted : '.' ∈ name.toList) :
    ((f.scope store).resolve? (Declaration.context [f.qualify d.name] d.typeParams)
      ((f.scope store).shortestName (header d) name)).isSome = true := by
  rw [Declaration.context, Scope.resolve?_enclosed _ _ (d.typeParams.map (·.name))]
  split
  · rfl
  · rcases (f.scope store).shortestName_spec (header d) name with hfull | hmeans
    · rw [hfull]
      exact Scope.isSome_resolve?_of_contains hknown hdotted
    · exact Option.isSome_of_eq_some hmeans

/-- The definition of a declaration at the top of a file, if no other has its name. -/
theorem exists_definition (known : Store) (hg : g ∈ files) (hd : d ∈ g.types)
    (hone : ((files.flatMap SourceFile.placeholders).map (·.name)).count (g.qualify d.name) = 1) :
    ∃ c, (known.insertAll (files.flatMap (·.definitions known))).find? (g.qualify d.name) = some c
      ∧ c.interfaces = d.interfaces.map
        ((g.scope known).typeOf (Declaration.context [g.qualify d.name] d.typeParams)) := by
  obtain ⟨c, rest, hdefinitions, hname, hinterfaces⟩ : ∃ c rest,
      d.definitions (g.scope known) (g.qualify d.name) [] = c :: rest
        ∧ c.name = g.qualify d.name
        ∧ c.interfaces = d.interfaces.map
          ((g.scope known).typeOf (Declaration.context [g.qualify d.name] d.typeParams)) := by
    cases d
    exact ⟨_, _, rfl, rfl, Scope.typesOf_eq_map ..⟩
  have hmem : c ∈ files.flatMap (·.definitions known) := by
    refine List.mem_flatMap.mpr ⟨g, hg, List.mem_flatMap.mpr ⟨d, hd, ?_⟩⟩
    rw [hdefinitions]
    exact List.mem_cons_self ..
  refine ⟨c, ?_, hinterfaces⟩
  rw [← hname] at hone ⊢
  rw [← SourceFile.flatMap_definitions_names files known] at hone
  exact Store.find?_insertAll_of_count hmem hone

/-- A clause is the type that was added as the header spells it. -/
theorem clause_eq_spell {store : Store}
    (hresult : declaration? store catalog pass f d = some result) (ha : a ∈ result.2) :
    a.clause = (f.scope store).spell (header d) a.type := by
  obtain ⟨before, others, hsplit⟩ := List.append_of_mem ha
  obtain ⟨i, -, b, -, -, rfl, -⟩ :=
    (accounted_of_declaration? hresult).justified before a others hsplit
  rfl

/-- **The clause of an interface means the interface when the class is read again, unless
something is in its way.** The other files may have got interfaces as well. -/
theorem interface_reread_iff (hparsed : SourceFile.parse? f.path f.text = some f)
    (hfiles : List.Forall₂ SourceFile.SameOutline files files') (hat : (f, g) ∈ files.zip files')
    (hfile : file? (base.withSources files) catalog pass f = some saved)
    (hsaved : saved.1.SaysSame g) (hd : d ∈ f.types)
    (hone : ((files.flatMap SourceFile.placeholders).map (·.name)).count (f.qualify d.name) = 1)
    (hresult : declaration? (base.withSources files) catalog pass f d = some result)
    (ha : result.2[k]? = some a)
    (htype : a.type = .raw name) (hdotted : '.' ∈ name.toList)
    (hknown : (base.withSources files).contains name = true) :
    ∃ written c, a.clause = .named written []
      ∧ (base.withSources files').find? (f.qualify d.name) = some c
      ∧ (c.interfaces[d.interfaces.length + k]? = some (.raw name)
        ↔ ¬ Obscured (base.withSources files) f d name written) := by
  have hplaceholders : files'.flatMap SourceFile.placeholders
      = files.flatMap SourceFile.placeholders := by
    rw [List.flatMap_def, List.flatMap_def,
      map_eq_of_forall₂ hfiles fun _ _ hfg => hfg.placeholders]
  have hextended := extended_of_declaration? hresult
  have houtline : SourceFile.SameOutline f g :=
    (sameOutline_of_file? hfile).trans hsaved.sameOutline
  -- the declaration as it was saved, and as it is read again
  have hmem : result.1 ∈ saved.1.types := mem_types_of_file? hfile hd hresult
  obtain ⟨e, he, hsettled⟩ := exists_right_of_mem (forall₂_of_map_eq hsaved.types) hmem
  have hsame : e.outline = d.outline :=
    (Declaration.outline_of_settled hsettled).trans hextended.outline
  have hinterfaces : e.interfaces = d.interfaces ++ result.2.map (·.clause) :=
    (Declaration.interfaces_of_settled hsettled).trans hextended.interfaces
  -- its definition
  have hqualify : g.qualify e.name = f.qualify d.name := by
    rw [houtline.qualify, Declaration.name_of_outline hsame]
  obtain ⟨c, hfind, hdefined⟩ := exists_definition
    (base.insertAll (files.flatMap SourceFile.placeholders))
    (List.of_mem_zip hat).2 he (by rw [hplaceholders, hqualify]; exact hone)
  rw [hqualify, Declaration.typeParams_of_outline hsame] at hdefined
  rw [hqualify] at hfind
  -- the clause, and the type that is made of it
  have hclause : a.clause
      = .named ((f.scope (base.withSources files)).shortestName (header d) name) [] := by
    rw [clause_eq_spell hresult (List.mem_of_getElem? ha), htype]
    rfl
  have hentry : c.interfaces[d.interfaces.length + k]?
      = some ((g.scope (base.insertAll (files.flatMap SourceFile.placeholders))).typeOf
          (Declaration.context [f.qualify d.name] d.typeParams) a.clause) := by
    rw [hdefined, hinterfaces, List.getElem?_map,
      List.getElem?_append_right (Nat.le_add_right ..), Nat.add_sub_cancel_left,
      List.getElem?_map, ha]
    rfl
  refine ⟨_, c, hclause, ?_, ?_⟩
  · rw [Store.withSources, hplaceholders]
    exact hfind
  · rw [hentry, hclause, ← resolve?_shortestName_iff hknown hdotted, Option.some.injEq]
    -- names mean for the reader what they meant for the writer, but for the class around them
    have hmeans : ∀ c written,
        (g.scope (base.insertAll (files.flatMap SourceFile.placeholders))).resolve? c written
          = (f.scope (base.withSources files)).resolve? c written := by
      intro c written
      rw [houtline.resolve?_eq (fun _ => rfl)]
      exact (Scope.resolve?_congr (Store.contains_withSources base files) c written).symm
    have hnoVar : (f.scope (base.withSources files)).shortestName (header d) name
        ∉ (Declaration.context [f.qualify d.name] d.typeParams).typeVars := by
      refine Scope.not_mem_typeVars_shortestName (c := header d) ?_ hdotted
      exact List.forall_mem_map.mpr (SourceFile.dotless_of_parse? hparsed hd)
    obtain ⟨other, hother⟩ := Option.isSome_iff_exists.mp
      (isSome_resolve?_shortestName (f := f) (d := d) hknown hdotted)
    rw [Scope.typeOf_named hnoVar ((hmeans _ _).trans hother), hother, Option.some.injEq]
    exact ⟨fun h => (JavaType.classType.inj h).1, congrArg JavaType.raw⟩

/-! ## A class that is read as something else -/

/-- A class below the root of all classes that has a method `run` gets the interface that wants
one. -/
theorem declaration_wantsRun {store : Store} {interface written : String}
    (hclass : d.kind = .plainClass ∧ store.contains (f.qualify d.name) = true)
    (hother : interface ≠ f.qualify d.name) (hinterfaces : d.interfaces = [])
    (hmatch : (store.matchClass (f.qualify d.name) (wantsRun interface)).isSome = true)
    (hancestors : store.ancestors (f.qualify d.name) = .ok [.object])
    (habove : store.assignableWithin 4 (.raw interface) .object = some (.ok false))
    (hshortest : (f.scope store).shortestName (header d) interface = written) :
    declaration? store ⟨[wantsRun interface]⟩ pass f d
      = some ({ d with added := d.added ++ [.named written []] },
          [{ pass, className := f.qualify d.name, path := f.path, type := .raw interface
             clause := .named written [] }]) := by
  have hspell : (f.scope store).spell (header d) (.raw interface) = .named written [] := by
    rw [JavaType.raw, Scope.spell, hshortest, Scope.spellAll]
  obtain ⟨b, hb⟩ := Option.isSome_iff_exists.mp hmatch
  have hwanted : (classOf store f d).wanted? (wantsRun interface) = some (.raw interface) :=
    Candidate.wanted?_eq_some.mpr ⟨hother, b, hb, rfl⟩
  have hnew : (classOf store f d).has ((classOf store f d).after d []) (wantsRun interface)
      = false := by
    have hredundant : store.isRedundant (f.qualify d.name) (wantsRun interface) = false :=
      Store.isRedundant_of_root hancestors (Store.assignable_of_within habove)
    have hnames : (f.scope store).namesInterface (header d)
        ((classOf store f d).after d []).declaration (wantsRun interface) = false := by
      rw [Candidate.after_nil, Scope.namesInterface, hinterfaces]
      rfl
    rw [Candidate.has, Bool.or_eq_false_iff, Bool.or_eq_false_iff]
    exact ⟨⟨hredundant, rfl⟩, hnames⟩
  rw [declaration_single _ hclass hwanted hnew, hspell, record, hspell]

/-- The interface that is imported, and the root of all classes. -/
def taskLibrary : Store := Store.empty.insertAll [
  { name := JavaType.objectName, kind := .plainClass },
  { name := "api.Task", kind := .interface, methods := [runMethod true] }]

/-- A file with a class that imports `Task`; between the parts of the text stand the list of
interfaces and a member. -/
def importingFile (clause member : String) (declared : List WrittenType) (anchor : ClauseAnchor)
    (members : List Declaration) : SourceFile where
  path := "Job.java"
  text := "package p;\nimport api.Task;\nclass Job" ++ clause ++ " \x7b\n" ++ member
    ++ "  public void run() \x7b\x7d\n\x7d\n"
  package? := some "p"
  imports := [{ path := "api.Task", isStatic := false, onDemand := false }]
  types := [{ jobDeclaration with declared, anchor, members }]

/-- A member type of the class. -/
def memberTask (offset : Nat) : Declaration where
  kind := .interface
  name := "Task"
  typeParams := []
  superclass := none
  declared := []
  added := []
  methods := []
  members := []
  anchor := ⟨offset, false⟩

/-- The class without a member type, before and after the interface is written. -/
def plainFile : SourceFile := importingFile "" "" [] ⟨37, false⟩ []
def plainFileSaved : SourceFile :=
  importingFile " implements Task" "" [.named "Task" []] ⟨53, true⟩ []

/-- The class with a member type of the same name, before and after. -/
def nestedFile : SourceFile :=
  importingFile "" "  interface Task \x7b\x7d\n" [] ⟨37, false⟩ [memberTask 56]
def nestedFileSaved : SourceFile :=
  importingFile " implements Task" "  interface Task \x7b\x7d\n" [.named "Task" []] ⟨53, true⟩
    [memberTask 72]

theorem parse?_importing :
    ∀ f ∈ [plainFile, nestedFile], SourceFile.parse? "Job.java" f.text = some f := by
  decide +kernel

/-- What the two stores know. -/
theorem taskLibrary_facts : ∀ f ∈ [plainFile, nestedFile],
    (taskLibrary.withSources [f]).contains "p.Job" = true
    ∧ (taskLibrary.withSources [f]).contains "api.Task" = true
    ∧ ((taskLibrary.withSources [f]).matchClass "p.Job" (wantsRun "api.Task")).isSome = true
    ∧ (taskLibrary.withSources [f]).ancestors "p.Job" = .ok [.object]
    ∧ (taskLibrary.withSources [f]).assignableWithin 4 (.raw "api.Task") .object
      = some (.ok false)
    ∧ (f.scope (taskLibrary.withSources [f])).shortestName {} "api.Task" = "Task" := by
  decide +kernel

/-- Either class gets the imported interface, under its simple name. -/
theorem declaration_importing {f : SourceFile} (hf : f ∈ [plainFile, nestedFile]) {d : Declaration}
    (hd : d ∈ f.types) :
    declaration? (taskLibrary.withSources [f]) ⟨[wantsRun "api.Task"]⟩ 1 f d
      = some ({ d with added := d.added ++ [.named "Task" []] },
          [{ pass := 1, className := "p.Job", path := "Job.java", type := .raw "api.Task"
             clause := .named "Task" [] }]) := by
  obtain ⟨hcontains, -, hmatch, hancestors, habove, hshortest⟩ := taskLibrary_facts f hf
  have hshape : ∀ f ∈ [plainFile, nestedFile], ∀ d ∈ f.types, d.kind = .plainClass
      ∧ f.qualify d.name = "p.Job" ∧ f.path = "Job.java" ∧ header d = {}
      ∧ d.interfaces = [] := by
    decide
  obtain ⟨hkind, hname, hpath, hheader, hinterfaces⟩ := hshape f hf d hd
  have hother : "api.Task" ≠ f.qualify d.name := by
    rw [hname]
    decide
  rw [← hname] at hcontains hmatch hancestors
  rw [← hheader] at hshortest
  rw [declaration_wantsRun ⟨hkind, hcontains⟩ hother hinterfaces hmatch hancestors habove hshortest,
    hname, hpath]

/-- A pass adds the clause and leaves the rest of either file as it is. -/
theorem file_importing {f : SourceFile} (hf : f ∈ [plainFile, nestedFile]) : ∃ additions,
    file? (taskLibrary.withSources [f]) ⟨[wantsRun "api.Task"]⟩ 1 f
      = some ({ f with
          types := f.types.map fun d => { d with added := d.added ++ [.named "Task" []] } },
        additions) := by
  exact ⟨_, file?_of_forall _ fun d hd => declaration_importing hf hd⟩

/-- Without a member type in the way the class has the interface when it is read again. -/
theorem plain_reread : ∃ saved result,
    (SourceFile.parse? plainFile.path plainFile.text = some plainFile
      ∧ List.Forall₂ SourceFile.SameOutline [plainFile] [plainFileSaved]
      ∧ (plainFile, plainFileSaved) ∈ [plainFile].zip [plainFileSaved]
      ∧ file? (taskLibrary.withSources [plainFile]) ⟨[wantsRun "api.Task"]⟩ 1 plainFile = some saved
      ∧ saved.1.SaysSame plainFileSaved
      ∧ declaration? (taskLibrary.withSources [plainFile]) ⟨[wantsRun "api.Task"]⟩ 1 plainFile
        { jobDeclaration with anchor := ⟨37, false⟩ } = some result)
    ∧ ∃ c, (taskLibrary.withSources [plainFileSaved]).find? "p.Job" = some c
      ∧ c.interfaces[0]? = some (.raw "api.Task") := by
  have hf : plainFile ∈ [plainFile, nestedFile] := List.mem_cons_self ..
  have hparsed : SourceFile.parse? plainFile.path plainFile.text = some plainFile :=
    parse?_importing plainFile hf
  obtain ⟨additions, hfile⟩ := file_importing hf
  have hsaved : SourceFile.SaysSame { plainFile with
      types := plainFile.types.map fun d => { d with added := d.added ++ [.named "Task" []] } }
      plainFileSaved := ⟨rfl, rfl, rfl, rfl⟩
  have houtline : List.Forall₂ SourceFile.SameOutline [plainFile] [plainFileSaved] :=
    .cons ((sameOutline_of_file? hfile).trans hsaved.sameOutline) .nil
  have hzip : (plainFile, plainFileSaved) ∈ [plainFile].zip [plainFileSaved] :=
    List.mem_singleton_self _
  have hmem : { jobDeclaration with anchor := ⟨37, false⟩ } ∈ plainFile.types :=
    List.mem_singleton_self _
  have hresult := declaration_importing hf hmem
  refine ⟨_, _, ⟨hparsed, houtline, hzip, hfile, hsaved, hresult⟩, ?_⟩
  obtain ⟨written, c, hwritten, hfind, hreread⟩ := interface_reread_iff hparsed houtline hzip
    hfile hsaved hmem (by decide) hresult List.getElem?_cons_zero rfl (by decide)
    (taskLibrary_facts plainFile hf).2.1
  have hname : "Task" = written := (WrittenType.named.inj hwritten).1
  refine ⟨c, hfind, hreread.mpr ?_⟩
  subst hname
  rintro (⟨hmember, -⟩ | ⟨hfull, -⟩)
  · exact absurd hmember (by decide)
  · exact absurd hfull (by decide)

/-- **The written clause need not mean the interface in the next pass.** The class is read with
its own member type as the interface. -/
theorem nested_reread : ∃ (base : Store) (catalog : Catalog) (f g : SourceFile) (d : Declaration)
    (a : Addition) (c : ClassDef) (saved : SourceFile × List Addition)
    (result : Declaration × List Addition),
      SourceFile.parse? f.path f.text = some f
      ∧ file? (base.withSources [f]) catalog 1 f = some saved
      ∧ saved.1.save = .ok g ∧ saved.1.SaysSame g
      ∧ d ∈ f.types ∧ declaration? (base.withSources [f]) catalog 1 f d = some result
      ∧ result.2 = [a]
      ∧ a.type = .raw "api.Task" ∧ (base.withSources [f]).contains "api.Task" = true
      ∧ (base.withSources [g]).find? (f.qualify d.name) = some c
      ∧ c.interfaces = [.raw "p.Job.Task"] := by
  have hf : nestedFile ∈ [plainFile, nestedFile] := by simp
  have hmem : { jobDeclaration with anchor := ⟨37, false⟩, members := [memberTask 56] }
      ∈ nestedFile.types := List.mem_singleton_self _
  have hfind : ((taskLibrary.withSources [nestedFileSaved]).find? "p.Job").map (·.interfaces)
      = some [.raw "p.Job.Task"] := by
    decide
  obtain ⟨c, hc, hinterfaces⟩ := Option.map_eq_some_iff.mp hfind
  obtain ⟨additions, hfile⟩ := file_importing hf
  refine ⟨taskLibrary, ⟨[wantsRun "api.Task"]⟩, nestedFile, nestedFileSaved, _, _, c, _, _,
    parse?_importing nestedFile hf, hfile, ?_, ?_, hmem, declaration_importing hf hmem, rfl, rfl,
    (taskLibrary_facts nestedFile hf).2.1, hc, hinterfaces⟩
  · have hsave : SourceFile.save { nestedFile with
        types := nestedFile.types.map fun d => { d with added := d.added ++ [.named "Task" []] } }
        = .ok nestedFileSaved := by decide +kernel
    exact hsave
  · exact ⟨rfl, rfl, rfl, rfl⟩

end Retrofit

end Conformance
