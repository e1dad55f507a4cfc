import Mathlib.Data.List.Sort
import Conformance.Proofs.Additions
import Conformance.Proofs.Described
import Conformance.Proofs.Reach

/-!
# Which of two related interfaces a class gets

An interface that was added covers all interfaces above it, so a class that gets a
sub-interface does not get its super-interfaces after it. Whether the sub-interface has its
turn first is up to the catalog, which goes by the number of methods that an interface asks
for and, among equals, by name. A sub-interface that adds no method of its own, or for which
two inherited methods become one, need not come first. So a class may get both
(`both_added_task`), but only if the catalog puts the super-interface in front
(`super_first_of_both_added`).
-/

namespace Conformance

open Java

/-! ## The order of a catalog -/

namespace InterfaceDescriptor

theorem isLE_compare_string {a b : String} : (compare a b).isLE = true ↔ a ≤ b :=
  isLE_compareOfLessAndEq String.le_antisymm String.not_le String.le_total

theorem comesBefore_iff {i j : InterfaceDescriptor} : i.comesBefore j = true
    ↔ j.methods.length < i.methods.length
      ∨ (j.methods.length = i.methods.length ∧ i.name ≤ j.name) := by
  rw [comesBefore]
  rcases Nat.lt_trichotomy j.methods.length i.methods.length with h | h | h
  · rw [Nat.compare_eq_lt.mpr h]
    simp [h, Ordering.then]
  · rw [h, Nat.compare_eq_eq.mpr rfl, Ordering.then, isLE_compare_string]
    simp
  · rw [Nat.compare_eq_gt.mpr h]
    simp only [Ordering.then, Ordering.isLE, Bool.false_eq_true, false_iff]
    omega

theorem comesBefore_trans (i j k : InterfaceDescriptor) (hij : i.comesBefore j = true)
    (hjk : j.comesBefore k = true) : i.comesBefore k = true := by
  rw [comesBefore_iff] at hij hjk ⊢
  rcases hij with hij | ⟨hij, hname⟩ <;> rcases hjk with hjk | ⟨hjk, hname'⟩
  · exact .inl (by omega)
  · exact .inl (by omega)
  · exact .inl (by omega)
  · exact .inr ⟨by omega, String.le_trans hname hname'⟩

theorem comesBefore_total (i j : InterfaceDescriptor) :
    (i.comesBefore j || j.comesBefore i) = true := by
  rw [Bool.or_eq_true, comesBefore_iff, comesBefore_iff]
  rcases Nat.lt_trichotomy j.methods.length i.methods.length with h | h | h
  · exact .inl (.inl h)
  · rcases String.le_total i.name j.name with hname | hname
    · exact .inl (.inr ⟨h, hname⟩)
    · exact .inr (.inr ⟨h.symm, hname⟩)
  · exact .inr (.inl h)

end InterfaceDescriptor

/-- A catalog is in order. -/
theorem Catalog.pairwise_ofList (descriptors : List InterfaceDescriptor) :
    (Catalog.ofList descriptors).entries.Pairwise fun i j => i.comesBefore j = true :=
  List.pairwise_mergeSort InterfaceDescriptor.comesBefore_trans
    InterfaceDescriptor.comesBefore_total descriptors

theorem Catalog.mem_ofList {descriptors : List InterfaceDescriptor} {i : InterfaceDescriptor} :
    i ∈ (Catalog.ofList descriptors).entries ↔ i ∈ descriptors :=
  (List.mergeSort_perm ..).mem_iff

/-- In a list that is in order, what may not come before another entry comes after it. -/
theorem exists_between {α : Type} {R : α → α → Prop} {pre post pre' post' : List α} {a b : α}
    (h : pre ++ a :: post = pre' ++ b :: post') (horder : (pre ++ a :: post).Pairwise R)
    (hne : a ≠ b) (hab : ¬ R a b) : ∃ between, pre = pre' ++ b :: between := by
  rcases List.append_eq_append_iff.mp h with ⟨more, rfl, hrest⟩ | ⟨more, rfl, hrest⟩
  · exfalso
    cases more with
    | nil => exact hne (List.cons.inj hrest).1
    | cons x more =>
      obtain ⟨rfl, rfl⟩ := List.cons.inj hrest
      rw [List.pairwise_append, List.pairwise_cons] at horder
      exact hab (horder.2.1.1 b (by simp))
  · cases more with
    | nil => exact absurd (List.cons.inj hrest).1.symm hne
    | cons x more =>
      obtain ⟨rfl, -⟩ := List.cons.inj hrest
      exact ⟨more, rfl⟩

/-! ## What a declaration gets -/

namespace Retrofit

variable {store : Store} {catalog : Catalog} {pass : Nat} {f : SourceFile} {d : Declaration}
  {types : List JavaType}

/-- An interface that was added had its turn when those in front of it in the catalog had
had theirs. -/
theorem exists_turn {name : String}
    (htypes : catalog.entries.foldl (classOf store f d).step ((classOf store f d).after d [])
      = (classOf store f d).after d types)
    (h : name ∈ (types.map (record store pass f d)).map Addition.interface) :
    ∃ pre i post before arguments, catalog.entries = pre ++ i :: post ∧ i.name = name
      ∧ pre.foldl (classOf store f d).step ((classOf store f d).after d [])
          = (classOf store f d).after d before
      ∧ (classOf store f d).gain? ((classOf store f d).after d before) i
          = some (.classType name arguments) := by
  obtain ⟨a, ha, rfl⟩ := List.mem_map.mp h
  obtain ⟨t, ht, rfl⟩ := List.mem_map.mp ha
  obtain ⟨before, rest, rfl⟩ := List.append_of_mem ht
  obtain ⟨pre, i, post, hentries, hmoment, hgain⟩ := Candidate.exists_moment htypes
  have hwanted := hgain
  rw [Candidate.gain?_eq] at hwanted
  split at hwanted
  · cases hwanted
  · obtain ⟨-, b, -, rfl⟩ := Candidate.wanted?_eq_some.mp hwanted
    exact ⟨pre, i, post, before, b.arguments i.typeParams, hentries, rfl, hmoment, hgain⟩

/-- **A class gets an interface and a proper sub-interface of it only if the catalog puts the
super-interface first**, because it asks for more methods, or for as many and has the smaller
name. -/
theorem super_first_of_both_added {descriptors : List InterfaceDescriptor}
    {sub super : InterfaceDescriptor} {result : Declaration × List Addition}
    (hdescribed : ∀ i ∈ descriptors, ∃ name origin, store.describe name origin = some i)
    (hsub : sub ∈ descriptors) (hsuper : super ∈ descriptors)
    (hbelow : Relation.TransGen store.Extends sub.name super.name)
    (hproper : ¬ Relation.TransGen store.Extends super.name sub.name)
    (hresult : declaration? store (Catalog.ofList descriptors) pass f d = some result)
    (haddedSub : sub.name ∈ result.2.map Addition.interface)
    (haddedSuper : super.name ∈ result.2.map Addition.interface) :
    sub.methods.length < super.methods.length
      ∨ (sub.methods.length = super.methods.length ∧ super.name < sub.name) := by
  have hnames : super.name ≠ sub.name := by
    intro h
    rw [h] at hbelow hproper
    exact hproper hbelow
  by_contra hlater
  have hknown := (accounted_of_declaration? hresult).known
    (fun hnil => by rw [hnil] at haddedSub; cases haddedSub)
  obtain ⟨-, types, htypes, rfl⟩ := (declaration?_of_known hknown).mp hresult
  obtain ⟨pre, i, post, before, arguments, hentries, hname, hmoment, hgain⟩ :=
    exists_turn htypes haddedSub
  obtain ⟨pre', j, post', before', arguments', hentries', hname', hmoment', hgain'⟩ :=
    exists_turn htypes haddedSuper
  -- the entries that had their turns are ordered like the two descriptors
  have hsize : ∀ {entry descriptor : InterfaceDescriptor},
      entry ∈ (Catalog.ofList descriptors).entries → descriptor ∈ descriptors →
      entry.name = descriptor.name → entry.methods = descriptor.methods := by
    intro entry descriptor hentry hdescriptor hsame
    obtain ⟨_, _, hdescribe⟩ := hdescribed entry (Catalog.mem_ofList.mp hentry)
    obtain ⟨_, _, hdescribe'⟩ := hdescribed descriptor hdescriptor
    exact Store.methods_of_described hdescribe hdescribe' hsame
  have hi := hsize (by rw [hentries]; simp) hsub hname
  have hj := hsize (by rw [hentries']; simp) hsuper hname'
  have hnotFirst : ¬ j.comesBefore i = true := by
    rw [InterfaceDescriptor.comesBefore_iff, hi, hj, hname, hname']
    rintro (hfewer | ⟨hequal, hle⟩)
    · exact hlater (.inl hfewer)
    · refine hlater (.inr ⟨hequal, ?_⟩)
      exact Std.lt_of_le_of_ne hle hnames
  have hne : j ≠ i := by
    rintro rfl
    exact hnames (hname'.symm.trans hname)
  have horder := Catalog.pairwise_ofList descriptors
  rw [hentries'] at horder
  obtain ⟨between, hbetween⟩ := exists_between (hentries'.symm.trans hentries) horder hne hnotFirst
  -- so the sub-interface had been added when the super-interface had its turn
  obtain ⟨more, hmore⟩ := Candidate.foldl_step_after (classOf store f d) d between
    (before ++ [.classType sub.name arguments])
  rw [hbetween, List.foldl_append, List.foldl_cons, hmoment,
    Candidate.step_after_of_some hgain, hmore] at hmoment'
  have hbefore : before ++ [.classType sub.name arguments] ++ more = before' :=
    congrArg Progress.added hmoment'
  have hcovered : store.isCovered j before' = true := by
    refine Store.isCovered_iff.mpr ⟨.classType sub.name arguments, ?_, ?_⟩
    · rw [← hbefore]
      simp
    · rw [InterfaceDescriptor.rawType, hname']
      refine Store.assignable_raw arguments ?_
      exact hbelow.to_reflTransGen.lift id fun _ _ h => h.above
  have hhas : (classOf store f d).has ((classOf store f d).after d before') j = true := by
    rw [Candidate.has, Bool.or_eq_true, Bool.or_eq_true]
    exact .inl (.inr hcovered)
  rw [Candidate.gain?_eq, if_pos hhas] at hgain'
  cases hgain'

/-! ## A class that gets both -/

def runMethod (isAbstract : Bool) : MethodDef :=
  { name := "run", params := [], returnType := .void, isAbstract }

/-- `UrgentTask` extends `Task` and adds nothing to it, and `Job` has the one method. -/
def taskStore : Store := Store.empty.insertAll [
  { name := JavaType.objectName, kind := .plainClass },
  { name := "p.Task", kind := .interface, methods := [runMethod true] },
  { name := "p.UrgentTask", kind := .interface, interfaces := [.raw "p.Task"] },
  { name := "p.Job", kind := .plainClass, superClass := some .object
    methods := [runMethod false] }]

/-- What a class has to provide for either interface. -/
def wantsRun (name : String) : InterfaceDescriptor where
  name := name
  typeParams := []
  methods := [⟨"run", .void, []⟩]
  origin := .classpath

def jobDeclaration : Declaration where
  kind := .plainClass
  name := "Job"
  typeParams := []
  superclass := none
  declared := []
  added := []
  methods := [{
    name := "run", typeParams := [], params := [], returnType := .void
    isStatic := false, isPrivate := false, isAbstract := false, isDefault := false }]
  members := []
  anchor := ⟨20, false⟩

def jobFile : SourceFile where
  path := "Job.java"
  text := "package p;\nclass Job \x7b\n  public void run() \x7b\x7d\n\x7d\n"
  package? := some "p"
  imports := []
  types := [jobDeclaration]

theorem parse?_job : SourceFile.parse? "Job.java" jobFile.text = some jobFile := by
  decide +kernel

/-- What the store knows. -/
theorem taskStore_facts :
    taskStore.find? "p.Task"
      = some { name := "p.Task", kind := .interface, methods := [runMethod true] }
    ∧ taskStore.find? "p.UrgentTask"
      = some { name := "p.UrgentTask", kind := .interface, interfaces := [.raw "p.Task"] }
    ∧ taskStore.contains "p.Job" = true
    ∧ taskStore.ancestors "p.Job" = .ok [.object]
    ∧ (taskStore.matchClass "p.Job" (wantsRun "p.Task")).isSome = true
    ∧ (taskStore.matchClass "p.Job" (wantsRun "p.UrgentTask")).isSome = true
    ∧ (∀ name ∈ ["p.Task", "p.UrgentTask"],
        taskStore.assignableWithin 4 (.raw name) .object = some (.ok false))
    ∧ taskStore.assignableWithin 4 (.raw "p.UrgentTask") (.raw "p.Task") = some (.ok false) := by
  decide +kernel

/-- An interface with the method `run` and nothing above it wants that method. -/
theorem describe_run {store : Store} {name : String}
    (h : store.find? name = some { name, kind := .interface, methods := [runMethod true] }) :
    store.describe name .classpath = some (wantsRun name) := by
  rw [Store.describe_alone h rfl rfl]
  rfl

theorem describe_task : taskStore.describe "p.Task" .classpath = some (wantsRun "p.Task")
    ∧ taskStore.describe "p.UrgentTask" .classpath = some (wantsRun "p.UrgentTask") := by
  obtain ⟨htask, hurgent, -⟩ := taskStore_facts
  have huses : taskStore.superInterfaceUses
      { name := "p.UrgentTask", kind := .interface, interfaces := [.raw "p.Task"] }
      (fun _ => none) = [("p.Task", fun _ => none)] := by
    simp only [Store.superInterfaceUses, JavaType.raw, List.filterMap_cons, List.filterMap_nil,
      JavaType.substitute, JavaType.substituteAll, htask, Option.elim_some]
    rfl
  refine ⟨describe_run htask, ?_⟩
  rw [Store.describe_eq_some hurgent rfl, Store.interfaceVisits_cons hurgent List.not_mem_nil,
    huses, List.append_nil, Store.interfaceVisits_cons htask (by decide)]
  simp only [Store.superInterfaceUses, List.filterMap_nil, List.append_nil,
    Store.interfaceVisits]
  rfl

/-- The two interfaces come in the order of their names. -/
theorem ofList_task : Catalog.ofList [wantsRun "p.Task", wantsRun "p.UrgentTask"]
    = ⟨[wantsRun "p.Task", wantsRun "p.UrgentTask"]⟩ := by
  rw [Catalog.ofList, List.mergeSort_of_pairwise (by decide)]

theorem has_task :
    (classOf taskStore jobFile jobDeclaration).has
      ((classOf taskStore jobFile jobDeclaration).after jobDeclaration []) (wantsRun "p.Task")
        = false
    ∧ (classOf taskStore jobFile jobDeclaration).has
      ((classOf taskStore jobFile jobDeclaration).after jobDeclaration [.raw "p.Task"])
        (wantsRun "p.UrgentTask") = false := by
  obtain ⟨-, -, -, hancestors, -, -, habove, hbetween⟩ := taskStore_facts
  have hredundant : ∀ name ∈ ["p.Task", "p.UrgentTask"],
      taskStore.isRedundant "p.Job" (wantsRun name) = false := by
    intro name hname
    exact Store.isRedundant_of_root hancestors (Store.assignable_of_within (habove name hname))
  have hcovered : taskStore.isCovered (wantsRun "p.UrgentTask") [.raw "p.Task"] = false := by
    have hassignable : taskStore.assignable (wantsRun "p.UrgentTask").rawType (.raw "p.Task")
        = some (.ok false) := Store.assignable_of_within hbetween
    rw [← Bool.not_eq_true, Store.isCovered_iff]
    simp [hassignable]
  have hnames : (jobFile.scope taskStore).namesInterface (header jobDeclaration)
        ((classOf taskStore jobFile jobDeclaration).after jobDeclaration []).declaration
        (wantsRun "p.Task") = false
      ∧ (jobFile.scope taskStore).namesInterface (header jobDeclaration)
        ((classOf taskStore jobFile jobDeclaration).after jobDeclaration
          [.raw "p.Task"]).declaration (wantsRun "p.UrgentTask") = false := by
    decide
  constructor
  · rw [Candidate.has, Bool.or_eq_false_iff, Bool.or_eq_false_iff]
    exact ⟨⟨hredundant _ (by simp), rfl⟩, hnames.1⟩
  · rw [Candidate.has, Bool.or_eq_false_iff, Bool.or_eq_false_iff]
    exact ⟨⟨hredundant _ (by simp), hcovered⟩, hnames.2⟩

/-- `Job` gets `Task`, which comes first, and then `UrgentTask` too. -/
theorem additions_task : ∃ result,
    declaration? taskStore (Catalog.ofList [wantsRun "p.Task", wantsRun "p.UrgentTask"]) 1 jobFile
        jobDeclaration = some result
      ∧ result.2.map Addition.interface = ["p.Task", "p.UrgentTask"] := by
  obtain ⟨-, -, hcontains, -, hmatch, hmatch', -⟩ := taskStore_facts
  obtain ⟨b, hb⟩ := Option.isSome_iff_exists.mp hmatch
  obtain ⟨b', hb'⟩ := Option.isSome_iff_exists.mp hmatch'
  have hgain : (classOf taskStore jobFile jobDeclaration).gain?
      ((classOf taskStore jobFile jobDeclaration).after jobDeclaration []) (wantsRun "p.Task")
        = some (.raw "p.Task") := by
    have hwanted : (classOf taskStore jobFile jobDeclaration).wanted? (wantsRun "p.Task")
        = some (.raw "p.Task") := Candidate.wanted?_eq_some.mpr ⟨by decide, b, hb, rfl⟩
    rw [Candidate.gain?_eq, has_task.1, if_neg Bool.false_ne_true, hwanted]
  have hgain' : (classOf taskStore jobFile jobDeclaration).gain?
      ((classOf taskStore jobFile jobDeclaration).after jobDeclaration [.raw "p.Task"])
        (wantsRun "p.UrgentTask") = some (.raw "p.UrgentTask") := by
    have hwanted : (classOf taskStore jobFile jobDeclaration).wanted? (wantsRun "p.UrgentTask")
        = some (.raw "p.UrgentTask") := Candidate.wanted?_eq_some.mpr ⟨by decide, b', hb', rfl⟩
    rw [Candidate.gain?_eq, has_task.2, if_neg Bool.false_ne_true, hwanted]
  have hends : ∀ i ∈ (Catalog.ofList [wantsRun "p.Task", wantsRun "p.UrgentTask"]).entries,
      (classOf taskStore jobFile jobDeclaration).Ends i := by
    rw [ofList_task, List.forall_mem_cons, List.forall_mem_singleton]
    exact ⟨Candidate.ends_of_matchClass hb, Candidate.ends_of_matchClass hb'⟩
  refine ⟨_, (declaration?_of_known (show jobDeclaration.kind = .plainClass
    ∧ taskStore.contains (jobFile.qualify jobDeclaration.name) = true from ⟨rfl, hcontains⟩)).mpr
    ⟨hends, [.raw "p.Task", .raw "p.UrgentTask"], ?_, rfl⟩, rfl⟩
  rw [ofList_task, List.foldl_cons, Candidate.step_after_of_some hgain, List.nil_append,
    List.foldl_cons, Candidate.step_after_of_some hgain', List.foldl_nil]
  rfl

/-- `UrgentTask` is a proper sub-interface of `Task`. -/
theorem task_above : Relation.TransGen taskStore.Extends "p.UrgentTask" "p.Task"
    ∧ ¬ Relation.TransGen taskStore.Extends "p.Task" "p.UrgentTask" := by
  obtain ⟨htask, hurgent, -⟩ := taskStore_facts
  constructor
  · exact .single ⟨_, hurgent, List.mem_singleton_self _⟩
  · -- nothing is above `Task`
    intro h
    obtain ⟨_, ⟨d, hd, hmem⟩, -⟩ := Relation.TransGen.head'_iff.mp h
    rw [htask, Option.some.injEq] at hd
    subst hd
    cases hmem

/-- `Job` gets both, and the catalog puts `Task` first. -/
theorem super_first_task : (∀ i ∈ [wantsRun "p.Task", wantsRun "p.UrgentTask"],
      ∃ name origin, taskStore.describe name origin = some i)
    ∧ Relation.TransGen taskStore.Extends "p.UrgentTask" "p.Task"
    ∧ ¬ Relation.TransGen taskStore.Extends "p.Task" "p.UrgentTask"
    ∧ (∃ result, declaration? taskStore
          (Catalog.ofList [wantsRun "p.Task", wantsRun "p.UrgentTask"]) 1 jobFile jobDeclaration
            = some result
        ∧ ∀ name ∈ ["p.Task", "p.UrgentTask"], name ∈ result.2.map Addition.interface)
    ∧ ((wantsRun "p.UrgentTask").methods.length < (wantsRun "p.Task").methods.length
      ∨ ((wantsRun "p.UrgentTask").methods.length = (wantsRun "p.Task").methods.length
        ∧ (wantsRun "p.Task").name < (wantsRun "p.UrgentTask").name)) := by
  have hdescribed : ∀ i ∈ [wantsRun "p.Task", wantsRun "p.UrgentTask"],
      ∃ name origin, taskStore.describe name origin = some i := by
    rw [List.forall_mem_cons, List.forall_mem_singleton]
    exact ⟨⟨_, _, describe_task.1⟩, ⟨_, _, describe_task.2⟩⟩
  obtain ⟨result, hresult, hnames⟩ := additions_task
  have hadded : ∀ name ∈ ["p.Task", "p.UrgentTask"], name ∈ result.2.map Addition.interface := by
    rw [hnames]
    exact fun _ h => h
  exact ⟨hdescribed, task_above.1, task_above.2, ⟨result, hresult, hadded⟩,
    super_first_of_both_added hdescribed (by simp) (by simp) task_above.1 task_above.2 hresult
      (hadded "p.UrgentTask" (by simp)) (hadded "p.Task" (by simp))⟩

/-- **A sub-interface need not keep a class from getting its super-interface.** -/
theorem both_added_task : ∃ (store : Store) (descriptors : List InterfaceDescriptor) (f : SourceFile)
    (d : Declaration) (sub super : String) (result : Declaration × List Addition),
      (∀ i ∈ descriptors, ∃ name origin, store.describe name origin = some i)
      ∧ SourceFile.parse? f.path f.text = some f ∧ d ∈ f.types
      ∧ Relation.TransGen store.Extends sub super
      ∧ ¬ Relation.TransGen store.Extends super sub
      ∧ declaration? store (Catalog.ofList descriptors) 1 f d = some result
      ∧ sub ∈ result.2.map Addition.interface ∧ super ∈ result.2.map Addition.interface := by
  obtain ⟨result, hresult, hnames⟩ := additions_task
  refine ⟨taskStore, [wantsRun "p.Task", wantsRun "p.UrgentTask"], jobFile, jobDeclaration,
    "p.UrgentTask", "p.Task", result, ?_, parse?_job, List.mem_singleton_self _, task_above.1,
    task_above.2, hresult, ?_, ?_⟩
  · rw [List.forall_mem_cons, List.forall_mem_singleton]
    exact ⟨⟨_, _, describe_task.1⟩, ⟨_, _, describe_task.2⟩⟩
  · rw [hnames]
    simp
  · rw [hnames]
    simp

end Retrofit

end Conformance
