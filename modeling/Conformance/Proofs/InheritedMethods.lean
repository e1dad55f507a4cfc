import Conformance.Proofs.DepthFirst

/-!
# The methods that an interface asks for

An interface asks for what it and the interfaces above it declare, each method as it is seen on the
chain on which its interface is visited. Methods of all objects are left out, and of methods that
are the same to a caller the one on the first chain stays (`describe_gathers`).

That need not be the method that overrides the others. Where an interface inherits a method from
two interfaces of which one extends the other, the result type is that of the extended one if some
chain leads there ahead of all chains to the one that extends it (`entry_of_two`), which comes
down to the order in which the interfaces are named (`overridden_wins`).
-/

namespace Conformance

/-! ## Methods of all objects -/

/-- A method with the signature of one that every object has. -/
def WantedMethod.IsObjectMethod (m : WantedMethod) : Prop :=
  (m.name = "equals" ∧ ∃ param, m.params = [param] ∧ param.isObject = true)
    ∨ (m.name ∈ ["hashCode", "toString", "getClass"] ∧ m.params = [])

theorem MethodDef.isObjectMethod_iff (m : MethodDef) : m.isObjectMethod = true
    ↔ WantedMethod.IsObjectMethod ⟨m.name, m.returnType, m.params⟩ := by
  unfold isObjectMethod WantedMethod.IsObjectMethod
  split
  · next param hname hparams => simp [hname, hparams]
  · next hname hparams => simp [hname, hparams]
  · next hname hparams => simp [hname, hparams]
  · next hname hparams => simp [hname, hparams]
  · next hequals hhash htext hclass =>
    simp only [Bool.false_eq_true, false_iff, not_or, not_and, not_exists]
    refine ⟨fun hname param hparams => absurd hparams (hequals param hname),
      fun hname hparams => ?_⟩
    simp only [List.mem_cons, List.not_mem_nil, or_false] at hname
    rcases hname with hname | hname | hname
    · exact hhash hname hparams
    · exact htext hname hparams
    · exact hclass hname hparams

theorem WantedMethod.sameSignature_iff {m n : WantedMethod} :
    m.sameSignature n = true ↔ m.name = n.name ∧ m.params = n.params := by
  rw [sameSignature, Bool.and_eq_true, decide_eq_true_iff, decide_eq_true_iff]

namespace Store

/-! ## What is declared on a chain -/

/-- The interface that a chain leads to declares a method, which can be called on instances and is
seen on the chain, without type parameters of its own, as the given one. -/
def Declares (store : Store) (name : String) (chain : List Nat) (m : WantedMethod) : Prop :=
  ∃ d s, store.metOn? (ownUse name) chain = some (d, s) ∧ ∃ n ∈ d.methods, n.isStatic = false
    ∧ n.isPrivate = false ∧ m =
      { name := n.name, returnType := n.eraseTypeParams.returnType.substitute s
        params := JavaType.substituteAll s n.eraseTypeParams.params }

/-- What the interface that a chain leads to asks for by what it declares itself. -/
def askedOn (store : Store) (name : String) (chain : List Nat) : List WantedMethod :=
  (store.metOn? (ownUse name) chain).elim [] fun met => met.1.wantedMethods met.2

/-- What the interfaces on some chains ask for, without those methods that are the same to a caller
as one before them. -/
structure Gathers (store : Store) (name : String) (taken : List (List Nat))
    (methods : List WantedMethod) : Prop where
  distinct : methods.Pairwise fun m n => ¬ (m.name = n.name ∧ m.params = n.params)
  noObject : ∀ m ∈ methods, ¬ m.IsObjectMethod
  declared : ∀ m ∈ methods, ∃ chain ∈ taken, store.Declares name chain m
  covered : ∀ chain ∈ taken, ∀ m, store.Declares name chain m → ¬ m.IsObjectMethod →
    ∃ n ∈ methods, n.name = m.name ∧ n.params = m.params
  /-- The first one stays, in the order of the chains and, on one chain, of the declarations. -/
  first : ∀ m, m ∈ methods ↔ ∃ before after, taken.flatMap (store.askedOn name)
    = before ++ m :: after ∧ ∀ n ∈ before, ¬ (n.name = m.name ∧ n.params = m.params)

variable {store : Store} {name : String} {d : ClassDef} {taken : List (List Nat)}

theorem mem_wantedMethods {s : Substitution} {m : WantedMethod} : m ∈ d.wantedMethods s
    ↔ (∃ n ∈ d.methods, n.isStatic = false ∧ n.isPrivate = false ∧ m =
        { name := n.name, returnType := n.eraseTypeParams.returnType.substitute s
          params := JavaType.substituteAll s n.eraseTypeParams.params }) ∧ ¬ m.IsObjectMethod := by
  simp only [ClassDef.wantedMethods, List.mem_map, List.mem_filter, Bool.not_eq_true']
  constructor
  · rintro ⟨-, ⟨⟨n, ⟨hn, hinstance⟩, rfl⟩, hobject⟩, rfl⟩
    simp only [MethodDef.isInstanceApi, Bool.and_eq_true, Bool.not_eq_true'] at hinstance
    refine ⟨⟨n, hn, hinstance.1, hinstance.2, rfl⟩, fun h => ?_⟩
    rw [(MethodDef.isObjectMethod_iff _).mpr h] at hobject
    cases hobject
  · rintro ⟨⟨n, hn, hstatic, hprivate, rfl⟩, hobject⟩
    refine ⟨n.eraseTypeParams.substitute s, ⟨⟨n, ⟨hn, ?_⟩, rfl⟩, ?_⟩, rfl⟩
    · rw [MethodDef.isInstanceApi, hstatic, hprivate]
      rfl
    · rw [← Bool.not_eq_true, MethodDef.isObjectMethod_iff]
      exact hobject

theorem mem_askedOn {chain : List Nat} {m : WantedMethod} :
    m ∈ store.askedOn name chain ↔ store.Declares name chain m ∧ ¬ m.IsObjectMethod := by
  unfold askedOn Declares
  cases hmet : store.metOn? (ownUse name) chain with
  | none => simp
  | some met =>
    rw [Option.elim_some, mem_wantedMethods]
    simp only [Option.some.injEq]
    constructor
    · rintro ⟨h, hobject⟩
      exact ⟨⟨met.1, met.2, rfl, h⟩, hobject⟩
    · rintro ⟨⟨e, s, rfl, h⟩, hobject⟩
      exact ⟨h, hobject⟩

/-! ## Descriptions -/

/-- Those methods of some chains stay that no earlier one stands for. -/
theorem gathers_keepFirst (store : Store) (name : String) (taken : List (List Nat)) :
    store.Gathers name taken
      (keepFirst WantedMethod.sameSignature (taken.flatMap (store.askedOn name))) where
  distinct := by
    refine (pairwise_keepFirst ..).imp fun {m n} hmn => ?_
    rw [← WantedMethod.sameSignature_iff, hmn]
    exact Bool.false_ne_true
  noObject := by
    intro m hm
    obtain ⟨chain, -, hm⟩ := List.mem_flatMap.mp (mem_of_mem_keepFirst hm)
    exact (mem_askedOn.mp hm).2
  declared := by
    intro m hm
    obtain ⟨chain, hchain, hm⟩ := List.mem_flatMap.mp (mem_of_mem_keepFirst hm)
    exact ⟨chain, hchain, (mem_askedOn.mp hm).1⟩
  covered := by
    intro chain hchain m hm hobject
    have hasked : m ∈ taken.flatMap (store.askedOn name) :=
      List.mem_flatMap.mpr ⟨chain, hchain, mem_askedOn.mpr ⟨hm, hobject⟩⟩
    -- of the methods with this signature the first one stays
    have hsome : ((taken.flatMap (store.askedOn name)).find? (·.sameSignature m)).isSome :=
      List.find?_isSome.mpr ⟨m, hasked, WantedMethod.sameSignature_iff.mpr ⟨rfl, rfl⟩⟩
    obtain ⟨n, hn⟩ := Option.isSome_iff_exists.mp hsome
    obtain ⟨hsame, before, after, hlist, hbefore⟩ := List.find?_eq_some_iff_append.mp hn
    rw [WantedMethod.sameSignature_iff] at hsame
    refine ⟨n, mem_keepFirst_iff.mpr ⟨before, after, hlist, fun k hk => ?_⟩, hsame⟩
    have hother := hbefore k hk
    rw [Bool.not_eq_true', ← Bool.not_eq_true, WantedMethod.sameSignature_iff] at hother
    rw [← Bool.not_eq_true, WantedMethod.sameSignature_iff, hsame.1, hsame.2]
    exact hother
  first := by
    intro m
    rw [mem_keepFirst_iff]
    simp only [← Bool.not_eq_true, WantedMethod.sameSignature_iff]

/-- An interface is described by what is visited. -/
theorem describe_visited (hd : store.find? name = some d) (hi : d.isInterface = true)
    (htaken : store.VisitedOn name taken) (origin : InterfaceOrigin) :
    store.describe name origin = some {
      name, typeParams := d.typeParamNames, origin
      methods := keepFirst WantedMethod.sameSignature (taken.flatMap (store.askedOn name)) } := by
  obtain ⟨taken', htaken', hvisits⟩ := exists_depthFirst store name
  obtain rfl := htaken.unique htaken'
  rw [describe_eq_some hd hi]
  congr 3
  have hasked : ∀ chain, store.askedOn name chain
      = (store.metOn? (ownUse name) chain).elim [] fun met => met.1.wantedMethods met.2 :=
    fun _ => rfl
  calc (store.interfaceVisits [] [ownUse name]).flatMap (fun met => met.1.wantedMethods met.2)
      = ((store.interfaceVisits [] [ownUse name]).map some).flatMap fun met? =>
          met?.elim [] fun met => met.1.wantedMethods met.2 := by
        rw [List.flatMap_map]
        rfl
    _ = taken.flatMap (store.askedOn name) := by
        rw [hvisits, List.flatMap_map]
        rfl

/-- **What an interface asks for.** Its description lists, each once, the methods of the interface
and of all that can be reached above it, as they are seen on the chains of a visit that goes depth
first, apart from those that every object has. -/
theorem describe_gathers (hd : store.find? name = some d) (hi : d.isInterface = true)
    (origin : InterfaceOrigin) :
    ∃ methods taken,
      store.describe name origin = some { name, typeParams := d.typeParamNames, methods, origin }
      ∧ store.VisitedOn name taken ∧ store.Gathers name taken methods
      ∧ ∀ above e, Relation.ReflTransGen store.Extends name above → store.find? above = some e →
        ∃ chain ∈ taken, store.nameOn? (ownUse name) chain = some above := by
  obtain ⟨taken, htaken, -⟩ := exists_depthFirst store name
  exact ⟨_, taken, describe_visited hd hi htaken origin, htaken, gathers_keepFirst store name taken,
    fun above e hreach he => htaken.reaches hreach he⟩

/-- `Box<E> extends Top<E>, Missing, Named`, with two methods of its own. -/
def boxInterface : ClassDef where
  name := "p.Box"
  kind := .interface
  typeParams := [{ name := "E" }]
  interfaces := [.classType "p.Top" [.typeVar "E"], .raw "p.Missing", .raw "p.Named"]
  methods := [{ name := "get", params := [], returnType := .typeVar "E" },
    { name := "convert", typeParams := [{ name := "X", upperBounds := [.raw "java.lang.Number"] }]
      params := [.typeVar "X"], returnType := .typeVar "X" }]

/-- `Top<T> extends Box`, with methods of all kinds. -/
def boxTopInterface : ClassDef where
  name := "p.Top"
  kind := .interface
  typeParams := [{ name := "T" }]
  interfaces := [.raw "p.Box"]
  methods := [{ name := "get", params := [], returnType := .typeVar "T" },
    { name := "put", params := [.typeVar "T"], returnType := .void },
    { name := "equals", params := [.object], returnType := .primitive .boolean },
    { name := "make", params := [], returnType := .raw "p.Top", isStatic := true },
    { name := "check", params := [.typeVar "T"], returnType := .void, isPrivate := true }]

/-- `Named extends Top<String>`. -/
def boxNamedInterface : ClassDef where
  name := "p.Named"
  kind := .interface
  interfaces := [.classType "p.Top" [.raw "java.lang.String"]]
  methods := [{ name := "name", params := [], returnType := .raw "java.lang.String" },
    { name := "hashCode", params := [], returnType := .primitive .int }]

def boxStore : Store := empty.insertAll [boxInterface, boxTopInterface, boxNamedInterface]

/-- `Top` is visited as `Top<E>`, and not again from `Named`. -/
theorem boxStore_visits : boxStore.interfaceVisits [] [ownUse "p.Box"]
    = [(boxInterface, fun _ => none),
      (boxTopInterface, boxTopInterface.instantiation [.typeVar "E"]),
      (boxNamedInterface, boxNamedInterface.instantiation [])] := by
  have hbox : boxStore.find? "p.Box" = some boxInterface := by decide
  have htop : boxStore.find? "p.Top" = some boxTopInterface := by decide
  have hnamed : boxStore.find? "p.Named" = some boxNamedInterface := by decide
  have hmissing : boxStore.find? "p.Missing" = none := by decide
  have huses : boxStore.superInterfaceUses boxInterface (fun _ => none)
      = [("p.Top", boxTopInterface.instantiation [.typeVar "E"]), ("p.Missing", fun _ => none),
        ("p.Named", boxNamedInterface.instantiation [])] := by
    simp only [superInterfaceUses, boxInterface, List.filterMap_cons, List.filterMap_nil,
      JavaType.substitute, JavaType.substituteAll, JavaType.raw, htop, hmissing, hnamed,
      Option.elim_some, Option.elim_none, Option.getD_none]
  have htopUses : ∀ s, boxStore.superInterfaceUses boxTopInterface s
      = [("p.Box", boxInterface.instantiation [])] := by
    intro s
    simp only [superInterfaceUses, boxTopInterface, List.filterMap_cons, List.filterMap_nil,
      JavaType.substitute, JavaType.substituteAll, JavaType.raw, hbox, Option.elim_some]
  have hnamedUses : ∀ s, boxStore.superInterfaceUses boxNamedInterface s
      = [("p.Top", boxTopInterface.instantiation [.raw "java.lang.String"])] := by
    intro s
    simp only [superInterfaceUses, boxNamedInterface, List.filterMap_cons, List.filterMap_nil,
      JavaType.substitute, JavaType.substituteAll, JavaType.raw, htop, Option.elim_some]
  rw [ownUse, interfaceVisits_cons hbox List.not_mem_nil, huses, List.append_nil,
    interfaceVisits_cons htop (by decide), htopUses, List.singleton_append,
    interfaceVisits_seen (by decide), interfaceVisits_missing hmissing (by decide),
    interfaceVisits_cons hnamed (by decide), hnamedUses, List.append_nil,
    interfaceVisits_seen (by decide), interfaceVisits]

/-- What is asked for, though the interfaces go round in a circle and one of them is missing. -/
theorem boxStore_gathers : boxStore.find? "p.Box" = some boxInterface
    ∧ boxInterface.isInterface = true
    ∧ ∃ taken, boxStore.describe "p.Box" .classpath = some {
        name := "p.Box", typeParams := ["E"], origin := .classpath
        methods := [⟨"get", .typeVar "E", []⟩,
          ⟨"convert", .raw "java.lang.Number", [.raw "java.lang.Number"]⟩,
          ⟨"put", .void, [.typeVar "E"]⟩, ⟨"name", .raw "java.lang.String", []⟩] }
      ∧ boxStore.VisitedOn "p.Box" taken
      ∧ boxStore.Gathers "p.Box" taken [⟨"get", .typeVar "E", []⟩,
          ⟨"convert", .raw "java.lang.Number", [.raw "java.lang.Number"]⟩,
          ⟨"put", .void, [.typeVar "E"]⟩, ⟨"name", .raw "java.lang.String", []⟩]
      ∧ ∀ above e, Relation.ReflTransGen boxStore.Extends "p.Box" above →
        boxStore.find? above = some e →
        ∃ chain ∈ taken, boxStore.nameOn? (ownUse "p.Box") chain = some above := by
  have hbox : boxStore.find? "p.Box" = some boxInterface := by decide
  obtain ⟨methods, taken, hdescribe, htaken, hgathers, hreach⟩ :=
    describe_gathers hbox rfl .classpath
  have hmethods : keepFirst WantedMethod.sameSignature
      ((boxStore.interfaceVisits [] [ownUse "p.Box"]).flatMap fun e => e.1.wantedMethods e.2)
      = [⟨"get", .typeVar "E", []⟩,
        ⟨"convert", .raw "java.lang.Number", [.raw "java.lang.Number"]⟩,
        ⟨"put", .void, [.typeVar "E"]⟩, ⟨"name", .raw "java.lang.String", []⟩] := by
    rw [boxStore_visits]
    rfl
  have hsame := hdescribe.symm.trans (describe_eq_some hbox rfl)
  obtain rfl := (congrArg InterfaceDescriptor.methods (Option.some.inj hsame)).trans hmethods
  exact ⟨hbox, rfl, taken, hdescribe, htaken, hgathers, hreach⟩

/-! ## Overridden methods -/

/-- An interface that is visited when another one is described asks for a method there. -/
def Inherits (store : Store) (name above : String) (m : WantedMethod) : Prop :=
  ∃ taken, store.VisitedOn name taken ∧ ∃ chain ∈ taken,
    store.nameOn? (ownUse name) chain = some above ∧ m ∈ store.askedOn name chain

/-- A chain leads from an interface to another one and meets none twice. -/
def LeadsTo (store : Store) (name above : String) (chain : List Nat) : Prop :=
  store.Simple (ownUse name) chain ∧ store.nameOn? (ownUse name) chain = some above

/-- An interface inherits methods of one signature from just two interfaces, with different
results. -/
structure InheritsTwice (store : Store) (name derived base : String) (m n : WantedMethod) :
    Prop where
  fromDerived : store.Inherits name derived m
  fromBase : store.Inherits name base n
  apart : derived ≠ base
  sameSignature : n.name = m.name ∧ n.params = m.params
  differ : n.returnType ≠ m.returnType
  only : ∀ above o, store.Inherits name above o → o.name = m.name ∧ o.params = m.params →
    (above = derived ∧ o = m) ∨ (above = base ∧ o = n)

/-- The interfaces that ask for something are those visited. -/
theorem inherits_iff {above : String} {m : WantedMethod} : store.Inherits name above m
    ↔ ∃ met ∈ store.interfaceVisits [] [ownUse name],
      met.1.name = above ∧ m ∈ met.1.wantedMethods met.2 := by
  obtain ⟨taken, htaken, hvisits⟩ := exists_depthFirst store name
  constructor
  · rintro ⟨taken', htaken', chain, hchain, hname, hm⟩
    obtain rfl := htaken.unique htaken'
    obtain ⟨met, hmet, rfl⟩ := Option.map_eq_some_iff.mp hname
    have hmem : some met ∈ (store.interfaceVisits [] [ownUse name]).map some :=
      hvisits ▸ List.mem_map.mpr ⟨chain, hchain, hmet⟩
    obtain ⟨met', hmet', heq⟩ := List.mem_map.mp hmem
    obtain rfl := Option.some.inj heq
    rw [askedOn, hmet] at hm
    exact ⟨met', hmet', rfl, hm⟩
  · rintro ⟨met, hmet, rfl, hm⟩
    have hmem : some met ∈ taken.map (store.metOn? (ownUse name)) :=
      hvisits ▸ List.mem_map_of_mem hmet
    obtain ⟨chain, hchain, hmet⟩ := List.mem_map.mp hmem
    refine ⟨taken, htaken, chain, hchain, by rw [nameOn?, hmet]; rfl, ?_⟩
    rw [askedOn, hmet]
    exact hm

/-- Of two interfaces the one is visited first to which some chain leads ahead of all chains to the
other. -/
theorem VisitedOn.lt_iff (htaken : store.VisitedOn name taken) (htypes : store.ExtendsTypes)
    {chain other : List Nat} {above above' : String} (hchain : chain ∈ taken)
    (hother : other ∈ taken) (hname : store.nameOn? (ownUse name) chain = some above)
    (hname' : store.nameOn? (ownUse name) other = some above') :
    chain < other ↔ ∃ front, store.LeadsTo name above front
      ∧ ∀ back, store.LeadsTo name above' back → front < back := by
  have hleast : ∀ {c : List Nat} {n : String}, c ∈ taken →
      store.nameOn? (ownUse name) c = some n → ∀ back, store.LeadsTo name n back → c ≤ back := by
    intro c n hc hn back hback
    obtain ⟨first, hfirst, hle, hsame⟩ := htaken.first_chain htypes hback.1 hback.2
    obtain rfl := htaken.distinct c hc first hfirst (hn.trans hsame.symm)
    exact hle
  constructor
  · intro hlt
    exact ⟨chain, ⟨htaken.simple_of_mem hchain, hname⟩,
      fun back hback => hlt.trans_le (hleast hother hname' back hback)⟩
  · rintro ⟨front, hfront, hahead⟩
    exact (hleast hchain hname front hfront).trans_lt
      (hahead other ⟨htaken.simple_of_mem hother, hname'⟩)

/-- No two of the methods are the same to a caller, so there is one entry for a signature. -/
theorem Gathers.filter_eq {methods : List WantedMethod} (h : store.Gathers name taken methods)
    {m entry : WantedMethod} (hentry : entry ∈ methods)
    (hsame : entry.name = m.name ∧ entry.params = m.params) :
    methods.filter (fun o => o.name = m.name ∧ o.params = m.params) = [entry] := by
  have hmem : entry ∈ methods.filter (fun o => o.name = m.name ∧ o.params = m.params) :=
    List.mem_filter.mpr ⟨hentry, decide_eq_true hsame⟩
  have hall : ∀ o ∈ methods.filter (fun o => o.name = m.name ∧ o.params = m.params),
      o.name = m.name ∧ o.params = m.params := fun o ho =>
    of_decide_eq_true (List.mem_filter.mp ho).2
  have hdistinct := h.distinct.filter fun o => decide (o.name = m.name ∧ o.params = m.params)
  cases hl : methods.filter (fun o => o.name = m.name ∧ o.params = m.params) with
  | nil =>
    rw [hl] at hmem
    cases hmem
  | cons first others =>
    rw [hl] at hmem hall hdistinct
    cases others with
    | nil => rw [List.mem_singleton.mp hmem]
    | cons second others =>
      have hfirst := hall first (by simp)
      have hsecond := hall second (by simp)
      exact absurd ⟨hfirst.1.trans hsecond.1.symm, hfirst.2.trans hsecond.2.symm⟩
        ((List.pairwise_cons.mp hdistinct).1 second (by simp))

/-- What stays of a signature is asked for on the first chain on which it is asked for. -/
theorem Gathers.exists_first {methods : List WantedMethod} (h : store.Gathers name taken methods)
    (hordered : taken.Pairwise (· < ·)) {m : WantedMethod} {chain : List Nat}
    (hchain : chain ∈ taken) (hm : m ∈ store.askedOn name chain) :
    ∃ entry ∈ methods, (entry.name = m.name ∧ entry.params = m.params) ∧ ∃ first ∈ taken,
      entry ∈ store.askedOn name first ∧ ∀ other ∈ taken, ∀ o ∈ store.askedOn name other,
        o.name = m.name ∧ o.params = m.params → first ≤ other := by
  have hsome : ((taken.flatMap (store.askedOn name)).find?
      fun o => o.name = m.name ∧ o.params = m.params).isSome :=
    List.find?_isSome.mpr ⟨m, List.mem_flatMap.mpr ⟨chain, hchain, hm⟩, by simp⟩
  obtain ⟨entry, hentry⟩ := Option.isSome_iff_exists.mp hsome
  obtain ⟨hsame, before, after, hlist, hbefore⟩ := List.find?_eq_some_iff_append.mp hentry
  rw [decide_eq_true_iff] at hsame
  have hmem : entry ∈ methods := by
    refine (h.first entry).mpr ⟨before, after, hlist, fun n hn => ?_⟩
    have hother := hbefore n hn
    rw [Bool.not_eq_true', decide_eq_false_iff_not] at hother
    rwa [hsame.1, hsame.2]
  rw [List.find?_flatMap, List.findSome?_eq_some_iff] at hentry
  obtain ⟨pre, first, post, rfl, hfound, hnone⟩ := hentry
  refine ⟨entry, hmem, hsame, first, by simp, List.mem_of_find?_eq_some hfound, ?_⟩
  intro other hother o ho hsig
  rw [List.pairwise_append, List.pairwise_cons] at hordered
  rcases List.mem_append.mp hother with hother | hother
  · -- nothing before the first chain asks for the signature
    have := List.find?_eq_none.mp (hnone other hother) o ho
    exact absurd (decide_eq_true hsig) this
  · rcases List.mem_cons.mp hother with rfl | hother
    · exact le_refl _
    · exact (hordered.2.1.1 other hother).le

/-- **Which of two inherited methods stays.** Where one signature is inherited from two interfaces,
the result is that of the base exactly if some chain leads there ahead of all chains to the derived
one; never, if all chains to the base lead through the derived one. -/
theorem entry_of_two (htypes : store.ExtendsTypes) (hd : store.find? name = some d)
    (hi : d.isInterface = true) {derived base : String} {m n : WantedMethod}
    (h : store.InheritsTwice name derived base m n) (origin : InterfaceOrigin) :
    ∃ i entry, store.describe name origin = some i
      ∧ i.methods.filter (fun o => o.name = m.name ∧ o.params = m.params) = [entry]
      ∧ (entry.returnType = n.returnType ↔ ∃ chain, store.LeadsTo name base chain
          ∧ ∀ other, store.LeadsTo name derived other → chain < other)
      ∧ (entry.returnType = m.returnType ↔ entry.returnType ≠ n.returnType)
      ∧ ((∀ chain, store.LeadsTo name base chain →
            ∃ front, front <+: chain ∧ store.nameOn? (ownUse name) front = some derived) →
          entry.returnType = m.returnType) := by
  obtain ⟨taken, htaken, chain, hchain, hderived, hm⟩ := h.fromDerived
  obtain ⟨taken', htaken', chain', hchain', hbase, hn⟩ := h.fromBase
  obtain rfl := htaken.unique htaken'
  have hgathers := gathers_keepFirst store name taken
  obtain ⟨entry, hentry, hsame, first, hfirst, hasked, hleast⟩ :=
    hgathers.exists_first htaken.ordered hchain hm
  have horder := htaken.lt_iff htypes hchain' hchain hbase hderived
  obtain ⟨above, habove, -⟩ := htaken.leads first hfirst
  have hcases := h.only above entry ⟨taken, htaken, first, hfirst, habove, hasked⟩ hsame
  have hresult : (entry.returnType = n.returnType ↔ chain' < chain)
      ∧ (entry.returnType = m.returnType ↔ entry.returnType ≠ n.returnType) := by
    rcases hcases with ⟨rfl, rfl⟩ | ⟨rfl, rfl⟩
    · obtain rfl := htaken.distinct first hfirst chain hchain (habove.trans hderived.symm)
      have hle := hleast chain' hchain' n hn h.sameSignature
      exact ⟨iff_of_false h.differ.symm hle.not_gt, iff_of_true rfl h.differ.symm⟩
    · obtain rfl := htaken.distinct first hfirst chain' hchain' (habove.trans hbase.symm)
      have hle := hleast chain hchain m hm ⟨rfl, rfl⟩
      have hne : first ≠ chain := by
        rintro rfl
        exact h.apart (Option.some.inj (hderived.symm.trans hbase))
      exact ⟨iff_of_true rfl (lt_of_le_of_ne hle hne),
        iff_of_false h.differ (not_not_intro rfl)⟩
  refine ⟨_, entry, describe_visited hd hi htaken origin, hgathers.filter_eq hentry hsame,
    hresult.1.trans horder, hresult.2, fun hthrough => hresult.2.mpr fun hbaseResult => ?_⟩
  -- what leads through the derived interface comes there first
  obtain ⟨c, hc, hahead⟩ := horder.mp (hresult.1.mp hbaseResult)
  obtain ⟨front, ⟨more, rfl⟩, hfront⟩ := hthrough c hc
  have hsimple : store.Simple (ownUse name) front := fun r r' hr hr' =>
    hc.1 r r' (hr.trans (List.prefix_append ..)) (hr'.trans (List.prefix_append ..))
  exact absurd (hahead front ⟨hsimple, hfront⟩) (le_append front more).not_gt

/-! ## A method with two results -/

def readMethod (result : JavaType) : MethodDef where
  name := "read"
  params := []
  returnType := result
  isAbstract := true

def plainSource : ClassDef where
  name := "p.Source"
  kind := .interface
  methods := [readMethod .object]

/-- `Text extends Source`, with another result of the method. -/
def textInterface : ClassDef where
  name := "p.Text"
  kind := .interface
  interfaces := [.raw "p.Source"]
  methods := [readMethod (.raw "java.lang.String")]

/-- An interface without methods of its own that extends both, in one order or the other. -/
def readerInterface (extended : List JavaType) : ClassDef where
  name := "p.Reader"
  kind := .interface
  interfaces := extended

def readerStore (extended : List JavaType) : Store :=
  empty.insertAll [plainSource, textInterface, readerInterface extended]

theorem readerStore_find (extended : List JavaType) :
    (readerStore extended).find? "p.Source" = some plainSource
    ∧ (readerStore extended).find? "p.Text" = some textInterface
    ∧ (readerStore extended).find? "p.Reader" = some (readerInterface extended)
    ∧ ∀ name d, (readerStore extended).find? name = some d →
      d ∈ [plainSource, textInterface, readerInterface extended] := by
  refine ⟨?_, ?_, ?_, fun name d hd => mem_of_find?_insertAll hd⟩ <;>
    simp [readerStore, insertAll, find?_insert, plainSource, textInterface, readerInterface]

/-- The interfaces are visited in the order in which they are named. -/
theorem readerStore_visits :
    (readerStore [.raw "p.Source", .raw "p.Text"]).interfaceVisits [] [ownUse "p.Reader"]
      = [(readerInterface [.raw "p.Source", .raw "p.Text"], fun _ => none),
        (plainSource, plainSource.instantiation []),
        (textInterface, textInterface.instantiation [])]
    ∧ (readerStore [.raw "p.Text", .raw "p.Source"]).interfaceVisits [] [ownUse "p.Reader"]
      = [(readerInterface [.raw "p.Text", .raw "p.Source"], fun _ => none),
        (textInterface, textInterface.instantiation []),
        (plainSource, plainSource.instantiation [])] := by
  have hsource := fun extended => (readerStore_find extended).1
  have htext := fun extended => (readerStore_find extended).2.1
  have hreader := fun extended => (readerStore_find extended).2.2.1
  have hsourceUses : ∀ extended s,
      (readerStore extended).superInterfaceUses plainSource s = [] := fun _ _ => rfl
  have htextUses : ∀ extended s, (readerStore extended).superInterfaceUses textInterface s
      = [("p.Source", plainSource.instantiation [])] := by
    intro extended s
    simp only [superInterfaceUses, textInterface, List.filterMap_cons, List.filterMap_nil,
      JavaType.substitute, JavaType.substituteAll, JavaType.raw, hsource, Option.elim_some]
  constructor
  · have huses : (readerStore [.raw "p.Source", .raw "p.Text"]).superInterfaceUses
        (readerInterface [.raw "p.Source", .raw "p.Text"]) (fun _ => none)
        = [("p.Source", plainSource.instantiation []),
          ("p.Text", textInterface.instantiation [])] := by
      simp only [superInterfaceUses, readerInterface, List.filterMap_cons, List.filterMap_nil,
        JavaType.substitute, JavaType.substituteAll, JavaType.raw, hsource, htext,
        Option.elim_some]
    rw [ownUse, interfaceVisits_cons (hreader _) List.not_mem_nil, huses, List.append_nil,
      interfaceVisits_cons (hsource _) (by decide), hsourceUses, List.nil_append,
      interfaceVisits_cons (htext _) (by decide), htextUses, List.append_nil,
      interfaceVisits_seen (by decide), interfaceVisits]
  · have huses : (readerStore [.raw "p.Text", .raw "p.Source"]).superInterfaceUses
        (readerInterface [.raw "p.Text", .raw "p.Source"]) (fun _ => none)
        = [("p.Text", textInterface.instantiation []),
          ("p.Source", plainSource.instantiation [])] := by
      simp only [superInterfaceUses, readerInterface, List.filterMap_cons, List.filterMap_nil,
        JavaType.substitute, JavaType.substituteAll, JavaType.raw, hsource, htext,
        Option.elim_some]
    -- `Source` is met above `Text`, and then again
    rw [ownUse, interfaceVisits_cons (hreader _) List.not_mem_nil, huses, List.append_nil,
      interfaceVisits_cons (htext _) (by decide), htextUses, List.singleton_append,
      interfaceVisits_cons (hsource _) (by decide), hsourceUses, List.nil_append,
      interfaceVisits_seen (by decide), interfaceVisits]

/-- Each of the two asks for the method, and no other interface does. -/
theorem reader_inheritsTwice (extended : List JavaType)
    (hvisits : ∀ met, met ∈ (readerStore extended).interfaceVisits [] [ownUse "p.Reader"]
      ↔ met ∈ [(readerInterface extended, fun _ => none),
        (plainSource, plainSource.instantiation []),
        (textInterface, textInterface.instantiation [])]) :
    (readerStore extended).InheritsTwice "p.Reader" "p.Text" "p.Source"
      ⟨"read", .raw "java.lang.String", []⟩ ⟨"read", .object, []⟩ := by
  have hsource : plainSource.wantedMethods (plainSource.instantiation [])
      = [⟨"read", .object, []⟩] := rfl
  have htext : textInterface.wantedMethods (textInterface.instantiation [])
      = [⟨"read", .raw "java.lang.String", []⟩] := rfl
  refine ⟨?_, ?_, by decide, by decide, by decide, fun above o ho hsame => ?_⟩
  · exact inherits_iff.mpr ⟨(textInterface, textInterface.instantiation []),
      (hvisits _).mpr (by simp), rfl, by rw [htext]; exact List.mem_singleton_self _⟩
  · exact inherits_iff.mpr ⟨(plainSource, plainSource.instantiation []),
      (hvisits _).mpr (by simp), rfl, by rw [hsource]; exact List.mem_singleton_self _⟩
  · obtain ⟨met, hmet, rfl, hasked⟩ := inherits_iff.mp ho
    rw [hvisits, List.mem_cons, List.mem_cons, List.mem_singleton] at hmet
    rcases hmet with rfl | rfl | rfl
    · cases hasked
    · exact .inr ⟨rfl, List.mem_singleton.mp (hsource ▸ hasked)⟩
    · exact .inl ⟨rfl, List.mem_singleton.mp (htext ▸ hasked)⟩

theorem readerStore_extendsTypes {extended : List JavaType}
    (h : ∀ t ∈ extended, ∀ x, t ≠ .typeVar x) : (readerStore extended).ExtendsTypes := by
  intro name d hd t ht x
  have hmem := (readerStore_find extended).2.2.2 name d hd
  rw [List.mem_cons, List.mem_cons, List.mem_singleton] at hmem
  rcases hmem with rfl | rfl | rfl
  · cases ht
  · rw [List.mem_singleton.mp ht]
    nofun
  · exact h t ht x

/-- Where the derived interface is named first, its result stays. -/
theorem reader_reads_text :
    (readerStore [.raw "p.Text", .raw "p.Source"]).ExtendsTypes
    ∧ (readerStore [.raw "p.Text", .raw "p.Source"]).InheritsTwice "p.Reader" "p.Text" "p.Source"
      ⟨"read", .raw "java.lang.String", []⟩ ⟨"read", .object, []⟩
    ∧ ∃ i entry, (readerStore [.raw "p.Text", .raw "p.Source"]).describe "p.Reader" .classpath
        = some i
      ∧ i.methods.filter (fun o => o.name = "read" ∧ o.params = []) = [entry]
      ∧ entry.returnType = .raw "java.lang.String"
      ∧ ¬ ∃ chain,
        (readerStore [.raw "p.Text", .raw "p.Source"]).LeadsTo "p.Reader" "p.Source" chain
        ∧ ∀ other,
          (readerStore [.raw "p.Text", .raw "p.Source"]).LeadsTo "p.Reader" "p.Text" other →
          chain < other := by
  have htypes : (readerStore [.raw "p.Text", .raw "p.Source"]).ExtendsTypes :=
    readerStore_extendsTypes (by simp [JavaType.raw])
  have htwice := reader_inheritsTwice [.raw "p.Text", .raw "p.Source"] (by
    intro met
    rw [readerStore_visits.2]
    simp only [List.mem_cons, List.not_mem_nil, or_false]
    tauto)
  obtain ⟨hsource, htext, hreader, -⟩ := readerStore_find [.raw "p.Text", .raw "p.Source"]
  obtain ⟨i, entry, hdescribe, hfilter, hbase, hderived, -⟩ :=
    entry_of_two htypes hreader rfl htwice .classpath
  have hentry : entry = ⟨"read", .raw "java.lang.String", []⟩ := by
    rw [describe_eq_some hreader rfl, Option.some.injEq] at hdescribe
    subst hdescribe
    have hvisits := readerStore_visits.2
    rw [ownUse] at hvisits
    rw [hvisits] at hfilter
    exact (List.singleton_inj.mp hfilter).symm
  refine ⟨htypes, htwice, i, entry, hdescribe, hfilter, by rw [hentry], ?_⟩
  rw [← hbase, hentry]
  decide

/-- How far up an interface of the store is, which only grows towards `Source`. -/
def readerHeight (name : String) : Nat :=
  if name = "p.Source" then 2 else if name = "p.Text" then 1 else 0

theorem readerHeight_lt {below above : String}
    (h : (readerStore [.raw "p.Source", .raw "p.Text"]).Extends below above) :
    readerHeight below < readerHeight above := by
  obtain ⟨d, hd, habove⟩ := h
  have hmem := (readerStore_find _).2.2.2 below d hd
  rw [← name_of_find? hd]
  rw [List.mem_cons, List.mem_cons, List.mem_singleton] at hmem
  rcases hmem with rfl | rfl | rfl
  · cases habove
  · obtain rfl : above = "p.Source" := List.mem_singleton.mp habove
    decide
  · rcases List.mem_cons.mp habove with rfl | habove
    · decide
    · obtain rfl : above = "p.Text" := List.mem_singleton.mp habove
      decide

theorem readerHeight_lt_of_transGen {below above : String}
    (h : Relation.TransGen (readerStore [.raw "p.Source", .raw "p.Text"]).Extends below above) :
    readerHeight below < readerHeight above := by
  induction h with
  | single h => exact readerHeight_lt h
  | tail _ h ih => exact ih.trans (readerHeight_lt h)

/-- **An override does not always win.** In a store of interfaces without circles an interface may
inherit a method from two others and ask for the result that the extended one declares. -/
theorem overridden_wins : ∃ (store : Store) (name derived base : String) (m n : WantedMethod)
    (i : InterfaceDescriptor),
      (∀ name d, store.find? name = some d → d.isInterface = true)
      ∧ (∀ name, ¬ Relation.TransGen store.Extends name name)
      ∧ (∃ d, store.find? name = some d ∧ d.methods = [])
      ∧ store.InheritsTwice name derived base m n
      ∧ Relation.TransGen store.Extends derived base
      ∧ ¬ Relation.TransGen store.Extends base derived
      ∧ store.describe name .classpath = some i ∧ n ∈ i.methods ∧ m ∉ i.methods := by
  obtain ⟨hsource, htext, hreader, hall⟩ := readerStore_find [.raw "p.Source", .raw "p.Text"]
  have htwice := reader_inheritsTwice [.raw "p.Source", .raw "p.Text"] (by
    rw [readerStore_visits.1]
    exact fun _ => Iff.rfl)
  have hmethods : keepFirst WantedMethod.sameSignature
      (((readerStore [.raw "p.Source", .raw "p.Text"]).interfaceVisits []
        [ownUse "p.Reader"]).flatMap fun e => e.1.wantedMethods e.2) = [⟨"read", .object, []⟩] := by
    rw [readerStore_visits.1]
    rfl
  refine ⟨readerStore [.raw "p.Source", .raw "p.Text"], "p.Reader", "p.Text", "p.Source", _, _, _,
    ?_, fun name h => lt_irrefl _ (readerHeight_lt_of_transGen h), ⟨_, hreader, rfl⟩, htwice,
    .single ⟨_, htext, List.mem_singleton_self _⟩, fun h => ?_, describe_eq_some hreader rfl,
    ?_, ?_⟩
  · intro name d hd
    have hmem := hall name d hd
    rw [List.mem_cons, List.mem_cons, List.mem_singleton] at hmem
    rcases hmem with rfl | rfl | rfl <;> rfl
  · exact absurd (readerHeight_lt_of_transGen h) (by decide)
  · exact hmethods ▸ List.mem_singleton_self _
  · exact fun h => absurd (List.mem_singleton.mp (hmethods ▸ h)) (by decide)

end Store

end Conformance
