import Conformance.Proofs.Ancestry
import Conformance.Proofs.ViewInstances

/-!
# Three walks of one hierarchy

What lies above a class is listed by one walk, looked up by a second, and the methods that come
from there are gathered by a third. The three put arguments in place each on their own, and only
the second erases what lies above a raw use. They agree where the hierarchy leaves nothing to
choose (`walks_agree`).

* No supertype is raw if its class is generic (`FullSupertypes`). Then the second walk never
  erases, so from a class as applied to its own parameters it goes where the first walk goes, and
  the list consists of the views (`supertypes_selfType`).
* Every class above is reached as one use of it only (`Univocal`). Then it does not matter that
  the third walk goes by superclasses and the second one takes the nearest use: the use that hands
  down methods is the view (`supertypeView_of_transGen`).

Cycles and classes that are not stored are no exception. They end the third walk, and the other two
go on elsewhere.
-/

namespace Conformance

open JavaType

namespace ClassDef

/-- There is an argument for each type parameter. -/
def Full (d : ClassDef) (count : Nat) : Prop := count = d.typeParams.length

instance (d : ClassDef) (count : Nat) : Decidable (d.Full count) :=
  inferInstanceAs (Decidable (_ = _))

/-! ## A class as applied to its own parameters -/

theorem snd_of_mem_instantiationPairs_own {params : List TypeParam} {pair : String × JavaType}
    (h : pair ∈ instantiationPairs params ((params.map (·.name)).map typeVar)) :
    pair.2 = typeVar pair.1 := by
  induction params with
  | nil => cases h
  | cons p params ih =>
    rcases List.mem_cons.mp h with rfl | h
    · rfl
    · exact ih h

theorem full_own (d : ClassDef) : d.Full (d.typeParamNames.map typeVar).length := by
  rw [Full, List.length_map, typeParamNames, List.length_map]

/-- Parameters that stand for themselves change nothing. -/
theorem substitute_instantiation_own (d : ClassDef) (t : JavaType) :
    t.substitute (d.instantiation (d.typeParamNames.map typeVar)) = t := by
  refine (substitute_congr fun x _ => ?_).trans (substitute_none t)
  cases h : d.instantiation (d.typeParamNames.map typeVar) x with
  | none => rfl
  | some u => exact snd_of_mem_instantiationPairs_own (Substitution.mem_of_ofPairs h)

theorem supersOfUse_own (d : ClassDef) :
    Store.supersOfUse d (d.typeParamNames.map typeVar) = d.directSupertypes := by
  rw [Store.supersOfUse, substituteAll_eq_map]
  exact (List.map_congr_left fun u _ => d.substitute_instantiation_own u).trans (List.map_id _)

end ClassDef

namespace Store

/-- What lies directly above stored classes are classes with arguments for all their parameters.
That includes the top class, which every interface has above it without arguments. -/
structure FullSupertypes (store : Store) : Prop where
  classes : store.ClassSupertypes
  applied : ∀ name d, store.find? name = some d → ∀ u ∈ d.directSupertypes,
    store.Applied ClassDef.Full u

/-- However one goes up from a type, one comes to a class as the same use of it. -/
def Univocal (store : Store) (t : JavaType) : Prop :=
  ∀ u v, Relation.TransGen store.SeenAbove t u → Relation.TransGen store.SeenAbove t v →
    u.className? = v.className? → u = v

/-- The stored class that is the superclass. -/
def superclass? (store : Store) (d : ClassDef) : Option ClassDef :=
  (d.superClass.bind className?).bind store.find?

/-- The stored classes above a class, from superclass to superclass, each once and none under a
name that was seen. -/
structure SuperclassChain (store : Store) (seen : List String) (d : ClassDef)
    (chain : List ClassDef) : Prop where
  linked : (d :: chain).IsChain fun below above => store.superclass? below = some above
  distinct : chain.Nodup
  unseen : ∀ e ∈ chain, e.name ∉ seen
  /-- The chain ends only where there is no superclass, where it is not stored or where it would
  come again. -/
  complete : ∀ above,
    store.superclass? ((d :: chain).getLast (List.cons_ne_nil d chain)) = some above →
      above.name ∈ seen ∨ above ∈ chain

/-- The methods of a class that is above a type, as the view of the type shows them. -/
def HandsDown (store : Store) (t : JavaType) (d : ClassDef) (methods : List MethodDef) : Prop :=
  ∃ arguments, store.supertypeView t d.name = .ok (some (.classType d.name arguments))
    ∧ methods = d.methods.map (MethodDef.substitute (d.instantiation arguments))

/-- What the classes up the chain of superclasses hand down to a type, class by class. -/
def Inherited (store : Store) (t : JavaType) (seen : List String) (d : ClassDef)
    (methods : List MethodDef) : Prop :=
  ∃ chain parts, store.SuperclassChain seen d chain
    ∧ List.Forall₂ (store.HandsDown t) chain parts ∧ methods = parts.flatten

variable {store : Store}

/-! ## The list and the views -/

/-- A walk from a use of a class begins with the use and goes on with what is directly above. -/
theorem supertypes_classType {name : String} {arguments : List JavaType} {d : ClassDef}
    (hd : store.find? name = some d) :
    store.supertypes (.classType name arguments)
      = .classType name arguments :: store.walk supersOfView [name] (supersOfView d arguments) := by
  rw [supertypes, walk]
  simp only [visit, List.not_mem_nil, if_false, hd, Option.elim_some, List.append_nil]
  split
  · next hnext =>
    rw [hnext, walk]
    rfl
  · rfl

/-- No name is met twice, so a type has one view at most as a use of a class, and it is the one
that is found. -/
theorem supertypeView_iff_mem {type view : JavaType} {name : String} :
    store.supertypeView type name = .ok (some view)
      ↔ view ∈ store.supertypes type ∧ view.className? = some name := by
  constructor
  · intro h
    exact ⟨mem_supertypes_of_view h, className?_of_view h⟩
  · rintro ⟨hview, hname⟩
    have hsome : ((store.supertypes type).find? (·.className? = some name)).isSome :=
      List.find?_isSome.mpr ⟨view, hview, decide_eq_true hname⟩
    obtain ⟨found, hfound⟩ := Option.isSome_iff_exists.mp hsome
    have hclass : found.className? = some name := by simpa using List.find?_some hfound
    have hsame : found = view := List.inj_on_of_nodup_map (nodup_walk supersOfView [] [type])
      (List.mem_of_find?_eq_some hfound) hview (hclass.trans hname.symm)
    exact supertypeView_eq_some.mpr (hsame ▸ hfound)

theorem supersOfView_of_full {d : ClassDef} {arguments : List JavaType}
    (h : d.Full arguments.length) : supersOfView d arguments = supersOfUse d arguments := by
  refine supersOfView_eq_supersOfUse ?_
  rintro rfl
  exact List.length_eq_zero_iff.mp h.symm

theorem selfType_eq {name : String} {d : ClassDef} (hd : store.find? name = some d) :
    d.selfType = .classType name (d.typeParamNames.map typeVar) := by
  rw [ClassDef.selfType, name_of_find? hd]

section Full

variable (hstore : store.FullSupertypes) {name : String} {d : ClassDef}
  (hd : store.find? name = some d)
include hstore hd

theorem FullSupertypes.applied_supersOfUse {arguments : List JavaType} {u : JavaType}
    (hu : u ∈ supersOfUse d arguments) : store.Applied ClassDef.Full u := by
  obtain ⟨v, hv, rfl⟩ := mem_supersOfUse.mp hu
  exact (hstore.applied name d hd v hv).substitute
    (Option.isSome_iff_exists.mpr (hstore.classes.className? hd hv)) _

/-- Above a class as applied to its own parameters are its ancestors. -/
theorem supertypes_selfType :
    store.supertypes d.selfType
      = d.selfType :: store.walk supersOfUse [name] d.directSupertypes := by
  have happlied : ∀ u ∈ d.directSupertypes, store.Applied ClassDef.Full u := hstore.applied name d hd
  -- the two walks meet the same types, because neither comes to a raw use of a generic class
  have hwalk : List.Forall₂ (fun u u' => u = u' ∧ store.Applied ClassDef.Full u)
      (store.walk supersOfView [name] d.directSupertypes)
      (store.walk supersOfUse [name] d.directSupertypes) := by
    refine walk_related (fun h => by rw [h.1]) ?_ _ _ _
      (List.forall₂_same.mpr fun u hu => ⟨rfl, happlied u hu⟩)
    rintro other e arguments arguments' he ⟨hsame, huse⟩
    cases hsame
    rw [supersOfView_of_full (huse e he)]
    exact List.forall₂_same.mpr fun u hu => ⟨rfl, hstore.applied_supersOfUse he hu⟩
  have heq : store.walk supersOfView [name] d.directSupertypes
      = store.walk supersOfUse [name] d.directSupertypes :=
    List.forall₂_eq_eq_eq ▸ hwalk.imp fun _ _ h => h.1
  rw [selfType_eq hd, supertypes_classType hd, supersOfView_of_full d.full_own,
    ClassDef.supersOfUse_own, heq]

/-- The ancestors of a class are the views that there are of it, itself apart. -/
theorem mem_ancestors_iff_view {ancestors : List JavaType}
    (h : store.ancestors name = .ok ancestors) {view : JavaType} :
    view ∈ ancestors ↔ ∃ other, other ≠ name
      ∧ store.supertypeView d.selfType other = .ok (some view) := by
  rw [ancestors_eq hd, Except.ok.injEq] at h
  subst h
  simp only [supertypeView_iff_mem, supertypes_selfType hstore hd, List.mem_cons]
  constructor
  · intro hview
    obtain ⟨other, hother⟩ := Option.isSome_iff_exists.mp (className?_of_mem_walk _ _ _ hview)
    refine ⟨other, fun heq => ?_, .inr hview, hother⟩
    exact not_mem_seen_of_mem_walk (List.mem_filterMap.mpr ⟨view, hview, hother⟩)
      (List.mem_singleton.mpr heq)
  · rintro ⟨other, hne, rfl | hview, hother⟩
    · rw [selfType_eq hd, className?, Option.some.injEq] at hother
      exact absurd hother.symm hne
    · exact hview

end Full

/-! ## The chain of superclasses -/

section Chain

variable {t : JavaType} {seen : List String} {below d : ClassDef}

theorem superclass?_eq {name : String} (h : d.superClass.bind className? = some name) :
    store.superclass? d = store.find? name := by
  rw [superclass?, h, Option.bind_some]

theorem find?_of_superclass? (h : store.superclass? below = some d) :
    store.find? d.name = some d := by
  obtain ⟨name, -, hfind⟩ := Option.bind_eq_some_iff.mp h
  rwa [name_of_find? hfind]

theorem superclassChain_nil (h : ∀ above, store.superclass? d = some above → above.name ∈ seen) :
    store.SuperclassChain seen d [] where
  linked := .singleton d
  distinct := .nil
  unseen := by simp
  complete := fun above habove => .inl (h above habove)

theorem SuperclassChain.cons {chain : List ClassDef} (hbelow : store.superclass? below = some d)
    (hn : d.name ∉ seen) (h : store.SuperclassChain (d.name :: seen) d chain) :
    store.SuperclassChain seen below (d :: chain) where
  linked := .cons_cons hbelow h.linked
  distinct := List.nodup_cons.mpr
    ⟨fun hmem => h.unseen d hmem (List.mem_cons_self ..), h.distinct⟩
  unseen := by
    rintro e (_ | ⟨_, he⟩)
    · exact hn
    · exact List.not_mem_of_not_mem_cons (h.unseen e he)
  complete := by
    intro above habove
    rw [List.getLast_cons (List.cons_ne_nil d chain)] at habove
    rcases h.complete above habove with hname | hmem
    · refine (List.mem_cons.mp hname).symm.imp_right fun heq => ?_
      -- the chain would come back to where it begins
      have hsame : some above = some d := by
        rw [← find?_of_superclass? habove, heq, find?_of_superclass? hbelow]
      cases hsame
      exact List.mem_cons_self ..
    · exact .inr (List.mem_cons_of_mem _ hmem)

theorem SuperclassChain.stored {chain : List ClassDef} (h : store.SuperclassChain seen d chain) :
    ∀ e ∈ chain, store.find? e.name = some e := by
  have hlinked := h.linked
  clear h
  induction chain generalizing d with
  | nil => simp
  | cons above chain ih =>
    obtain ⟨hstep, hrest⟩ := List.isChain_cons_cons.mp hlinked
    rintro e (_ | ⟨_, he⟩)
    · exact find?_of_superclass? hstep
    · exact ih hrest e he

theorem SuperclassChain.tail {chain : List ClassDef}
    (h : store.SuperclassChain seen below (d :: chain)) :
    store.SuperclassChain (d.name :: seen) d chain where
  linked := (List.isChain_cons_cons.mp h.linked).2
  distinct := (List.nodup_cons.mp h.distinct).2
  unseen := by
    intro e he
    refine List.not_mem_cons_of_ne_of_not_mem (fun hname => ?_)
      (h.unseen e (List.mem_cons_of_mem _ he))
    have hsame : some e = some d := by
      rw [← h.stored e (List.mem_cons_of_mem _ he), hname, h.stored d (List.mem_cons_self ..)]
    cases hsame
    exact (List.nodup_cons.mp h.distinct).1 he
  complete := by
    intro above habove
    rw [← List.getLast_cons (List.cons_ne_nil d chain)] at habove
    rcases h.complete above habove with hname | hmem
    · exact .inl (List.mem_cons_of_mem _ hname)
    · rcases List.mem_cons.mp hmem with rfl | hmem
      · exact .inl (List.mem_cons_self ..)
      · exact .inr hmem

/-- A chain that has ended does not go on. -/
theorem SuperclassChain.not_cons {chain : List ClassDef} (h : store.SuperclassChain seen below []) :
    ¬ store.SuperclassChain seen below (d :: chain) := by
  intro hcons
  rcases h.complete d (List.isChain_cons_cons.mp hcons.linked).1 with hname | hmem
  · exact hcons.unseen d (List.mem_cons_self ..) hname
  · cases hmem

/-- There is only one way up from superclass to superclass. -/
theorem SuperclassChain.unique {chain chain' : List ClassDef}
    (h : store.SuperclassChain seen d chain) (h' : store.SuperclassChain seen d chain') :
    chain = chain' := by
  induction chain generalizing seen d chain' with
  | nil =>
    cases chain' with
    | nil => rfl
    | cons e rest => exact absurd h' h.not_cons
  | cons e chain ih =>
    cases chain' with
    | nil => exact absurd h h'.not_cons
    | cons e' rest =>
      have hsame : some e = some e' := by
        rw [← (List.isChain_cons_cons.mp h.linked).1, (List.isChain_cons_cons.mp h'.linked).1]
      cases hsame
      rw [ih h.tail h'.tail]

theorem inherited_nil (h : ∀ above, store.superclass? d = some above → above.name ∈ seen) :
    store.Inherited t seen d [] :=
  ⟨[], [], superclassChain_nil h, .nil, rfl⟩

theorem Inherited.cons {own methods : List MethodDef} (hbelow : store.superclass? below = some d)
    (hn : d.name ∉ seen) (hown : store.HandsDown t d own)
    (h : store.Inherited t (d.name :: seen) d methods) :
    store.Inherited t seen below (own ++ methods) := by
  obtain ⟨chain, parts, hchain, hparts, rfl⟩ := h
  exact ⟨d :: chain, own :: parts, hchain.cons hbelow hn, .cons hown hparts,
    List.flatten_cons.symm⟩

end Chain

section Methods

variable (hstore : store.FullSupertypes) {name : String} {d : ClassDef}
  (hd : store.find? name = some d) (hunivocal : store.Univocal d.selfType)
include hstore hd hunivocal

/-- However a use of another class was reached, it is the view. -/
theorem supertypeView_of_transGen {other : String} {arguments : List JavaType} (hne : other ≠ name)
    (h : Relation.TransGen store.SeenAbove d.selfType (.classType other arguments)) :
    store.supertypeView d.selfType other = .ok (some (.classType other arguments)) := by
  have hself := selfType_eq hd
  obtain ⟨n, hclimb⟩ := exists_climb h.to_reflTransGen
  have habove : Relation.ReflTransGen store.Above name other :=
    (above_of_climb hstore.classes (by rw [hself]; rfl) hclimb rfl).reflTransGen
  obtain ⟨viewArguments, hview⟩ := exists_supertypeView (d.typeParamNames.map typeVar) habove
  -- there is a view, and it was reached as well, so it is the same use
  obtain ⟨m, hnearest, -⟩ :=
    supertypes_nearest hstore.classes (mem_supertypes_of_view hview) rfl
  rw [← hself] at hview hnearest
  have hreached : Relation.TransGen store.SeenAbove d.selfType (.classType other viewArguments) := by
    refine (Relation.reflTransGen_iff_eq_or_transGen.mp hnearest.reflTransGen).resolve_left ?_
    intro heq
    rw [hself, classType.injEq] at heq
    exact hne heq.1
  rw [hview, hunivocal _ _ hreached h rfl]

theorem handsDown_of_transGen {other : String} {arguments : List JavaType} {e : ClassDef}
    (he : store.find? other = some e) (hne : other ≠ name)
    (h : Relation.TransGen store.SeenAbove d.selfType (.classType other arguments)) :
    store.HandsDown d.selfType e
      (e.methods.map (MethodDef.substitute (e.instantiation arguments))) := by
  have hname := name_of_find? he
  subst hname
  exact ⟨arguments, supertypeView_of_transGen hstore hd hunivocal hne h, rfl⟩

/-- What comes from a superclass is what the classes up the chain hand down to the class at its
foot, if the use of the superclass was reached from there. -/
theorem inherited_inheritedMethods {seen : List String} (hseen : name ∈ seen) {type : JavaType}
    (hreached : Relation.TransGen store.SeenAbove d.selfType type)
    (happlied : store.Applied ClassDef.Full type) :
    ∀ below : ClassDef, below.superClass.bind className? = type.className? →
      store.Inherited d.selfType seen below (store.inheritedMethods seen type) := by
  fun_induction inheritedMethods store seen type with
  | case1 seen other arguments hn =>
    refine fun below hbelow => inherited_nil fun above habove => ?_
    rw [superclass?_eq hbelow] at habove
    rwa [name_of_find? habove]
  | case2 seen other arguments hn hnone =>
    refine fun below hbelow => inherited_nil fun above habove => ?_
    rw [superclass?_eq hbelow, hnone] at habove
    cases habove
  | case3 seen other arguments hn e he s own hsuper =>
    intro below hbelow
    have hown := handsDown_of_transGen hstore hd hunivocal he (fun h => hn (h ▸ hseen)) hreached
    have hname := name_of_find? he
    subst hname
    -- the chain ends with this class
    have htop : store.Inherited d.selfType (e.name :: seen) e [] := by
      refine inherited_nil fun above habove => ?_
      rw [superclass?, hsuper] at habove
      cases habove
    simpa using Inherited.cons ((superclass?_eq hbelow).trans he) hn hown htop
  | case4 seen other arguments hn e he s own superClass hsuper ih =>
    intro below hbelow
    have hown := handsDown_of_transGen hstore hd hunivocal he (fun h => hn (h ▸ hseen)) hreached
    have hname := name_of_find? he
    subst hname
    have hmem : superClass ∈ e.directSupertypes := superClass_mem hsuper
    have habove : superClass.substitute s ∈ supersOfUse e arguments :=
      mem_supersOfUse.mpr ⟨superClass, hmem, rfl⟩
    -- the use is not raw, so the walk to the view goes to the same use of the superclass
    have hstep : store.SeenAbove (.classType e.name arguments) (superClass.substitute s) :=
      seenAbove_of_mem he (supersOfView_of_full (happlied e he) ▸ habove)
    have hrest := ih (List.mem_cons_of_mem _ hseen) (hreached.tail hstep)
      (hstore.applied_supersOfUse he habove) e
      (by rw [hsuper, Option.bind_some, hstore.classes.className?_substitute he hmem])
    exact .cons ((superclass?_eq hbelow).trans he) hn hown hrest
  | case5 seen type hclass =>
    refine fun below hbelow => inherited_nil fun above habove => ?_
    have hnone : type.className? = none := by
      cases type with
      | classType other arguments => exact absurd rfl (hclass other arguments)
      | _ => rfl
    rw [superclass?, hbelow, hnone] at habove
    cases habove

/-- The methods of a class are its own and those that come up the chain of its superclasses. -/
theorem exists_inherited : ∃ methods, store.methods name = .ok (d.methods ++ methods)
    ∧ store.Inherited d.selfType [name] d methods := by
  refine ⟨_, methods_eq hd, ?_⟩
  cases hsuper : d.superClass with
  | none =>
    refine inherited_nil fun above habove => ?_
    rw [superclass?, hsuper] at habove
    cases habove
  | some superClass =>
    have hmem : superClass ∈ d.directSupertypes := superClass_mem hsuper
    have hstep : store.SeenAbove d.selfType superClass := by
      rw [selfType_eq hd]
      refine seenAbove_of_mem hd ?_
      rwa [supersOfView_of_full d.full_own, d.supersOfUse_own]
    exact inherited_inheritedMethods hstore hd hunivocal (List.mem_singleton_self name)
      (.single hstep) (hstore.applied name d hd superClass hmem) d
      (by rw [hsuper, Option.bind_some])

/-- **The walks agree.** The ancestors of a class are the views of the class as applied to its own
parameters: each is the view under its name, and each view but the class itself is listed. The
methods of the class are its own, and then those of the stored classes up the one chain of its
superclasses, each with the arguments of the view in the place of the parameters. -/
theorem walks_agree :
    ∃ ancestors chain parts, store.ancestors name = .ok ancestors
      ∧ (∀ t ∈ ancestors, ∃ other, t.className? = some other
          ∧ store.supertypeView d.selfType other = .ok (some t))
      ∧ (∀ other view, other ≠ name → store.supertypeView d.selfType other = .ok (some view) →
          view ∈ ancestors)
      ∧ (∀ other, store.SuperclassChain [name] d other ↔ other = chain)
      ∧ List.Forall₂ (store.HandsDown d.selfType) chain parts
      ∧ store.methods name = .ok (d.methods ++ parts.flatten) := by
  have hancestors := ancestors_eq hd
  obtain ⟨methods, hmethods, chain, parts, hchain, hparts, rfl⟩ :=
    exists_inherited hstore hd hunivocal
  refine ⟨_, chain, parts, hancestors, fun t ht => ?_, fun other view hne hview => ?_,
    fun other => ⟨fun h => h.unique hchain, fun h => h ▸ hchain⟩, hparts, hmethods⟩
  · obtain ⟨other, -, hview⟩ := (mem_ancestors_iff_view hstore hd hancestors).mp ht
    exact ⟨other, className?_of_view hview, hview⟩
  · exact (mem_ancestors_iff_view hstore hd hancestors).mpr ⟨other, hne, hview⟩

end Methods

/-! ## Hierarchies that leave no choice -/

/-- What is directly above a type. -/
def directlyAbove (store : Store) : JavaType → List JavaType
  | .classType name arguments => (store.find? name).elim [] (supersOfView · arguments)
  | _ => []

theorem mem_directlyAbove {t u : JavaType} (h : store.SeenAbove t u) : u ∈ store.directlyAbove t := by
  cases h with
  | @use name arguments d u hd hu hfull =>
    rw [directlyAbove, hd, Option.elim_some]
    exact mem_supersOfView.mpr (.inr ⟨hfull, u, hu, rfl⟩)
  | @raw name d u hd hu hgeneric =>
    rw [JavaType.raw, directlyAbove, hd, Option.elim_some]
    exact mem_supersOfView.mpr (.inl ⟨rfl, hgeneric, u, hu, rfl⟩)

/-- A list of uses of different classes that contains all that is directly above the type and above
its own members leaves no choice. -/
theorem univocal_of_closed {t : JavaType} (uses : List JavaType)
    (hclosed : ∀ u ∈ t :: uses, ∀ v ∈ store.directlyAbove u, v ∈ uses)
    (hdistinct : (uses.map className?).Nodup) : store.Univocal t := by
  -- nothing leads out of the list
  have hmem : ∀ u, Relation.TransGen store.SeenAbove t u → u ∈ uses := by
    intro u h
    induction h with
    | single hstep => exact hclosed t (List.mem_cons_self ..) _ (mem_directlyAbove hstep)
    | tail _ hstep ih => exact hclosed _ (List.mem_cons_of_mem _ ih) _ (mem_directlyAbove hstep)
  intro u v hu hv hclass
  exact List.inj_on_of_nodup_map hdistinct (hmem u hu) (hmem v hv) hclass

def circleBox : ClassDef where
  name := "p.Box"
  kind := .plainClass
  typeParams := [{ name := "T" }]
  superClass := some (classType "p.Base" [array (typeVar "T")])
  interfaces := [classType "p.Source" [typeVar "T"]]
  methods := [{ name := "open", params := [], returnType := .void }]

/-- `p.Box<T>` has `p.Base<T[]>` above it, whose superclass `p.Top` leads back to it, and an
interface that extends one that is not stored. -/
def circleClasses : List ClassDef :=
  [ circleBox,
    { name := "p.Base"
      kind := .plainClass
      typeParams := [{ name := "B" }]
      superClass := some (classType "p.Top" [raw "java.lang.String", typeVar "B"])
      methods := [{ name := "first", params := [], returnType := typeVar "B" }] },
    { name := "p.Top"
      kind := .plainClass
      typeParams := [{ name := "K" }, { name := "V" }]
      superClass := some (classType "p.Base" [typeVar "V"])
      methods := [{ name := "put", params := [typeVar "K", typeVar "V"], returnType := .void }] },
    { name := "p.Source"
      kind := .interface
      typeParams := [{ name := "S" }]
      interfaces := [classType "p.Missing" [typeVar "S"]] } ]

def circleStore : Store := Store.empty.insertAll circleClasses

/-- What is above `p.Box<T>`, nearest first. -/
def circleAncestors : List JavaType :=
  [ classType "p.Base" [array (typeVar "T")],
    classType "p.Source" [typeVar "T"],
    classType "p.Top" [raw "java.lang.String", array (typeVar "T")],
    classType "p.Missing" [typeVar "T"],
    .object ]

/-- The walks from `p.Box` agree although the superclasses go in a circle. -/
theorem circleStore_agrees :
    circleStore.FullSupertypes ∧ circleStore.find? "p.Box" = some circleBox
      ∧ circleStore.Univocal circleBox.selfType
      ∧ circleStore.supertypeView circleBox.selfType "p.Top"
        = .ok (some (classType "p.Top" [raw "java.lang.String", array (typeVar "T")]))
      ∧ ∃ chain parts, circleStore.SuperclassChain ["p.Box"] circleBox chain
        ∧ List.Forall₂ (circleStore.HandsDown circleBox.selfType) chain parts
        ∧ circleStore.methods "p.Box" = .ok (circleBox.methods ++ parts.flatten) := by
  have hcases : ∀ {name d}, circleStore.find? name = some d → d ∈ circleClasses :=
    mem_of_find?_insertAll
  have hstore : circleStore.FullSupertypes := by
    refine ⟨fun name d hd => ?_, fun name d hd => ?_⟩
    · exact (by decide : ∀ d ∈ circleClasses, ∀ u ∈ d.superClass.toList ++ d.interfaces,
        u.className?.isSome) d (hcases hd)
    · exact (by decide : ∀ d ∈ circleClasses, ∀ u ∈ d.directSupertypes,
        circleStore.Applied ClassDef.Full u) d (hcases hd)
  have hd : circleStore.find? "p.Box" = some circleBox := by decide
  have hunivocal : circleStore.Univocal circleBox.selfType :=
    univocal_of_closed circleAncestors (by decide) (by decide)
  have hlist : circleStore.ancestors "p.Box" = .ok circleAncestors := by decide +kernel
  obtain ⟨ancestors, chain, parts, hancestors, hviews, -, hchain, hparts, hmethods⟩ :=
    walks_agree hstore hd hunivocal
  rw [hlist, Except.ok.injEq] at hancestors
  subst hancestors
  refine ⟨hstore, hd, hunivocal, ?_, chain, parts, (hchain chain).mpr rfl, hparts, hmethods⟩
  obtain ⟨other, hother, hview⟩ :=
    hviews (classType "p.Top" [raw "java.lang.String", array (typeVar "T")]) (by decide)
  cases hother
  exact hview

end Store

end Conformance
