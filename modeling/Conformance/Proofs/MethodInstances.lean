import Conformance.Proofs.Match
import Conformance.Proofs.Substitution

/-!
# A generic method in a use of its class

What a method of a generic class is in a use of the class is worked out twice. A candidate for a
match has the arguments of the class put in first, and loses its own type parameters then. A method
that an interface asks for loses its own type parameters first.

A type variable is nothing but its name, so the two steps get into each other's way where names
meet. A method may declare a parameter that the class declares as well, an argument may mention a
variable that is named like one of the method, and a parameter of the method may be bounded by one
of the class. Variable by variable that is all there is to it (`instance_erased_iff`), and each of
the three makes a difference (`instances_differ`).
-/

namespace Conformance

open JavaType

namespace MethodDef

/-- For a type variable in a method it makes no difference whether the method's own parameters are
erased before or after values are put in for those of the class. -/
structure OrderFree (m : MethodDef) (s : Substitution) (x : String) : Prop where
  /-- The value of a variable that the method does not declare has nothing to erase. -/
  value : ∀ u, s x = some u → x ∉ m.typeParamNames → u.substitute m.erasingSubstitution = u
  /-- What stands for a parameter of the method alone has nothing to put a value in for. -/
  bound : ∀ e, m.erasingSubstitution x = some e → s x = none → e.substitute s = e
  /-- A parameter of the method that has a value as well comes to the same both ways. -/
  shadowed : ∀ e u, m.erasingSubstitution x = some e → s x = some u →
    u.substitute m.erasingSubstitution = e.substitute s

variable {m : MethodDef} {s : Substitution}

theorem orderFree_iff {x : String} : m.OrderFree s x
    ↔ ((s x).getD (typeVar x)).substitute m.erasingSubstitution
      = ((m.erasingSubstitution x).getD (typeVar x)).substitute s := by
  cases hs : s x with
  | none =>
    cases he : m.erasingSubstitution x with
    | none =>
      simp only [Option.getD_none, JavaType.substitute, hs, he, iff_true]
      exact ⟨by simp [hs], by simp [he], by simp [he]⟩
    | some e =>
      simp only [Option.getD_none, Option.getD_some, JavaType.substitute, he]
      constructor
      · intro h
        exact (h.bound e he hs).symm
      · intro h
        refine ⟨by simp [hs], fun e' he' _ => ?_, by simp [hs]⟩
        rw [he, Option.some.injEq] at he'
        exact he' ▸ h.symm
  | some u =>
    cases he : m.erasingSubstitution x with
    | none =>
      simp only [Option.getD_none, Option.getD_some, JavaType.substitute, hs]
      constructor
      · intro h
        exact h.value u hs (erasingSubstitution_eq_none.mp he)
      · intro h
        refine ⟨fun u' hu' _ => ?_, by simp [he], by simp [he]⟩
        rw [hs, Option.some.injEq] at hu'
        exact hu' ▸ h
    | some e =>
      simp only [Option.getD_some]
      constructor
      · intro h
        exact h.shadowed e u he hs
      · intro h
        refine ⟨fun u' _ hx => ?_, by simp [hs], fun e' u' he' hu' => ?_⟩
        · rw [erasingSubstitution_eq_none.mpr hx] at he
          cases he
        · rw [he, Option.some.injEq] at he'
          rw [hs, Option.some.injEq] at hu'
          rwa [← he', ← hu']

/-- Two ways to see a method agree if they do on its result and on its parameters. -/
theorem eraseTypeParams_substitute_iff : (m.substitute s).eraseTypeParams = m.eraseTypeParams.substitute s
    ↔ ∀ t ∈ m.returnType :: m.params,
      (t.substitute s).substitute m.erasingSubstitution
        = (t.substitute m.erasingSubstitution).substitute s := by
  have hown : (m.substitute s).erasingSubstitution = m.erasingSubstitution := rfl
  unfold eraseTypeParams
  rw [hown]
  simp only [substitute, substituteAll_eq_map, List.map_map, mk.injEq, true_and, and_true,
    List.map_inj_left, List.forall_mem_cons, Function.comp_apply]
  exact and_comm

end MethodDef

/-- No name of a type parameter of the method gets into the way of a use of the class. -/
structure ClassDef.Apart (d : ClassDef) (arguments : List JavaType) (m : MethodDef) : Prop where
  params : ∀ x ∈ m.typeParamNames, x ∉ d.typeParamNames
  values : ∀ x u, d.instantiation arguments x = some u → ∀ y ∈ m.typeParamNames,
    u.mentions y = false
  bounds : ∀ p ∈ m.typeParams, ∀ x ∈ d.typeParamNames, p.erasure.mentions x = false

theorem ClassDef.Apart.orderFree {d : ClassDef} {arguments : List JavaType} {m : MethodDef}
    (h : d.Apart arguments m) (x : String) : m.OrderFree (d.instantiation arguments) x := by
  refine ⟨fun u hu _ => substitute_eq_self fun y hy => ?_, fun e he _ => ?_, fun e u he hu => ?_⟩
  · refine MethodDef.erasingSubstitution_eq_none.mpr fun hown => ?_
    rw [h.values x u hu y hown] at hy
    cases hy
  · obtain ⟨p, hp, -, rfl⟩ := MethodDef.erasingSubstitution_eq_some he
    refine substitute_eq_self fun y hy => instantiation_eq_none (fun hparam => ?_) arguments
    rw [h.bounds p hp y hparam] at hy
    cases hy
  · -- a parameter of the method is none of the class, so the class has no value for it
    obtain ⟨p, hp, rfl, -⟩ := MethodDef.erasingSubstitution_eq_some he
    rw [instantiation_eq_none (h.params _ (List.mem_map_of_mem hp))] at hu
    cases hu

/-- **When it makes no difference whether a method is erased before or after it is seen in a use
of its class.** Exactly the variables that its signature mentions count, and none of them does if
no name of the method's own parameters is in the way. -/
theorem instance_erased_iff (d : ClassDef) (arguments : List JavaType) (m : MethodDef) :
    ((m.substitute (d.instantiation arguments)).eraseTypeParams
        = m.eraseTypeParams.substitute (d.instantiation arguments)
      ↔ ∀ t ∈ m.returnType :: m.params, ∀ x, t.mentions x = true →
        m.OrderFree (d.instantiation arguments) x)
    ∧ (d.Apart arguments m → (m.substitute (d.instantiation arguments)).eraseTypeParams
        = m.eraseTypeParams.substitute (d.instantiation arguments)) := by
  have hiff : (m.substitute (d.instantiation arguments)).eraseTypeParams
        = m.eraseTypeParams.substitute (d.instantiation arguments)
      ↔ ∀ t ∈ m.returnType :: m.params, ∀ x, t.mentions x = true →
        m.OrderFree (d.instantiation arguments) x := by
    rw [MethodDef.eraseTypeParams_substitute_iff]
    refine forall₂_congr fun t _ => ?_
    rw [substitute_substitute, substitute_substitute]
    constructor
    · intro h x hx
      have := eq_of_substitute_eq h hx
      rw [Option.getD_some, Option.getD_some] at this
      exact MethodDef.orderFree_iff.mpr this
    · intro h
      refine substitute_congr fun x hx => ?_
      rw [Option.getD_some, Option.getD_some]
      exact MethodDef.orderFree_iff.mp (h x hx)
  exact ⟨hiff, fun h => hiff.mpr fun _ _ x _ => h.orderFree x⟩

/-- A method whose own parameter is named and bounded like nothing that its class declares. -/
def pickMethod : MethodDef where
  name := "pick"
  typeParams := [{ name := "T", upperBounds := [classType "java.lang.Comparable" [typeVar "T"]] }]
  params := [typeVar "T", classType "java.util.List" [typeVar "A"]]
  returnType := typeVar "A"

def boxClass : ClassDef where
  name := "p.Box"
  kind := .plainClass
  typeParams := [{ name := "A" }]
  methods := [pickMethod]

theorem pickMethod_instance : boxClass.Apart [raw "java.lang.String"] pickMethod
    ∧ (pickMethod.substitute (boxClass.instantiation [raw "java.lang.String"])).eraseTypeParams
      = pickMethod.eraseTypeParams.substitute (boxClass.instantiation [raw "java.lang.String"])
    ∧ pickMethod.eraseTypeParams.substitute (boxClass.instantiation [raw "java.lang.String"])
      = { name := "pick", returnType := raw "java.lang.String"
          params := [raw "java.lang.Comparable",
            classType "java.util.List" [raw "java.lang.String"]] } := by
  have hvalue : ∀ x u, boxClass.instantiation [raw "java.lang.String"] x = some u →
      u = raw "java.lang.String" := by
    intro x u hu
    have hpair : (x, u) ∈ [("A", raw "java.lang.String")] := Substitution.mem_of_ofPairs hu
    simp_all
  have hapart : boxClass.Apart [raw "java.lang.String"] pickMethod := by
    refine ⟨by decide, fun x u hu y _ => ?_, by decide⟩
    rw [hvalue x u hu]
    rfl
  exact ⟨hapart, (instance_erased_iff boxClass [raw "java.lang.String"] pickMethod).2 hapart,
    by decide⟩

/-! ## Where the two differ -/

/-- A class with a method that declares the parameter of the class once more, one whose parameter
is named like the variable in an argument, and one whose parameter the class's parameter bounds. -/
def baseClass : ClassDef where
  name := "p.Base"
  kind := .plainClass
  typeParams := [{ name := "A" }]
  superClass := some .object
  methods := [
    { name := "own", typeParams := [{ name := "A" }], params := [], returnType := typeVar "A" },
    { name := "get", typeParams := [{ name := "T" }], params := [typeVar "T"]
      returnType := typeVar "A" },
    { name := "pick", typeParams := [{ name := "U", upperBounds := [typeVar "A"] }], params := []
      returnType := typeVar "U" }]

/-- The class that extends the other. -/
def extendingClass : ClassDef where
  name := "p.C"
  kind := .plainClass
  typeParams := [{ name := "T" }]
  superClass := some (classType "p.Base" [typeVar "T"])

/-- The two classes, below `Object`. -/
def baseStore : Store :=
  Store.empty.insertAll [{ name := objectName, kind := .plainClass }, baseClass, extendingClass]

/-- An interface with a parameter `E` and the method `E pick()`. -/
def wantsPick : InterfaceDescriptor where
  name := "p.I"
  typeParams := ["E"]
  methods := [⟨"pick", typeVar "E", []⟩]
  origin := .classpath

theorem methods_extending : baseStore.methods "p.C"
    = .ok (baseClass.methods.map (MethodDef.substitute (baseClass.instantiation [typeVar "T"]))) := by
  have hfind : baseStore.find? "p.C" = some extendingClass := by decide
  have hbase : baseStore.find? "p.Base" = some baseClass := by decide
  have hobject : baseStore.find? objectName = some { name := objectName, kind := .plainClass } := by
    decide
  have habove : baseStore.inheritedMethods ["p.Base", "p.C"] .object = [] :=
    Store.inheritedMethods_eq_nil hobject (by decide) rfl rfl
  have hinherited : baseStore.inheritedMethods ["p.C"] (classType "p.Base" [typeVar "T"])
      = baseClass.methods.map (MethodDef.substitute (baseClass.instantiation [typeVar "T"])) := by
    rw [Store.inheritedMethods_eq hbase (by decide)]
    have hsuper : JavaType.object.substitute (baseClass.instantiation [typeVar "T"]) = .object := rfl
    simp only [show baseClass.superClass = some .object from rfl, Option.elim_some, hsuper, habove,
      List.append_nil]
  rw [Store.methods_eq hfind]
  exact congrArg Except.ok hinherited

/-- The methods as they are offered once the argument is in place. -/
theorem baseClass_instances : (baseClass.methods.map fun m =>
    (m.substitute (baseClass.instantiation [typeVar "T"])).eraseTypeParams)
    = [{ name := "own", params := [], returnType := typeVar "T" },
      { name := "get", params := [.object], returnType := .object },
      { name := "pick", params := [], returnType := typeVar "A" }] := by
  decide

/-- What the class is offered with: the methods of the other with the argument put in first. -/
theorem candidates_extending : baseStore.candidates "p.C" = .ok (baseClass.methods.map fun m =>
    (m.substitute (baseClass.instantiation [typeVar "T"])).eraseTypeParams) := by
  refine Store.candidates_eq_ok.mpr ⟨_, methods_extending, ?_⟩
  decide

/-- **Each of the three makes a difference.** The class is then offered with methods that it does
not have, and matched under a binding to a variable that it does not declare. -/
theorem instances_differ :
    baseStore.candidates "p.C" = .ok (baseClass.methods.map fun m =>
      (m.substitute (baseClass.instantiation [typeVar "T"])).eraseTypeParams)
    ∧ (∀ m ∈ baseClass.methods, (m.substitute (baseClass.instantiation [typeVar "T"])).eraseTypeParams
      ≠ m.eraseTypeParams.substitute (baseClass.instantiation [typeVar "T"]))
    ∧ (baseClass.methods.map fun m =>
        (m.substitute (baseClass.instantiation [typeVar "T"])).eraseTypeParams.returnType)
      = [typeVar "T", .object, typeVar "A"]
    ∧ (baseClass.methods.map fun m =>
        (m.eraseTypeParams.substitute (baseClass.instantiation [typeVar "T"])).returnType)
      = [.object, typeVar "T", typeVar "T"]
    ∧ baseStore.matchClass "p.C" wantsPick = some (Store.single "E" (typeVar "A")) := by
  have hfit : baseStore.fit ["E"] (typeVar "E") (typeVar "A") Binding.empty
      = .found (Store.single "E" (typeVar "A")) := Store.fit_single (n := 1) rfl (by decide)
  have hmatch : baseStore.matchClass "p.C" wantsPick = some (Store.single "E" (typeVar "A")) := by
    rw [Store.matchClass_eq_some, Store.search, candidates_extending, baseClass_instances]
    simpa [wantsPick, Store.implementAll, Store.implement, Store.WantedMethod.isNamedLike,
      WantedMethod.arity, Store.accept, Store.fitResult, isPrimitiveOrVoid] using hfit
  exact ⟨candidates_extending, by decide, by decide, by decide, hmatch⟩

end Conformance
