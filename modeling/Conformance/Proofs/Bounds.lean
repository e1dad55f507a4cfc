import Conformance.Proofs.Acceptance
import Conformance.Proofs.Described
import Conformance.Proofs.Instance

/-!
# Bounds of type parameters

What an interface asks for, as a match gets to see it, has the names of the type parameters and not
their bounds. So a parameter gets the type that meets it first, or the top class, whatever is
declared for it: the top class as a bound is kept by everything that a parameter can be bound to,
and any other bound is kept as far as the methods of the class keep it (`arguments_withinBounds`).
A class made from an interface with types that are not within the bounds matches like any other.
-/

namespace Conformance

open JavaType

/-- What is recorded for some parameters are their arguments, and the others get the top class. -/
theorem Binding.Records.argument_eq {b : Binding} {values : String → JavaType}
    {names : String → Prop} (h : b.Records values names) (x : String) :
    (names x → b.argument x = values x) ∧ (¬ names x → b.argument x = object) := by
  refine ⟨fun hx => ?_, fun hx => ?_⟩
  · rw [argument, (h x (values x)).mpr ⟨hx, rfl⟩, Option.getD_some]
  · have hnone : b.find? x = none := Option.eq_none_iff_forall_not_mem.mpr fun u hu =>
      hx ((h x u).mp hu).1
    rw [argument, hnone, Option.getD_none]

namespace Store

variable {store : Store}

/-- The type arguments are within all bounds that a definition declares for its parameters. -/
def WithinBounds (store : Store) (d : ClassDef) (arguments : String → JavaType) : Prop :=
  ∀ p ∈ d.typeParams, ∀ bound ∈ p.upperBounds,
    store.assignable (bound.substitute (valuesOf d.typeParamNames arguments)) (arguments p.name)
      = some (.ok true)

/-- Whether arguments are within bounds is a matter of the arguments for the parameters. -/
theorem withinBounds_congr {d : ClassDef} {arguments others : String → JavaType}
    (h : ∀ x ∈ d.typeParamNames, arguments x = others x) :
    store.WithinBounds d arguments ↔ store.WithinBounds d others := by
  have hvalues : valuesOf d.typeParamNames arguments = valuesOf d.typeParamNames others := by
    funext x
    unfold valuesOf
    split
    · next hx => rw [h x hx]
    · rfl
  unfold WithinBounds
  rw [hvalues]
  refine forall₂_congr fun p hp => ?_
  rw [h p.name (List.mem_map_of_mem hp)]

/-- The top class bounds everything that a parameter can be bound to. -/
theorem assignable_object {t c : JavaType} (ht : t.isObject = true) (hc : c.isBindable = true) :
    store.assignable t c = some (.ok true) := by
  rw [assignable_eq]
  exact assignableOver_object ht hc

/-- **Type arguments are chosen without regard to bounds.** The arguments that a match leads to,
the top class for a parameter without a value included, are within all bounds that are the top
class. A class with the methods of the interface for certain types matches, and the arguments are
these types for all parameters that occur in a method, so they are within the bounds if and only
if the types that the class has there are. -/
theorem arguments_withinBounds {name : String} {d : ClassDef} {origin : InterfaceOrigin}
    {i : InterfaceDescriptor} (hd : store.find? name = some d)
    (hi : store.describe name origin = some i) :
    (∀ className b, store.matchClass className i = some b →
      ∀ p ∈ d.typeParams, ∀ bound ∈ p.upperBounds, bound.isObject = true →
        store.assignable (bound.substitute (valuesOf d.typeParamNames b.argument))
          (b.argument p.name) = some (.ok true))
    ∧ ∀ className c values, store.find? className = some c → c.DeclaresInstance i values →
      i.methods ≠ [] → (i.methods.map fun w => (w.name, w.arity)).Nodup →
      (∀ x ∈ d.typeParamNames, (values x).isBindable = true) →
      ∃ b, store.matchClass className i = some b
        ∧ (∀ x ∈ d.typeParamNames, (i.Mentions x → b.argument x = values x)
          ∧ (¬ i.Mentions x → b.argument x = object))
        ∧ ((∀ x ∈ d.typeParamNames, i.Mentions x) →
          (store.WithinBounds d b.argument ↔ store.WithinBounds d values)) := by
  have hparams : i.typeParams = d.typeParamNames := by
    obtain ⟨-, d', hd', hinterface⟩ := found_of_describe hi
    rw [hd, Option.some.injEq] at hd'
    subst hd'
    rw [describe_eq_some hd hinterface, Option.some.injEq] at hi
    rw [← hi]
  refine ⟨fun className b h p _ bound _ hobject => ?_,
    fun className c values hc hdeclares hmethods hdistinct hvalues => ?_⟩
  · obtain ⟨offered, -, hall⟩ := matchClass_eq_ok h
    have hproper := proper_implementAll hall Binding.proper_empty
    exact assignable_object (isObject_substitute hobject) (hproper.isBindable_argument p.name)
  · -- nothing of this depends on the bounds: the binding records what the class has
    obtain ⟨inherited, hcandidates⟩ :=
      candidates_of_declared hc hdeclares.instanceApi hdeclares.plain
    obtain ⟨b, hall, hrecords⟩ := implementAll_instance store (hparams ▸ hvalues) inherited
      hdeclares.exists_signature (hdeclares.signature_of_named hdistinct) Binding.records_empty
      fun _ h => h.elim
    have hargument : ∀ x ∈ d.typeParamNames, (i.Mentions x → b.argument x = values x)
        ∧ (¬ i.Mentions x → b.argument x = object) := by
      intro x hx
      obtain ⟨hvalue, hdefault⟩ := hrecords.argument_eq x
      exact ⟨fun hmentions => hvalue (.inr ⟨hparams ▸ hx, hmentions⟩),
        fun hnot => hdefault fun hnames => hnames.elim id fun h => hnot h.2⟩
    refine ⟨b, ?_, hargument, fun hmentions => ?_⟩
    · rw [matchClass_eq_some, search, if_neg (by simpa using hmethods), hcandidates]
      exact hall
    · exact withinBounds_congr fun x hx => (hargument x hx).1 (hmentions x hx)

/-! ### Things that cannot be compared -/

/-- Something of a type that can be compared with itself. -/
def comparable (type : JavaType) : JavaType := classType "java.lang.Comparable" [type]

/-- The interface `Source<E extends Object & Comparable<E>>` with the method `E get()`. -/
def comparableSource : ClassDef where
  name := "p.Source"
  kind := .interface
  typeParams := [{ name := "E", upperBounds := [object, comparable (typeVar "E")] }]
  methods := [{ name := "get", params := [], returnType := typeVar "E" }]

/-- A class `K` with a method `get` that has a thing as its result. -/
def thingClass : ClassDef where
  name := "p.K"
  kind := .plainClass
  superClass := some object
  methods := [{ name := "get", params := [], returnType := raw "p.Thing" }]

/-- Things cannot be compared. -/
def thingStore : Store :=
  Store.empty.insertAll
    [ { name := objectName, kind := .plainClass },
      { name := "java.lang.Comparable", kind := .interface, typeParams := [{ name := "T" }] },
      comparableSource,
      { name := "p.Thing", kind := .plainClass, superClass := some object },
      thingClass ]

/-- What a `Source` asks for. -/
def wantsGet : InterfaceDescriptor where
  name := "p.Source"
  typeParams := ["E"]
  methods := [{ name := "get", params := [], returnType := typeVar "E" }]
  origin := .classpath

theorem describe_comparableSource :
    thingStore.find? "p.Source" = some comparableSource
      ∧ thingStore.describe "p.Source" .classpath = some wantsGet := by
  have hd : thingStore.find? "p.Source" = some comparableSource := by decide
  exact ⟨hd, describe_alone hd rfl rfl⟩

/-- The class gets a `Source<Thing>`, and a thing is an object. -/
theorem thingStore_arguments :
    thingStore.find? "p.Source" = some comparableSource
      ∧ thingStore.describe "p.Source" .classpath = some wantsGet
      ∧ thingStore.find? "p.K" = some thingClass
      ∧ thingClass.DeclaresInstance wantsGet (fun _ => raw "p.Thing")
      ∧ ∃ b, thingStore.matchClass "p.K" wantsGet = some b ∧ b.argument "E" = raw "p.Thing"
        ∧ thingStore.assignable object (b.argument "E") = some (.ok true) := by
  obtain ⟨hd, hi⟩ := describe_comparableSource
  have hc : thingStore.find? "p.K" = some thingClass := by decide
  have hdeclares : thingClass.DeclaresInstance wantsGet (fun _ => raw "p.Thing") :=
    ⟨by decide, by decide, by decide⟩
  obtain ⟨hobject, hinstance⟩ := arguments_withinBounds hd hi
  obtain ⟨b, hmatch, hargument, -⟩ :=
    hinstance "p.K" thingClass (fun _ => raw "p.Thing") hc hdeclares (by decide) (by decide)
      (by decide)
  have hmentions : wantsGet.Mentions "E" := by
    simp [wantsGet, InterfaceDescriptor.Mentions, WantedMethod.Mentions, mentions]
  refine ⟨hd, hi, hc, hdeclares, b, hmatch, (hargument "E" (by decide)).1 hmentions, ?_⟩
  exact hobject "p.K" b hmatch _ (List.mem_singleton_self _) object (List.mem_cons_self ..) rfl

/-- **A bound that is not kept.** The class gets a `Source<Thing>`, although a `Thing` is no
`Comparable<Thing>`. -/
theorem thingStore_exceeds :
    thingStore.find? "p.Source" = some comparableSource
      ∧ thingStore.describe "p.Source" .classpath = some wantsGet
      ∧ thingStore.matchClass "p.K" wantsGet = some (single "E" (raw "p.Thing"))
      ∧ wantsGet.parameterized (single "E" (raw "p.Thing")) = classType "p.Source" [raw "p.Thing"]
      ∧ thingStore.assignable (comparable (raw "p.Thing")) (raw "p.Thing") = some (.ok false)
      ∧ ¬ thingStore.WithinBounds comparableSource (single "E" (raw "p.Thing")).argument := by
  obtain ⟨hd, hi⟩ := describe_comparableSource
  have hnot : thingStore.assignable (comparable (raw "p.Thing")) (raw "p.Thing")
      = some (.ok false) := assignable_of_within (n := 1) (by decide +kernel)
  have hfit : thingStore.fit ["E"] (typeVar "E") (raw "p.Thing") Binding.empty
      = .found (single "E" (raw "p.Thing")) := fit_single (n := 1) rfl (by decide)
  have hmatch : thingStore.matchClass "p.K" wantsGet = some (single "E" (raw "p.Thing")) := by
    have hoffered : thingStore.candidates "p.K"
        = .ok [{ name := "get", params := [], returnType := raw "p.Thing" }] := by decide +kernel
    have hvar : (typeVar "E").isPrimitiveOrVoid = false := rfl
    rw [matchClass_eq_some, search, if_neg (by decide), hoffered]
    simp [wantsGet, implementAll, implement, WantedMethod.isNamedLike, WantedMethod.arity, accept,
      fitResult, hvar, hfit]
  refine ⟨hd, hi, hmatch, by decide, hnot, fun hwithin => ?_⟩
  have hkept := hwithin _ (List.mem_singleton_self _) (comparable (typeVar "E")) (by decide)
  have hargument : (single "E" (raw "p.Thing")).argument "E" = raw "p.Thing" := by decide
  have hbound : (comparable (typeVar "E")).substitute (valuesOf comparableSource.typeParamNames
      (single "E" (raw "p.Thing")).argument) = comparable (raw "p.Thing") := by decide
  rw [hbound, hargument, hnot] at hkept
  cases hkept

end Store

end Conformance
