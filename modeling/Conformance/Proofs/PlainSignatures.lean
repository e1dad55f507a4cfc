import Conformance.Classpath.Stub
import Conformance.Proofs.Descriptors
import Conformance.Proofs.SignatureReading

/-!
# Descriptors among signatures

A method without generics has a descriptor, and the descriptor is also a text for the reader of
signatures. That reader goes about it differently: it takes the name of a class apart into the
package and the last part, and it has no place for an empty name. So it reads what the descriptor
says, or nothing at all if the name of a class is empty (`ofChars?_render`), and in the second case
the descriptor is read in its place. Either way the types come to the same
(`toMethodDef?_ownDescriptor`).

A dot or an angle bracket in a name would be an ordinary character to one reader and the end of the
name to the other, hence `Plain`.
-/

namespace Conformance

open ClassFile

namespace ClassFile

namespace FieldType

/-- The name of the class in a type ends where it does in a signature. -/
def Plain (type : FieldType) : Prop :=
  ∀ name ∈ type.className?, ∀ c ∈ classNameEnd, c ∉ name.toList

/-- A type as it stands in a generic signature. A class without a name has no place there. -/
def toSignature? : FieldType → Option TypeSignature
  | base p => some (.base p)
  | object name =>
    if name = "" then none
    else some (.classType (.mk (splitQualified name).1 [.mk (splitQualified name).2 []]))
  | array element => element.toSignature?.map .array

theorem qualifiedName_splitQualified (name : String) :
    name.toList = qualifiedName (splitQualified name).1 (splitQualified name).2
      ∧ ∀ part ∈ (splitQualified name).2 :: (splitQualified name).1, '/' ∉ part.toList :=
  splitQualified_sound name rfl

/-- The type is the same after the name was taken apart and put together again. -/
theorem toType_of_toSignature? {type : FieldType} {s : TypeSignature}
    (h : type.toSignature? = some s) : s.toType = type.toType := by
  induction type generalizing s with
  | base p =>
    cases h
    rfl
  | object name =>
    have hinternal : (ClassTypeSignature.mk (splitQualified name).1
        [.mk (splitQualified name).2 []]).internalName = name := by
      rw [← String.toList_inj, (qualifiedName_splitQualified name).1, qualifiedName,
        ClassTypeSignature.internalName, String.toList_append, String.toList_join, List.flatMap_map]
      simp [ClassTypeSignature.package, ClassTypeSignature.segments, ClassSegment.name]
    rw [toSignature?] at h
    split at h
    · cases h
    · cases h
      rw [TypeSignature.toType, ClassTypeSignature.toType, hinternal]
      rfl
  | array element ih =>
    obtain ⟨inner, hinner, rfl⟩ := Option.map_eq_some_iff.mp h
    rw [TypeSignature.toType, ih hinner]
    rfl

theorem takeClassType?_render {name : String} (hplain : ∀ c ∈ classNameEnd, c ∉ name.toList)
    (hnamed : name ≠ "") (depth : Nat) (rest : List Char) :
    takeClassType? (takeReference? depth) ((object name).render ++ rest)
      = some (.mk (splitQualified name).1 [.mk (splitQualified name).2 []], rest) := by
  obtain ⟨hname, hnoSlash⟩ := qualifiedName_splitQualified name
  have isName : IsName classNameEnd
      (qualifiedName (splitQualified name).1 (splitQualified name).2) := by
    rw [← hname]
    exact ⟨fun hnil => hnamed (String.toList_eq_nil_iff.mp hnil), fun c hc hend => hplain c hend hc⟩
  refine takeClassType?_complete (readsReferences depth) _ _ rest ?_
  rw [render, hname]
  simpa using ClassWriting.mk isName hnoSlash .absent .nil

/-- A type is taken off a text as it stands in a signature, or nothing is. -/
theorem takeType?_render {type : FieldType} (hplain : type.Plain) {depth : Nat}
    (hdepth : type.render.length ≤ depth) (rest : List Char) :
    takeType? (takeReference? depth) (type.render ++ rest) = type.toSignature?.map (·, rest) := by
  induction type generalizing depth with
  | base p => cases p <;> rfl
  | object name =>
    cases depth with
    | zero => cases hdepth
    | succ depth =>
      rw [toSignature?]
      split
      · next hempty =>
        -- the semicolon comes at once, so there is no name to be read
        subst hempty
        rfl
      · next hnamed =>
        have hclass := takeClassType?_render (hplain name rfl) hnamed depth rest
        exact Option.map_eq_some_iff.mpr ⟨_, hclass, rfl⟩
  | array element ih =>
    cases depth with
    | zero => cases hdepth
    | succ depth =>
      have helement := ih hplain (Nat.le_of_succ_le_succ hdepth)
      rw [toSignature?, Option.map_map]
      change (takeType? (takeReference? depth) (element.render ++ rest)).map _ = _
      rw [helement, Option.map_map]
      rfl

end FieldType

/-! ## Methods -/

/-- A descriptor as a signature, if all its classes have names. It declares no type parameters and
says nothing about what is thrown. -/
def MethodDescriptor.toSignature? (d : MethodDescriptor) : Option MethodSignature := do
  let parameters ← d.parameters.mapM FieldType.toSignature?
  let result ← d.result.mapM FieldType.toSignature?
  return { typeParameters := [], parameters, result, throws := [] }

theorem map_toType_of_mapM {types : List FieldType} {ss : List TypeSignature}
    (h : types.mapM FieldType.toSignature? = some ss) :
    ss.map TypeSignature.toType = types.map FieldType.toType := by
  induction types generalizing ss with
  | nil =>
    cases h
    rfl
  | cons first others ih =>
    rw [List.mapM_cons] at h
    obtain ⟨s, hfirst, h⟩ := Option.bind_eq_some_iff.mp h
    obtain ⟨ss, hothers, h⟩ := Option.bind_eq_some_iff.mp h
    cases h
    rw [List.map_cons, List.map_cons, FieldType.toType_of_toSignature? hfirst, ih hothers]

theorem takeUntil?_render {types : List FieldType} (hplain : ∀ type ∈ types, type.Plain)
    {depth fuel : Nat} (hdepth : (types.flatMap FieldType.render).length ≤ depth)
    (hfuel : (types.flatMap FieldType.render).length ≤ fuel) (rest : List Char) :
    takeUntil? ')' (takeType? (takeReference? depth)) fuel
        (types.flatMap FieldType.render ++ ')' :: rest)
      = (types.mapM FieldType.toSignature?).map (·, rest) := by
  induction types generalizing fuel with
  | nil => cases fuel <;> rfl
  | cons first others ih =>
    rw [List.forall_mem_cons] at hplain
    have hpos := first.length_render_pos
    rw [List.flatMap_cons, List.length_append] at hdepth hfuel
    cases fuel with
    | zero => omega
    | succ fuel =>
      have hlater : (others.flatMap FieldType.render).length ≤ fuel := by omega
      have hothers := ih hplain.2 (by omega) hlater
      have hopen : takeChar? ')'
          (first.render ++ (others.flatMap FieldType.render ++ ')' :: rest)) = none :=
        Option.eq_none_iff_forall_ne_some.mpr fun left hleft =>
          (first.render_append_ne _ left).1 (takeChar?_eq_some.mp hleft)
      rw [List.flatMap_cons, List.append_assoc, takeUntil?, hopen, List.mapM_cons]
      dsimp only
      rw [FieldType.takeType?_render hplain.1 (by omega)]
      cases first.toSignature? with
      | none => rfl -- what follows is not looked at any more
      | some s =>
        rw [Option.map_some, Option.bind_eq_bind, Option.bind_some, hothers]
        cases others.mapM FieldType.toSignature? <;> rfl

theorem takeResult?_render {result : Option FieldType} (hplain : ∀ type ∈ result, type.Plain)
    {depth : Nat} (hdepth : (result.elim ['V'] FieldType.render).length ≤ depth) :
    takeResult? depth (result.elim ['V'] FieldType.render)
      = (result.mapM FieldType.toSignature?).map (·, []) := by
  cases result with
  | none => rfl
  | some type =>
    have htype := FieldType.takeType?_render (hplain type rfl) hdepth []
    have hvoid := type.render_append_ne []
    rw [List.append_nil] at htype hvoid
    rw [Option.elim_some, takeResult?, htype]
    · change _ = (type.toSignature?.map some).map (·, [])
      rw [Option.map_map, Option.map_map]
      rfl
    · exact fun left => (hvoid left).2

/-- **A descriptor is read as a signature** that says the same, unless the name of a class in it is
empty. -/
theorem ofChars?_render {d : MethodDescriptor} (hplain : ∀ type ∈ d.types, type.Plain) :
    MethodSignature.ofChars? d.render = d.toSignature? := by
  obtain ⟨hparameters, hresult⟩ := List.forall_mem_append.mp hplain
  have htext : d.render = '(' :: (d.parameters.flatMap FieldType.render
      ++ ')' :: d.result.elim ['V'] FieldType.render) := by
    rw [MethodDescriptor.render, List.cons_append]
  rw [htext]
  generalize hdepth : ('(' :: (d.parameters.flatMap FieldType.render
    ++ ')' :: d.result.elim ['V'] FieldType.render)).length = depth
  have hlength : (d.parameters.flatMap FieldType.render).length
      + (d.result.elim ['V'] FieldType.render).length ≤ depth := by
    rw [← hdepth]
    simp only [List.length_append, List.length_cons]
    omega
  have hresultLength : (d.result.elim ['V'] FieldType.render).length ≤ depth := by omega
  have htakeResult := takeResult?_render
    (fun type htype => hresult type (Option.mem_toList.mpr htype)) hresultLength
  unfold MethodSignature.ofChars? MethodDescriptor.toSignature?
  dsimp only
  rw [hdepth]
  -- there are no type parameters in front of the parenthesis
  change (takeUntil? ')' (takeType? (takeReference? depth)) _ _ >>= _) = _
  rw [takeUntil?_render hparameters (by omega) (List.prefix_append ..).length_le]
  cases d.parameters.mapM FieldType.toSignature? with
  | none => rfl
  | some parameters =>
    change (takeResult? depth _ >>= _) = _
    rw [htakeResult]
    cases d.result.mapM FieldType.toSignature? <;> rfl

end ClassFile

/-! ## Definitions -/

namespace MethodStub

/-- A method with another generic signature, or with none. -/
def withSignature (m : MethodStub) (signature : Option String) : MethodStub := { m with signature }

theorem isInitializer_withSignature (m : MethodStub) (signature : Option String) :
    (m.withSignature signature).isInitializer = m.isInitializer := rfl

/-- A signature without generics gives a method the types of its descriptor. -/
theorem ofSignature_of_toSignature? (m : MethodStub) {d : MethodDescriptor} {s : MethodSignature}
    (h : d.toSignature? = some s) : m.ofSignature s = m.ofDescriptor d := by
  obtain ⟨parameters, hparameters, h⟩ := Option.bind_eq_some_iff.mp h
  obtain ⟨result, hresult, h⟩ := Option.bind_eq_some_iff.mp h
  cases h
  have hresult : result.map TypeSignature.toType = d.result.map FieldType.toType := by
    cases hd : d.result with
    | none =>
      rw [hd] at hresult
      cases hresult
      rfl
    | some type =>
      rw [hd] at hresult
      obtain ⟨s, hs, rfl⟩ := Option.map_eq_some_iff.mp hresult
      rw [Option.map_some, Option.map_some, FieldType.toType_of_toSignature? hs]
  rw [ofSignature, ofDescriptor, hresult, map_toType_of_mapM hparameters]
  rfl

/-- Whichever reader has the last word, the method has the types of its descriptor. -/
theorem toMethodDef?_ownDescriptor (m : MethodStub) {d : MethodDescriptor}
    (hd : MethodDescriptor.parse m.descriptor = .ok d) (hplain : ∀ type ∈ d.types, type.Plain) :
    (m.withSignature (some m.descriptor)).toMethodDef? = some (m.ofDescriptor d) := by
  have hsignature : (m.withSignature (some m.descriptor)).signature? = d.toSignature? := by
    rw [← ofChars?_render hplain, signature?, withSignature, Option.bind_some,
      MethodSignature.parse, (MethodDescriptor.parse_eq_ok.mp hd).1, String.toList_ofList]
    cases MethodSignature.ofChars? d.render <;> rfl
  rw [toMethodDef?, hsignature]
  cases hs : d.toSignature? with
  | some s => exact congrArg some (ofSignature_of_toSignature? _ hs)
  | none =>
    rw [withSignature, hd]
    rfl

end MethodStub

/-- **A descriptor in the place of a signature makes no difference.** A method whose descriptor can
be read is defined with the types of the descriptor, whether it has no generic signature or its
descriptor for one, and so is its class. -/
theorem toClassDef_ownDescriptor (m : MethodStub) {d : MethodDescriptor}
    (hd : MethodDescriptor.parse m.descriptor = .ok d)
    (hnames : ∀ type ∈ d.types, ∀ name ∈ type.className?,
      '.' ∉ name.toList ∧ '<' ∉ name.toList) :
    (m.withSignature none).toMethodDef? = some (m.ofDescriptor d)
      ∧ (m.withSignature (some m.descriptor)).toMethodDef? = some (m.ofDescriptor d)
      ∧ ∀ (stub : ClassStub) (before after : List MethodStub),
        { stub with methods := before ++ m.withSignature (some m.descriptor) :: after }.toClassDef
          = { stub with methods := before ++ m.withSignature none :: after }.toClassDef := by
  have hplain : ∀ type ∈ d.types, type.Plain := by
    intro type htype name hname c hc
    have hdelimited := (MethodDescriptor.parse_eq_ok.mp hd).2 type htype name hname
    obtain ⟨hdot, hopen⟩ := hnames type htype name hname
    simp only [classNameEnd, List.mem_cons, List.not_mem_nil, or_false] at hc
    rcases hc with rfl | rfl | rfl
    · exact hopen
    · exact hdelimited
    · exact hdot
  have hnone : (m.withSignature none).toMethodDef? = some (m.ofDescriptor d) := by
    rw [MethodStub.toMethodDef?, MethodStub.withSignature, hd]
    rfl
  have hown := m.toMethodDef?_ownDescriptor hd hplain
  have hmethods : ∀ before after : List MethodStub,
      ((before ++ m.withSignature (some m.descriptor) :: after).filter
          (!·.isInitializer)).filterMap MethodStub.toMethodDef?
        = ((before ++ m.withSignature none :: after).filter
          (!·.isInitializer)).filterMap MethodStub.toMethodDef? := by
    intro before after
    rw [List.filter_append, List.filter_append, List.filterMap_append, List.filterMap_append,
      List.filter_cons, List.filter_cons, MethodStub.isInitializer_withSignature,
      MethodStub.isInitializer_withSignature]
    split
    · rw [List.filterMap_cons, List.filterMap_cons, hown, hnone]
    · rfl
  refine ⟨hnone, hown, fun stub before after => ?_⟩
  unfold ClassStub.toClassDef
  dsimp only
  rw [hmethods]
  rfl

/-- A method by its descriptor. -/
def putMethod (descriptor : String) : MethodStub where
  name := "put"
  descriptor
  signature := none
  access := AccessFlags.publicBit

/-- The first descriptor is read as a signature. The second is not, because a class in it has no
name, and is read as a descriptor then. -/
theorem putMethod_ownDescriptor :
    ((putMethod "([Ljava/util/Map$Entry;J)Lp/Named;").withSignature
          (some "([Ljava/util/Map$Entry;J)Lp/Named;")).signature?.isSome = true
      ∧ ((putMethod "([Ljava/util/Map$Entry;J)Lp/Named;").withSignature
          (some "([Ljava/util/Map$Entry;J)Lp/Named;")).toMethodDef?
        = ((putMethod "([Ljava/util/Map$Entry;J)Lp/Named;").withSignature none).toMethodDef?
      ∧ ((putMethod "(L;)V").withSignature (some "(L;)V")).signature?.isSome = false
      ∧ ((putMethod "(L;)V").withSignature (some "(L;)V")).toMethodDef?
        = ((putMethod "(L;)V").withSignature none).toMethodDef? := by
  obtain ⟨hnone, hown, -⟩ := toClassDef_ownDescriptor
    (putMethod "([Ljava/util/Map$Entry;J)Lp/Named;")
    (d := ⟨[.array (.object "java/util/Map$Entry"), .base .long], some (.object "p/Named")⟩)
    (by decide) (by decide)
  obtain ⟨hnone', hown', -⟩ := toClassDef_ownDescriptor (putMethod "(L;)V")
    (d := ⟨[.object ""], none⟩) (by decide) (by decide)
  exact ⟨by decide, hown.trans hnone.symm, by decide, hown'.trans hnone'.symm⟩

end Conformance
