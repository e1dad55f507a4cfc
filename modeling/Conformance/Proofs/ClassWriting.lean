import Mathlib.Data.List.Dedup
import Mathlib.Data.List.Perm.Subperm
import Conformance.ClassFile.Builder
import Conformance.Proofs.PoolReading

/-!
# The numbers in a class file that is written

A builder lays out the constant pool while it collects the numbers that the rest of the file
mentions. What ties the two together is the list of constants that the growing pool stands for
(`PoolBuilder.Holds`): a number that was given out denotes a text or a class in that list
(`IsText`, `IsClass`), and goes on to denote it however many constants are entered later. Whether
one text serves as the name of a class, of a method and of an attribute does not matter.

So the file of a class has two parts, the bytes of some constants and bytes with numbers for what
the builder describes (`enters_body`).
-/

namespace Conformance.ClassFile

/-! ## What is written -/

/-- A method in a file. -/
def MethodSpec.toMember (method : MethodSpec) : Member where
  access := method.access
  name := method.name
  descriptor := method.descriptor
  signature := method.signature

def MethodSpec.strings (method : MethodSpec) : List String :=
  method.name :: method.descriptor :: method.signature.toList

namespace Builder

/-- What the file of a class says. -/
def file (builder : Builder) : ClassFile where
  minorVersion := 0
  majorVersion := 52
  access := builder.access
  thisClass := builder.thisClass
  superClass := builder.superClass
  interfaces := builder.interfaces
  fields := []
  methods := builder.methods.map MethodSpec.toMember
  signature := builder.signature

/-- The classes that are entered in the constant pool. -/
def classNames (builder : Builder) : List String :=
  builder.thisClass :: (builder.superClass.toList ++ builder.interfaces)

/-- The strings of a builder. -/
def strings (builder : Builder) : List String :=
  builder.classNames ++ builder.signature.toList ++ builder.methods.flatMap MethodSpec.strings

/-- The texts that are entered in the constant pool. -/
def texts (builder : Builder) : List String :=
  builder.strings ++ if builder.hasSignature then [signatureAttribute] else []

end Builder

/-! ## Numbers that were given out -/

/-- A number that stands for a text. -/
def IsText (constants : List Constant) (index : UInt16) (text : String) : Prop :=
  ∃ n, index = UInt16.ofNat (n + 1) ∧ constants[n]? = some (.utf8 text)

/-- A number that stands for a class. -/
def IsClass (constants : List Constant) (index : UInt16) (name : String) : Prop :=
  ∃ n nameIndex, index = UInt16.ofNat (n + 1) ∧ constants[n]? = some (.classRef nameIndex)
    ∧ IsText constants nameIndex name

/-- A number that stands for a superclass. -/
def IsSuperClass (constants : List Constant) (index : UInt16) : Option String → Prop
  | some name => IsClass constants index name
  | none => index = 0

/-- Numbers that stand for a method. -/
structure IsMethod (constants : List Constant) (indices : MethodIndices) (method : MethodSpec) :
    Prop where
  access : indices.access = method.access
  name : IsText constants indices.name method.name
  descriptor : IsText constants indices.descriptor method.descriptor
  signature : Option.Rel (IsText constants) indices.signature method.signature

/-- The numbers under which the parts of a class were entered. -/
structure ClassIndices where
  thisClass : UInt16
  superClass : UInt16
  interfaces : List UInt16
  label : Option UInt16
  signature : Option UInt16
  methods : List MethodIndices

/-- Numbers that stand for the parts of a class. -/
structure IsClassFile (constants : List Constant) (indices : ClassIndices) (builder : Builder) :
    Prop where
  thisClass : IsClass constants indices.thisClass builder.thisClass
  superClass : IsSuperClass constants indices.superClass builder.superClass
  interfaces : List.Forall₂ (IsClass constants) indices.interfaces builder.interfaces
  label : Option.Rel (IsText constants) indices.label
    (if builder.hasSignature then some signatureAttribute else none)
  signature : Option.Rel (IsText constants) indices.signature builder.signature
  methods : List.Forall₂ (IsMethod constants) indices.methods builder.methods

/-- What follows the constant pool. -/
def ClassIndices.bytes (indices : ClassIndices) (access : AccessFlags) : List UInt8 :=
  bytesOfU2 access ++ bytesOfU2 indices.thisClass ++ bytesOfU2 indices.superClass
    ++ bytesOfU2 (UInt16.ofNat indices.interfaces.length) ++ indices.interfaces.flatMap bytesOfU2
    ++ bytesOfU2 0
    ++ bytesOfU2 (UInt16.ofNat indices.methods.length)
    ++ indices.methods.flatMap (Builder.methodBytes indices.label)
    ++ Builder.signatureTable indices.label indices.signature

variable {constants : List Constant}

theorem getElem?_append_some (more : List Constant) {n : Nat} {c : Constant}
    (h : constants[n]? = some c) : (constants ++ more)[n]? = some c := by
  obtain ⟨hn, -⟩ := List.getElem?_eq_some_iff.mp h
  rw [List.getElem?_append_left hn, h]

theorem IsText.append {index : UInt16} {text : String} (h : IsText constants index text)
    (more : List Constant) : IsText (constants ++ more) index text := by
  obtain ⟨n, hindex, hn⟩ := h
  exact ⟨n, hindex, getElem?_append_some more hn⟩

theorem IsClass.append {index : UInt16} {name : String} (h : IsClass constants index name)
    (more : List Constant) : IsClass (constants ++ more) index name := by
  obtain ⟨n, nameIndex, hindex, hn, htext⟩ := h
  exact ⟨n, nameIndex, hindex, getElem?_append_some more hn, htext.append more⟩

/-! ## The growing pool -/

namespace PoolBuilder

/-- The constants that a growing pool stands for; `texts` and `classes` are what may be entered. -/
structure Holds (texts classes : List String) (pool : PoolBuilder) (constants : List Constant) :
    Prop where
  bytes : pool.bytes = constants.flatMap Constant.encode
  count : pool.count = UInt16.ofNat constants.length
  size : constants.length = pool.texts.length + pool.classes.length
  fits : ∀ c ∈ constants, c.Fits
  narrow : ∀ c ∈ constants, c.isWide = false
  distinct_texts : (pool.texts.map Prod.fst).Nodup
  distinct_classes : (pool.classes.map Prod.fst).Nodup
  isText : ∀ entry ∈ pool.texts, entry.1 ∈ texts ∧ IsText constants entry.2 entry.1
  isClass : ∀ entry ∈ pool.classes, entry.1 ∈ classes ∧ IsClass constants entry.2 entry.1

variable {texts classes : List String}

theorem holds_empty : Holds texts classes {} [] where
  bytes := rfl
  count := rfl
  size := rfl
  fits := by simp
  narrow := by simp
  distinct_texts := .nil
  distinct_classes := .nil
  isText := by simp
  isClass := by simp

/-- There are no more constants than there are texts and classes to enter. -/
theorem Holds.length_le {pool : PoolBuilder} (h : Holds texts classes pool constants) :
    constants.length ≤ texts.dedup.length + classes.dedup.length := by
  have hbound : ∀ {entries : List (String × UInt16)} {allowed : List String},
      (entries.map Prod.fst).Nodup → (∀ entry ∈ entries, entry.1 ∈ allowed) →
      entries.length ≤ allowed.dedup.length := by
    intro entries allowed hdistinct hmem
    rw [← List.length_map (f := Prod.fst)]
    refine (List.subperm_of_subset hdistinct fun name hname => ?_).length_le
    obtain ⟨entry, hentry, rfl⟩ := List.mem_map.mp hname
    exact List.mem_dedup.mpr (hmem entry hentry)
  rw [h.size]
  exact Nat.add_le_add (hbound h.distinct_texts fun entry hentry => (h.isText entry hentry).1)
    (hbound h.distinct_classes fun entry hentry => (h.isClass entry hentry).1)

/-- A step that enters constants, and what is known afterwards of what it gives. -/
def Enters {α : Type} (texts classes : List String) (step : StateM PoolBuilder α)
    (known : List Constant → α → Prop) : Prop :=
  ∀ pool constants, Holds texts classes pool constants →
    ∃ more, Holds texts classes (step pool).2 (constants ++ more)
      ∧ known (constants ++ more) (step pool).1

/-- What stays known when further constants are entered. -/
def Stays {α : Type} (known : List Constant → α → Prop) : Prop :=
  ∀ constants more a, known constants a → known (constants ++ more) a

theorem stays_all {α β : Type} {known : List Constant → α → β → Prop}
    (h : ∀ b, Stays (known · · b)) (list : List β) :
    Stays fun constants found => List.Forall₂ (known constants) found list :=
  fun _ more _ hfound => hfound.imp fun _ b hb => h b _ more _ hb

namespace Enters

variable {α β : Type} {step : StateM PoolBuilder α} {next : α → StateM PoolBuilder β}
  {known : List Constant → α → Prop} {knownNext : α → List Constant → β → Prop}

theorem pure (a : α) : Enters texts classes (Pure.pure a) fun _ b => b = a := by
  intro pool constants h
  exact ⟨[], by rwa [List.append_nil], rfl⟩

theorem bind (h : Enters texts classes step known) (hstays : Stays known)
    (hnext : ∀ a, Enters texts classes (next a) (knownNext a)) :
    Enters texts classes (step >>= next)
      fun constants b => ∃ a, known constants a ∧ knownNext a constants b := by
  intro pool constants hholds
  obtain ⟨more, hmid, hknown⟩ := h pool constants hholds
  obtain ⟨more', hend, hknown'⟩ := hnext _ _ _ hmid
  rw [List.append_assoc] at hend hknown'
  refine ⟨more ++ more', hend, _, ?_, hknown'⟩
  have := hstays _ more' _ hknown
  rwa [List.append_assoc] at this

theorem mono {known' : List Constant → α → Prop} (h : Enters texts classes step known)
    (himp : ∀ constants a, known constants a → known' constants a) :
    Enters texts classes step known' := by
  intro pool constants hholds
  obtain ⟨more, hend, hknown⟩ := h pool constants hholds
  exact ⟨more, hend, himp _ _ hknown⟩

/-- Steps for the entries of a list, one after the other. -/
theorem mapM {step : α → StateM PoolBuilder β} {known : List Constant → β → α → Prop}
    {list : List α} (h : ∀ a ∈ list, Enters texts classes (step a) (known · · a))
    (hstays : ∀ a, Stays (known · · a)) :
    Enters texts classes (list.mapM step)
      fun constants found => List.Forall₂ (known constants) found list := by
  induction list with
  | nil => exact (pure []).mono fun _ _ hfound => hfound ▸ .nil
  | cons a list ih =>
    rw [List.forall_mem_cons] at h
    rw [List.mapM_cons]
    refine ((h.1.bind (hstays a)) fun b => (ih h.2).bind (stays_all hstays list) fun found =>
      pure (b :: found)).mono ?_
    rintro constants found ⟨b, hb, others, hothers, rfl⟩
    exact .cons hb hothers

end Enters

theorem mem_of_lookup {entries : List (String × UInt16)} {name : String} {index : UInt16}
    (h : entries.lookup name = some index) : (name, index) ∈ entries := by
  obtain ⟨before, after, rfl, -⟩ := List.lookup_eq_some_iff.mp h
  exact List.mem_append_right _ (List.mem_cons_self ..)

theorem not_mem_of_lookup {entries : List (String × UInt16)} {name : String}
    (h : entries.lookup name = none) : name ∉ entries.map Prod.fst := by
  intro hmem
  obtain ⟨entry, hentry, rfl⟩ := List.mem_map.mp hmem
  have := List.lookup_eq_none_iff.mp h entry hentry
  simp at this

theorem stays_isText (s : String) : Stays (IsText · · s) :=
  fun _ more _ h => h.append more

theorem stays_isClass (name : String) : Stays (IsClass · · name) :=
  fun _ more _ h => h.append more

theorem stays_isSuperClass (name : Option String) : Stays (IsSuperClass · · name) := by
  intro constants more index h
  cases name with
  | none => exact h
  | some name => exact IsClass.append h more

theorem stays_option (value : Option String) :
    Stays fun constants index => Option.Rel (IsText constants) index value := by
  intro constants more index h
  cases h with
  | none => exact .none
  | some hindex => exact .some (hindex.append more)

theorem stays_isMethod (method : MethodSpec) : Stays (IsMethod · · method) :=
  fun _ more _ h => ⟨h.access, h.name.append more, h.descriptor.append more,
    stays_option _ _ more _ h.signature⟩

/-- The number of a new constant. -/
theorem Holds.next {pool : PoolBuilder} (h : Holds texts classes pool constants) :
    pool.count + 1 = UInt16.ofNat (constants.length + 1) := by
  rw [h.count, UInt16.ofNat_add]
  rfl

section

variable (hplain : ∀ s ∈ texts, ModifiedUtf8.IsPlain s) (hshort : ∀ s ∈ texts, s.toUTF8.size ≤ 65535)
include hplain hshort

/-- Entering a text gives a number that stands for it. -/
theorem enters_text {value : String} (hvalue : value ∈ texts) :
    Enters texts classes (text value) (IsText · · value) := by
  intro pool constants h
  unfold text
  cases hlookup : pool.texts.lookup value with
  | some index =>
    refine ⟨[], ?_, ?_⟩
    · rwa [List.append_nil]
    · rw [List.append_nil]
      exact (h.isText _ (mem_of_lookup hlookup)).2
  | none =>
    have hbytes := ModifiedUtf8.encode_of_isPlain (hplain value hvalue)
    have hnew : IsText (constants ++ [.utf8 value]) (pool.count + 1) value :=
      ⟨constants.length, h.next, List.getElem?_concat_length⟩
    refine ⟨[.utf8 value], ?_, hnew⟩
    dsimp only
    constructor
    · rw [List.flatMap_append, List.flatMap_singleton, h.bytes, Constant.encode, hbytes]
    · rw [h.next, List.length_append, List.length_singleton]
    · rw [List.length_append, h.size, List.length_singleton, List.length_cons]
      exact Nat.add_right_comm ..
    · refine List.forall_mem_append.mpr ⟨h.fits, List.forall_mem_singleton.mpr ?_⟩
      have hlength : value.toUTF8.toList.length = value.toUTF8.size := by
        rw [ByteArray.toList, ModifiedUtf8.toList_loop]
        exact Array.length_toList
      have := hshort value hvalue
      rw [Constant.Fits, hbytes, hlength]
      omega
    · exact List.forall_mem_append.mpr ⟨h.narrow, List.forall_mem_singleton.mpr rfl⟩
    · exact List.nodup_cons.mpr ⟨not_mem_of_lookup hlookup, h.distinct_texts⟩
    · exact h.distinct_classes
    · refine List.forall_mem_cons.mpr ⟨⟨hvalue, hnew⟩, fun entry hentry => ?_⟩
      exact ⟨(h.isText entry hentry).1, (h.isText entry hentry).2.append _⟩
    · exact fun entry hentry => ⟨(h.isClass entry hentry).1, (h.isClass entry hentry).2.append _⟩

/-- Entering a class gives a number that stands for it. -/
theorem enters_classRef {name : String} (hname : name ∈ classes) (htext : name ∈ texts) :
    Enters texts classes (classRef name) (IsClass · · name) := by
  intro pool constants h
  unfold classRef
  cases hlookup : pool.classes.lookup name with
  | some index =>
    refine ⟨[], ?_, ?_⟩
    · rwa [List.append_nil]
    · rw [List.append_nil]
      exact (h.isClass _ (mem_of_lookup hlookup)).2
  | none =>
    obtain ⟨more, hmid, hindex⟩ := enters_text hplain hshort htext pool constants h
    have hsame : (text name pool).2.classes = pool.classes := by
      unfold text
      cases pool.texts.lookup name <;> rfl
    dsimp only
    generalize text name pool = entered at hmid hindex hsame
    obtain ⟨nameIndex, pool'⟩ := entered
    dsimp only at hmid hindex hsame ⊢
    have hnew : IsClass ((constants ++ more) ++ [.classRef nameIndex]) (pool'.count + 1) name :=
      ⟨_, nameIndex, hmid.next, List.getElem?_concat_length, hindex.append _⟩
    have hlength : ((constants ++ more) ++ [Constant.classRef nameIndex]).length
        = (constants ++ more).length + 1 := List.length_append
    refine ⟨more ++ [.classRef nameIndex], ?_, by rwa [← List.append_assoc]⟩
    rw [← List.append_assoc]
    constructor
    · dsimp only
      rw [List.flatMap_append, List.flatMap_singleton, hmid.bytes, Constant.encode]
    · dsimp only
      rw [hmid.next, hlength]
    · rw [hlength, hmid.size, List.length_cons]
      exact Nat.add_assoc ..
    · exact List.forall_mem_append.mpr ⟨hmid.fits, List.forall_mem_singleton.mpr trivial⟩
    · exact List.forall_mem_append.mpr ⟨hmid.narrow, List.forall_mem_singleton.mpr rfl⟩
    · exact hmid.distinct_texts
    · exact List.nodup_cons.mpr ⟨hsame ▸ not_mem_of_lookup hlookup, hmid.distinct_classes⟩
    · exact fun entry hentry =>
        ⟨(hmid.isText entry hentry).1, (hmid.isText entry hentry).2.append _⟩
    · refine List.forall_mem_cons.mpr ⟨⟨hname, hnew⟩, fun entry hentry => ?_⟩
      exact ⟨(hmid.isClass entry hentry).1, (hmid.isClass entry hentry).2.append _⟩

theorem enters_text? {value : Option String} (hvalue : ∀ s ∈ value, s ∈ texts) :
    Enters texts classes (text? value) fun constants index =>
      Option.Rel (IsText constants) index value := by
  cases value with
  | none => exact (Enters.pure none).mono fun _ _ hindex => hindex ▸ .none
  | some s =>
    have htext : Enters texts classes (text s) (IsText · · s) :=
      enters_text hplain hshort (hvalue s rfl)
    refine (htext.bind (stays_isText s) fun index => Enters.pure (some index)).mono ?_
    rintro constants found ⟨index, hindex, rfl⟩
    exact .some hindex

theorem enters_method {method : MethodSpec} (hmethod : ∀ s ∈ method.strings, s ∈ texts) :
    Enters texts classes method.enter (IsMethod · · method) := by
  simp only [MethodSpec.strings, List.forall_mem_cons] at hmethod
  obtain ⟨hname, hdescriptor, hsignature⟩ := hmethod
  refine ((enters_text hplain hshort hname).bind (stays_isText _) fun name =>
    (enters_text hplain hshort hdescriptor).bind (stays_isText _) fun descriptor =>
      (enters_text? hplain hshort fun s hs => hsignature s (Option.mem_toList.mpr hs)).bind
        (stays_option _) fun signature => Enters.pure _).mono ?_
  rintro constants indices ⟨name, hname, descriptor, hdescriptor, signature, hsignature, rfl⟩
  exact ⟨rfl, hname, hdescriptor, hsignature⟩

end

end PoolBuilder

namespace Builder

open PoolBuilder

variable {builder : Builder}

/-- Entering a superclass, if there is one. -/
def enterSuperClass : Option String → StateM PoolBuilder UInt16
  | some name => classRef name
  | none => pure 0

theorem body_eq : builder.body = (do
    let thisClass ← classRef builder.thisClass
    let superClass ← enterSuperClass builder.superClass
    let interfaces ← builder.interfaces.mapM classRef
    let label ← text? (if builder.hasSignature then some signatureAttribute else none)
    let signature ← text? builder.signature
    let methods ← builder.methods.mapM MethodSpec.enter
    return (ClassIndices.mk thisClass superClass interfaces label signature methods).bytes
      builder.access) := by
  unfold body enterSuperClass
  cases builder.superClass <;> rfl

/-- **What follows the constant pool has numbers for what the builder describes.** -/
theorem enters_body (hplain : ∀ s ∈ builder.texts, ModifiedUtf8.IsPlain s)
    (hshort : ∀ s ∈ builder.texts, s.toUTF8.size ≤ 65535) :
    Enters builder.texts builder.classNames builder.body fun constants bytes =>
      ∃ indices : ClassIndices, IsClassFile constants indices builder
        ∧ bytes = indices.bytes builder.access := by
  have hclass : ∀ name ∈ builder.classNames, Enters builder.texts builder.classNames
      (classRef name) (IsClass · · name) := fun name hname =>
    enters_classRef hplain hshort hname (by simp [texts, strings, hname])
  have hsuper : Enters builder.texts builder.classNames (enterSuperClass builder.superClass)
      (IsSuperClass · · builder.superClass) := by
    cases hcase : builder.superClass with
    | none => exact (Enters.pure 0).mono fun _ _ hindex => hindex
    | some name => exact hclass name (by simp [classNames, hcase])
  have hinterface : ∀ name ∈ builder.interfaces, name ∈ builder.classNames := fun name hname => by
    simp [classNames, hname]
  have hlabel : ∀ s ∈ if builder.hasSignature then some signatureAttribute else none,
      s ∈ builder.texts := by
    intro s hs
    split at hs
    · next hsigned =>
      cases hs
      simp [texts, hsigned]
    · cases hs
  have hsignature : ∀ s ∈ builder.signature, s ∈ builder.texts := fun s hs => by
    simp [texts, strings, Option.mem_def.mp hs]
  have hmethod : ∀ method ∈ builder.methods, Enters builder.texts builder.classNames method.enter
      (IsMethod · · method) := fun method hmethod => enters_method hplain hshort fun s hs => by
    simp only [texts, strings, List.mem_append, List.mem_flatMap]
    exact .inl (.inr ⟨method, hmethod, hs⟩)
  rw [body_eq]
  refine ((hclass _ (List.mem_cons_self ..)).bind (stays_isClass _) fun thisClass =>
    hsuper.bind (stays_isSuperClass _) fun superClass =>
      (Enters.mapM (fun name hname => hclass name (hinterface name hname)) stays_isClass).bind
        (stays_all stays_isClass _) fun interfaces =>
          (enters_text? hplain hshort hlabel).bind (stays_option _) fun label =>
            (enters_text? hplain hshort hsignature).bind (stays_option _) fun signature =>
              (Enters.mapM hmethod stays_isMethod).bind (stays_all stays_isMethod _)
                fun methods => Enters.pure _).mono ?_
  rintro constants bytes ⟨thisClass, hthis, superClass, hsuper, interfaces, hinterfaces, label,
    hlabel, signature, hsignature, methods, hmethods, rfl⟩
  exact ⟨_, ⟨hthis, hsuper, hinterfaces, hlabel, hsignature, hmethods⟩, rfl⟩

end Builder

end Conformance.ClassFile
