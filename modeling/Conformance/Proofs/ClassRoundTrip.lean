import Conformance.Proofs.ClassWriting
import Conformance.Proofs.ExactLength

/-!
# Reading a class file that was written

As long as no constant takes two numbers and there are fewer constants than numbers, the number
that a constant was given leads to this constant and to no other (`get_of_getElem?`). Then the
bytes with numbers for the parts of a class are consumed, part by part, as what the numbers stand
for. Counts and lengths have two bytes; a class is `Writable` if they fit, and its file is then
read as what the builder describes (`parse_toBytes`).
-/

namespace Conformance.ClassFile

open Reader

/-! ## Numbers and constants -/

/-- A table in which every constant has one number, and none the number zero. -/
structure Numbered (constants : List Constant) : Prop where
  fits : ∀ c ∈ constants, c.Fits
  narrow : ∀ c ∈ constants, c.isWide = false
  size : constants.length ≤ 65534

variable {constants : List Constant}

theorem flatMap_slots_of_narrow (h : ∀ c ∈ constants, c.isWide = false) :
    constants.flatMap Constant.slots = constants.map some := by
  induction constants with
  | nil => rfl
  | cons c constants ih =>
    rw [List.forall_mem_cons] at h
    rw [List.flatMap_cons, ih h.2, Constant.slots, if_neg (by rw [h.1]; exact Bool.false_ne_true)]
    rfl

namespace Numbered

variable (hconstants : Numbered constants)
include hconstants

theorem toNat_number {n : Nat} (hn : n < constants.length) :
    (UInt16.ofNat (n + 1)).toNat = n + 1 := by
  have := hconstants.size
  exact toNat_ofNat_u2 (by omega)

theorem get_of_getElem? {n : Nat} {c : Constant} (h : constants[n]? = some c) :
    (ConstantPool.ofConstants constants).get (UInt16.ofNat (n + 1)) = .ok c := by
  obtain ⟨hn, rfl⟩ := List.getElem?_eq_some_iff.mp h
  have hsplit : constants = constants.take n ++ constants[n] :: constants.drop (n + 1) := by
    rw [List.getElem_cons_drop, List.take_append_drop]
  have hbefore : ∀ c ∈ constants.take n, c.isWide = false := fun c hc =>
    hconstants.narrow c (List.mem_of_mem_take hc)
  refine ConstantPool.get_ofConstants hsplit ?_
  rw [hconstants.toNat_number hn, flatMap_slots_of_narrow hbefore, List.length_map,
    List.length_take, Nat.min_eq_left (Nat.le_of_lt hn)]

theorem text_of_isText {index : UInt16} {text : String} (h : IsText constants index text) :
    (ConstantPool.ofConstants constants).text index = .ok text := by
  obtain ⟨n, rfl, hn⟩ := h
  rw [ConstantPool.text, hconstants.get_of_getElem? hn]

theorem className_of_isClass {index : UInt16} {name : String} (h : IsClass constants index name) :
    (ConstantPool.ofConstants constants).className index = .ok name := by
  obtain ⟨n, nameIndex, rfl, hn, htext⟩ := h
  rw [ConstantPool.className, hconstants.get_of_getElem? hn]
  exact hconstants.text_of_isText htext

theorem ne_zero_of_isClass {index : UInt16} {name : String} (h : IsClass constants index name) :
    index ≠ 0 := by
  obtain ⟨n, nameIndex, rfl, hn, -⟩ := h
  obtain ⟨hlt, -⟩ := List.getElem?_eq_some_iff.mp hn
  intro hzero
  have := hconstants.toNat_number hlt
  rw [hzero] at this
  exact Nat.succ_ne_zero n this.symm

end Numbered

/-! ## The parts of a file -/

theorem Reader.consumes_lookup {α : Type} {answer : Except Fault α} {value : α}
    (h : answer = .ok value) : (lookup answer).Consumes [] value := by
  subst h
  exact .pure value

/-- A number of two bytes and what it leads to. -/
theorem Reader.consumes_u2_lookup {α : Type} {find : UInt16 → Except Fault α} {index : UInt16}
    {value : α} (h : find index = .ok value) :
    (u2 >>= fun index => lookup (find index)).Consumes (bytesOfU2 index) value := by
  have := (consumes_u2 index).bind (f := fun index => lookup (find index)) (consumes_lookup h)
  rwa [List.append_nil] at this

/-- A number of two bytes, what it leads to, and a reader that goes on from there. -/
theorem Reader.consumes_u2_lookup_bind {α β : Type} {find : UInt16 → Except Fault α}
    {index : UInt16} {value : α} {next : α → Reader β} {taken : List UInt8} {b : β}
    (h : find index = .ok value) (hnext : (next value).Consumes taken b) :
    (u2 >>= fun index => lookup (find index) >>= next).Consumes (bytesOfU2 index ++ taken) b :=
  (consumes_u2 index).bind ((consumes_lookup h).bind hnext)

/-- As many items as two bytes say. -/
theorem Reader.consumes_times {α β : Type} {item : Reader β} {encode : α → List UInt8}
    {list : List α} {values : List β}
    (h : List.Forall₂ (fun a value => item.Consumes (encode a) value) list values)
    (hlength : values.length ≤ 65535) :
    (times (UInt16.ofNat list.length).toNat item).Consumes (list.flatMap encode) values := by
  have hcount : (UInt16.ofNat list.length).toNat = values.length := by
    rw [h.length_eq]
    exact toNat_ofNat_u2 (by omega)
  have hchunks : List.Forall₂ item.Consumes (list.map encode) values :=
    List.forall₂_map_left_iff.mpr h
  rw [hcount, List.flatMap_def]
  exact .times hchunks

namespace Numbered

variable (hconstants : Numbered constants)
include hconstants

theorem consumes_readClassName {index : UInt16} {name : String}
    (h : IsClass constants index name) :
    (readClassName (.ofConstants constants)).Consumes (bytesOfU2 index) name :=
  consumes_u2_lookup (hconstants.className_of_isClass h)

theorem consumes_readSuperClass {index : UInt16} {name : Option String}
    (h : IsSuperClass constants index name) :
    (readSuperClass (.ofConstants constants)).Consumes (bytesOfU2 index) name := by
  rw [← List.append_nil (bytesOfU2 index)]
  refine (consumes_u2 index).bind ?_
  cases name with
  | none =>
    have hzero : index = 0 := h
    rw [if_pos hzero]
    exact .pure none
  | some name =>
    rw [if_neg (hconstants.ne_zero_of_isClass h)]
    exact (consumes_lookup (hconstants.className_of_isClass h)).map some

theorem signatureOf_bytesOfU2 {index : UInt16} {text : String} (h : IsText constants index text) :
    signatureOf (.ofConstants constants) (bytesOfU2 index) = .ok text := by
  have hread := (consumes_u2_lookup (hconstants.text_of_isText h)).whole
    (bytesOfU2 index).length []
  rw [List.append_nil] at hread
  rw [signatureOf, Reader.run, ← bind_assoc, bind_apply, hread]
  rfl

/-- The bytes of the one attribute that is written. -/
theorem consumes_readAttribute {label index : UInt16} {text : String}
    (hlabel : IsText constants label signatureAttribute) (h : IsText constants index text) :
    (readAttribute (.ofConstants constants)).Consumes
      (bytesOfU2 label ++ bytesOfU4 2 ++ bytesOfU2 index) (some text) := by
  have hinfo : (Reader.bytes (UInt32.toNat 2)).Consumes (bytesOfU2 index) (bytesOfU2 index) :=
    consumes_bytes (bytesOfU2 index)
  rw [List.append_assoc, ← List.append_nil (bytesOfU2 index)]
  refine (consumes_u2 label).bind ((consumes_u4 2).bind (hinfo.bind ?_))
  refine (consumes_lookup (hconstants.text_of_isText hlabel)).bind (t := []) ?_
  rw [if_pos rfl]
  exact (consumes_lookup (hconstants.signatureOf_bytesOfU2 h)).map some

/-- An attribute table, where the label has been entered if there is a signature. -/
theorem consumes_readSignature {label index : Option UInt16} {text : Option String}
    (hlabel : text.isSome → ∃ number ∈ label, IsText constants number signatureAttribute)
    (h : Option.Rel (IsText constants) index text) :
    (readSignature (.ofConstants constants)).Consumes (Builder.signatureTable label index) text := by
  cases h with
  | none =>
    have hbytes : Builder.signatureTable label none = bytesOfU2 0 := by
      unfold Builder.signatureTable
      cases label <;> rfl
    rw [hbytes]
    have hnone : (readSignature (.ofConstants constants)).Consumes (bytesOfU2 0 ++ []) none :=
      (consumes_u2 0).bind ((Consumes.pure []).map _)
    rwa [List.append_nil] at hnone
  | @some number text hnumber =>
    obtain ⟨labelNumber, hsome, hlabelText⟩ := hlabel rfl
    cases hsome
    have hattribute := hconstants.consumes_readAttribute hlabelText hnumber
    have htable := Consumes.times (.cons hattribute .nil)
    rw [List.flatten_cons, List.flatten_nil, List.append_nil] at htable
    have hbytes : Builder.signatureTable (some labelNumber) (some number)
        = bytesOfU2 1 ++ (bytesOfU2 labelNumber ++ bytesOfU4 2 ++ bytesOfU2 number) := by
      simp only [Builder.signatureTable, List.append_assoc]
    rw [hbytes]
    exact (consumes_u2 1).bind (htable.map _)

theorem consumes_readMember {label : Option UInt16} {indices : MethodIndices} {method : MethodSpec}
    (hlabel : method.signature.isSome →
      ∃ number ∈ label, IsText constants number signatureAttribute)
    (h : IsMethod constants indices method) :
    (readMember (.ofConstants constants)).Consumes (Builder.methodBytes label indices)
      method.toMember := by
  have hname := hconstants.text_of_isText h.name
  have hdescriptor := hconstants.text_of_isText h.descriptor
  have hsignature := hconstants.consumes_readSignature hlabel h.signature
  unfold Builder.methodBytes
  rw [List.append_assoc, List.append_assoc, h.access]
  exact (consumes_u2 _).bind (consumes_u2_lookup_bind hname
    (consumes_u2_lookup_bind hdescriptor (hsignature.map _)))

theorem consumes_readMembers {label : Option UInt16} {indices : List MethodIndices}
    {methods : List MethodSpec}
    (hlabel : ∀ method ∈ methods, method.signature.isSome →
      ∃ number ∈ label, IsText constants number signatureAttribute)
    (h : List.Forall₂ (IsMethod constants) indices methods) (hlength : methods.length ≤ 65535) :
    (readMembers (.ofConstants constants)).Consumes
      (bytesOfU2 (UInt16.ofNat indices.length) ++ indices.flatMap (Builder.methodBytes label))
      (methods.map MethodSpec.toMember) := by
  refine (consumes_u2 _).bind (consumes_times ?_ (by rwa [List.length_map]))
  rw [List.forall₂_map_right_iff]
  clear hlength
  induction h with
  | nil => exact .nil
  | cons hfirst _ ih =>
    rw [List.forall_mem_cons] at hlabel
    exact .cons (hconstants.consumes_readMember hlabel.1 hfirst) (ih hlabel.2)

end Numbered

theorem consumes_readHeader : readHeader.Consumes (bytesOfU4 magic) () := by
  rw [← List.append_nil (bytesOfU4 magic)]
  refine (consumes_u4 magic).bind ?_
  rw [if_neg (not_not_intro rfl)]
  exact .pure ()

/-! ## The whole file -/

namespace Builder

variable {builder : Builder}

/-- Whether a class fits into a file. -/
structure Writable (builder : Builder) : Prop where
  /-- No text has zeros or characters that are written differently than in UTF-8. -/
  plain : ∀ s ∈ builder.strings, ModifiedUtf8.IsPlain s
  short : ∀ s ∈ builder.strings, s.toUTF8.size ≤ 65535
  interfaces : builder.interfaces.length ≤ 65535
  methods : builder.methods.length ≤ 65535
  /-- The entries of the constant pool, equal ones counted once. -/
  entries : builder.texts.dedup.length + builder.classNames.dedup.length ≤ 65534

/-- A label is entered if there is a signature to put it on. -/
theorem exists_label (hsigned : builder.hasSignature = true) {label : Option UInt16}
    (h : Option.Rel (IsText constants) label
      (if builder.hasSignature then some signatureAttribute else none)) :
    ∃ number ∈ label, IsText constants number signatureAttribute := by
  rw [if_pos hsigned] at h
  cases h with
  | some hnumber => exact ⟨_, rfl, hnumber⟩

/-- The bytes after the constant pool are read as what the builder describes. -/
theorem consumes_contents (hconstants : Numbered constants) {indices : ClassIndices}
    (h : IsClassFile constants indices builder) (hinterfaces : builder.interfaces.length ≤ 65535)
    (hmethods : builder.methods.length ≤ 65535) {count : UInt16}
    (hcount : count.toNat = constants.length + 1) :
    contents.Consumes (bytesOfU4 magic ++ bytesOfU2 0 ++ bytesOfU2 52 ++ bytesOfU2 count
      ++ constants.flatMap Constant.encode ++ indices.bytes builder.access) builder.file := by
  have hslots : count.toNat = (constants.flatMap Constant.slots).length + 1 := by
    rw [flatMap_slots_of_narrow hconstants.narrow, List.length_map, hcount]
  have hpool := ConstantPool.consumes_read hconstants.fits hslots
  have hmethodLabel : ∀ method ∈ builder.methods, method.signature.isSome →
      ∃ number ∈ indices.label, IsText constants number signatureAttribute := by
    intro method hmethod hsome
    refine exists_label ?_ h.label
    rw [hasSignature, Bool.or_eq_true, List.any_eq_true]
    exact .inr ⟨method, hmethod, hsome⟩
  have hclassLabel : builder.signature.isSome →
      ∃ number ∈ indices.label, IsText constants number signatureAttribute := by
    intro hsome
    refine exists_label ?_ h.label
    rw [hasSignature, Bool.or_eq_true]
    exact .inl hsome
  have hnames := consumes_times (h.interfaces.imp fun _ _ hname =>
    hconstants.consumes_readClassName hname) hinterfaces
  have hnone : (readMembers (.ofConstants constants)).Consumes (bytesOfU2 0 ++ []) [] :=
    (consumes_u2 0).bind (.pure [])
  have hmembers := hconstants.consumes_readMembers hmethodLabel h.methods hmethods
  have hbytes : bytesOfU4 magic ++ bytesOfU2 0 ++ bytesOfU2 52 ++ bytesOfU2 count
      ++ constants.flatMap Constant.encode ++ indices.bytes builder.access
      = bytesOfU4 magic ++ (bytesOfU2 0 ++ (bytesOfU2 52
        ++ ((bytesOfU2 count ++ constants.flatMap Constant.encode)
        ++ (bytesOfU2 builder.access ++ (bytesOfU2 indices.thisClass
        ++ (bytesOfU2 indices.superClass ++ (bytesOfU2 (UInt16.ofNat indices.interfaces.length)
        ++ (indices.interfaces.flatMap bytesOfU2 ++ ((bytesOfU2 0 ++ [])
        ++ ((bytesOfU2 (UInt16.ofNat indices.methods.length)
          ++ indices.methods.flatMap (methodBytes indices.label))
        ++ signatureTable indices.label indices.signature)))))))))) := by
    simp only [ClassIndices.bytes, List.append_assoc, List.nil_append]
  rw [hbytes]
  exact consumes_readHeader.bind <| (consumes_u2 0).bind <| (consumes_u2 52).bind <|
    hpool.bind <| (consumes_u2 builder.access).bind <|
    (hconstants.consumes_readClassName h.thisClass).bind <|
    (hconstants.consumes_readSuperClass h.superClass).bind <|
    (consumes_u2 _).bind <| hnames.bind <| hnone.bind <| hmembers.bind <|
    (hconstants.consumes_readSignature hclassLabel h.signature).map _

/-- **A class that was written is read as what was written.** -/
theorem parse_toBytes (h : builder.Writable) : parse builder.toBytes = .ok builder.file := by
  have hplain : ∀ s ∈ builder.texts, ModifiedUtf8.IsPlain s ∧ s.toUTF8.size ≤ 65535 := by
    intro s hs
    rcases List.mem_append.mp hs with hs | hs
    · exact ⟨h.plain s hs, h.short s hs⟩
    · split at hs
      · rw [List.mem_singleton.mp hs]
        decide
      · cases hs
  obtain ⟨constants, hholds, indices, hindices, hbody⟩ :=
    enters_body (fun s hs => (hplain s hs).1) (fun s hs => (hplain s hs).2) {} []
      PoolBuilder.holds_empty
  rw [List.nil_append] at hholds hindices
  have hlength := Nat.le_trans hholds.length_le h.entries
  have hcount : ((builder.body {}).2.count + 1).toNat = constants.length + 1 := by
    rw [hholds.next]
    exact toNat_ofNat_u2 (by omega)
  have hcontents := consumes_contents ⟨hholds.fits, hholds.narrow, hlength⟩ hindices h.interfaces
    h.methods hcount
  rw [← hholds.bytes, ← hbody] at hcontents
  exact parse_of_contents hcontents

/-- An interface in which one text is the name of a method and of an attribute, and another the
name of the class and of a method. -/
def container : Builder where
  access := AccessFlags.publicBit ||| AccessFlags.interfaceBit ||| AccessFlags.abstractBit
  thisClass := "Box"
  interfaces := ["java/lang/Runnable", "java/util/List"]
  signature := some "<T:Ljava/lang/Object;>Ljava/lang/Object;Ljava/util/List<TT;>;"
  methods := [.abstract signatureAttribute "()V" none,
    .abstract "Box" "()Ljava/lang/Object;" (some "()TT;")]

theorem parse_container :
    container.Writable ∧ parse container.toBytes = .ok container.file := by
  have h : container.Writable := by
    constructor <;> decide
  exact ⟨h, parse_toBytes h⟩

end Builder

end Conformance.ClassFile
