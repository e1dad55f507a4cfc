import Conformance.ClassFile.Basic
import Conformance.Proofs.Consuming

/-!
# A class file is as long as it says

A class file that can be read cannot be read any more when bytes are missing at its end or when
there are more behind it, and the report then says just that (`parse_exact`). The reason is that
all readers of the parts of a class file are steady. What is looked up in the constant pool, and
what the bytes of an attribute say, is settled by bytes that have been taken already, so it is
the same for a part of the file; the readers of the parts are left with nothing to fail on but
the end of the input.

Only the last step of reading a file asks whether anything is left. It is taken apart from the
others (`contents`).
-/

namespace Conformance.ClassFile

open Reader

/-! ## The constant pool -/

namespace Constant

theorem steady_readUtf8 : Steady readUtf8 := by
  refine Steady.u2.bind fun size => (Steady.bytes _).bind fun bytes => ?_
  cases ModifiedUtf8.decode bytes with
  | some text => exact .pure _
  | none => exact .throw _

theorem steady_pair (make : UInt16 → UInt16 → Constant) : Steady (readPayload.pair make) :=
  Steady.u2.bind fun _ => Steady.u2.map _

/-- A constant of eight bytes. -/
theorem steady_wide (make : UInt32 → UInt32 → Constant) :
    Steady (do
      match ← Reader.bytes 8 with
      | [a, b, c, d, e, f, g, h] => return make (u4OfBytes a b c d) (u4OfBytes e f g h)
      | _ => Reader.truncated) := by
  refine (Steady.bytes 8).bind fun bytes => ?_
  split
  · exact .pure _
  · exact .truncated

theorem steady_readPayload (tag : UInt8) : Steady (readPayload tag) := by
  unfold readPayload
  split
  · exact steady_readUtf8
  · exact Steady.u4.map _
  · exact Steady.u4.map _
  · exact steady_wide long
  · exact steady_wide double
  · exact Steady.u2.map _
  · exact Steady.u2.map _
  · exact steady_pair fieldRef
  · exact steady_pair methodRef
  · exact steady_pair interfaceMethodRef
  · exact steady_pair nameAndType
  · exact Steady.u1.bind fun _ => Steady.u2.map _
  · exact Steady.u2.map _
  · exact steady_pair dynamic
  · exact steady_pair invokeDynamic
  · exact Steady.u2.map _
  · exact Steady.u2.map _
  · exact .throw _

theorem steady_read : Steady read := Steady.u1.bind steady_readPayload

end Constant

namespace ConstantPool

theorem steady_readSlots (count : Nat) : Steady (readSlots count) := by
  induction count using readSlots.induct with
  | case1 => exact .pure []
  | case2 => exact Constant.steady_read.map _
  | case3 count hwide hnarrow =>
    refine Constant.steady_read.bind fun first => ?_
    split
    · exact hwide.map _
    · exact hnarrow.map _

theorem steady_read : Steady read := Steady.u2.bind fun _ => (steady_readSlots _).map _

end ConstantPool

/-! ## Members and attributes -/

variable (pool : ConstantPool)

theorem steady_lookup {α : Type} (answer : Except Fault α) : Steady (lookup answer) := by
  cases answer with
  | ok value => exact .pure value
  | error fault => exact .throw fault

theorem steady_readAttribute : Steady (readAttribute pool) := by
  refine Steady.u2.bind fun _ => Steady.u4.bind fun _ => (Steady.bytes _).bind fun info => ?_
  refine (steady_lookup _).bind fun name => ?_
  split
  · exact (steady_lookup _).map _
  · exact .pure none

theorem steady_readSignature : Steady (readSignature pool) :=
  Steady.u2.bind fun _ => (Steady.times _ (steady_readAttribute pool)).map _

theorem steady_readMember : Steady (readMember pool) :=
  Steady.u2.bind fun _ => Steady.u2.bind fun _ => (steady_lookup _).bind fun _ =>
    Steady.u2.bind fun _ => (steady_lookup _).bind fun _ => (steady_readSignature pool).map _

theorem steady_readMembers : Steady (readMembers pool) :=
  Steady.u2.bind fun _ => Steady.times _ (steady_readMember pool)

/-! ## The whole file -/

theorem steady_readClassName : Steady (readClassName pool) :=
  Steady.u2.bind fun _ => steady_lookup _

theorem steady_readSuperClass : Steady (readSuperClass pool) := by
  refine Steady.u2.bind fun index => ?_
  split
  · exact .pure none
  · exact (steady_lookup _).map _

theorem steady_readHeader : Steady readHeader := by
  refine Steady.u4.bind fun found => ?_
  split
  · exact .throw _
  · exact .pure ()

/-- A class file up to its last attribute, whatever follows it. -/
def contents : Reader ClassFile := do
  readHeader
  let minorVersion ← Reader.u2
  let majorVersion ← Reader.u2
  let pool ← ConstantPool.read
  let access ← Reader.u2
  let thisClass ← readClassName pool
  let superClass ← readSuperClass pool
  let interfaceCount ← Reader.u2
  let interfaces ← Reader.times interfaceCount.toNat (readClassName pool)
  let fields ← readMembers pool
  let methods ← readMembers pool
  let signature ← readSignature pool
  return {
    minorVersion, majorVersion, access, thisClass, superClass, interfaces, fields, methods,
    signature }

/-- A file is its contents with nothing behind them. -/
theorem read_eq : read = (do let file ← contents; Reader.finish; return file) := by
  simp only [read, contents, bind_assoc, pure_bind]

theorem steady_contents : Steady contents :=
  steady_readHeader.bind fun _ => Steady.u2.bind fun _ => Steady.u2.bind fun _ =>
    ConstantPool.steady_read.bind fun pool => Steady.u2.bind fun _ =>
      (steady_readClassName pool).bind fun _ => (steady_readSuperClass pool).bind fun _ =>
        Steady.u2.bind fun _ => (Steady.times _ (steady_readClassName pool)).bind fun _ =>
          (steady_readMembers pool).bind fun _ => (steady_readMembers pool).bind fun _ =>
            (steady_readSignature pool).map _

variable {bytes : List UInt8} {file : ClassFile}

/-- The bytes of contents are a class file. -/
theorem parse_of_contents (h : contents.Consumes bytes file) : parse bytes = .ok file := by
  have hrest := h.whole bytes.length []
  rw [List.append_nil] at hrest
  rw [parse, Reader.run, read_eq, bind_apply, hrest]
  rfl

/-- Bytes behind the contents are reported by their number. -/
theorem parse_append (h : contents.Consumes bytes file) {more : List UInt8} (hmore : more ≠ []) :
    parse (bytes ++ more) = .error (.trailing more.length) := by
  have hfinish : finish (bytes ++ more).length more = .error (.trailing more.length) := by
    rw [finish, if_neg (by rw [List.isEmpty_iff]; exact hmore)]
  rw [parse, Reader.run, read_eq, bind_apply, h.whole]
  dsimp only
  rw [bind_apply, hfinish]

/-- Contents that are cut off are reported to have ended. -/
theorem parse_cut (h : contents.Consumes bytes file) {part : List UInt8} (hpart : part <+: bytes)
    (hlt : part.length < bytes.length) : parse part = .error (.truncated part.length) := by
  rw [parse, Reader.run, read_eq, bind_apply, h.cut part.length part hpart hlt]

/-- What can be read as a file is contents without anything behind them. -/
theorem contents_of_parse (h : parse bytes = .ok file) : contents.Consumes bytes file := by
  rw [parse, Reader.run, read_eq] at h
  split at h
  · next value rest hread =>
    cases h
    obtain ⟨found, mid, hcontents, hfinish⟩ := bind_eq_ok hread
    obtain ⟨taken, rfl, hconsumes⟩ := steady_contents _ _ _ _ hcontents
    obtain ⟨_, left, hempty, hfound⟩ := bind_eq_ok hfinish
    cases hfound
    rw [finish] at hempty
    split at hempty
    · next hnil =>
      rw [List.isEmpty_iff] at hnil
      rwa [hnil, List.append_nil]
    · cases hempty
  · cases h

/-- **A class file is as long as it says.** With any part of it cut off at the end the input is
reported to have ended, by the length of what is there; with anything added the number of bytes
too many is reported. -/
theorem parse_exact (h : parse bytes = .ok file) :
    (∀ part, part <+: bytes → part ≠ bytes → parse part = .error (.truncated part.length))
      ∧ ∀ more, more ≠ [] → parse (bytes ++ more) = .error (.trailing more.length) := by
  have hcontents := contents_of_parse h
  refine ⟨fun part hpart hne => parse_cut hcontents hpart ?_, fun more => parse_append hcontents⟩
  rcases Nat.lt_or_ge part.length bytes.length with hlt | hge
  · exact hlt
  · exact absurd (hpart.eq_of_length_le hge) hne

/-- The bytes of an interface with a generic signature. -/
def signedInterface : List UInt8 :=
  [0xCA, 0xFE, 0xBA, 0xBE, 0, 0, 0, 52, 0, 5,
    -- the constants: a name, a class of that name, the name of an attribute and its text
    1, 0, 1, 65, 7, 0, 1, 1, 0, 9, 83, 105, 103, 110, 97, 116, 117, 114, 101, 1, 0, 3, 84, 84, 59,
    6, 1, 0, 2, 0, 0, 0, 0, 0, 0, 0, 0, 0, 1, 0, 3, 0, 0, 0, 2, 0, 4]

/-- What they say. -/
def signedInterfaceFile : ClassFile where
  minorVersion := 0
  majorVersion := 52
  access := AccessFlags.publicBit ||| AccessFlags.interfaceBit ||| AccessFlags.abstractBit
  thisClass := "A"
  superClass := none
  interfaces := []
  fields := []
  methods := []
  signature := some "TT;"

/-- A part that ends within the signature, and a file with a byte too many. -/
theorem signedInterface_exact :
    parse signedInterface = .ok signedInterfaceFile
      ∧ parse (signedInterface.take 56) = .error (.truncated 56)
      ∧ parse (signedInterface ++ [0]) = .error (.trailing 1) := by
  have h : parse signedInterface = .ok signedInterfaceFile := by rfl
  have hexact := parse_exact h
  exact ⟨h, hexact.1 _ (List.take_prefix 56 _) (by decide), hexact.2 [0] (by decide)⟩

end Conformance.ClassFile
