import Conformance.ClassFile.ConstantPool
import Conformance.Proofs.Consuming
import Conformance.Proofs.TextEncoding

/-!
# Reading a constant pool that was written

The bytes of a constant are consumed as the constant, and those of a table as its slots
(`ConstantPool.consumes_read`). A text is the only constant that need not fit: its length is
written in two bytes.

A constant is found under the number of the slots before it and no other (`get_ofConstants`), so
numbers may be thought of as places among the constants as long as none of these is wide.
-/

namespace Conformance.ClassFile

open Reader

theorem toNat_ofNat_u2 {n : Nat} (h : n < 0x10000) : (UInt16.ofNat n).toNat = n := by
  rw [UInt16.toNat_ofNat']
  exact Nat.mod_eq_of_lt h

namespace Constant

/-- Whether the length of a text can be written in front of it. -/
def Fits : Constant → Prop
  | utf8 text => (ModifiedUtf8.encode text).length < 0x10000
  | _ => True

theorem consumes_utf8 {text : String} (h : (utf8 text).Fits) :
    readUtf8.Consumes (bytesOfU2 (UInt16.ofNat (ModifiedUtf8.encode text).length)
      ++ ModifiedUtf8.encode text) (utf8 text) := by
  refine (consumes_u2 _).bind ?_
  rw [toNat_ofNat_u2 h]
  have hdecode : ModifiedUtf8.decode (ModifiedUtf8.encode text) = some text := by
    rw [ModifiedUtf8.encode, ModifiedUtf8.decode_flatMap, String.ofList_toList]
  -- nothing follows the bytes of the text
  refine (congrArg (Reader.Consumes _ · (utf8 text)) (List.append_nil _)).mp ?_
  refine (consumes_bytes _).bind ?_
  rw [hdecode]
  exact .pure _

theorem consumes_pair (make : UInt16 → UInt16 → Constant) (first second : UInt16) :
    (readPayload.pair make).Consumes (bytesOfU2 first ++ bytesOfU2 second) (make first second) :=
  (consumes_u2 first).bind ((consumes_u2 second).map _)

/-- A constant of eight bytes. -/
theorem consumes_wide (make : UInt32 → UInt32 → Constant) (high low : UInt32) :
    Consumes (do
      match ← Reader.bytes 8 with
      | [a, b, c, d, e, f, g, h] => return make (u4OfBytes a b c d) (u4OfBytes e f g h)
      | _ => Reader.truncated) (bytesOfU4 high ++ bytesOfU4 low) (make high low) := by
  have hbytes := consumes_bytes (bytesOfU4 high ++ bytesOfU4 low)
  rw [← List.append_nil (bytesOfU4 high ++ bytesOfU4 low)]
  refine hbytes.bind ?_
  simp only [bytesOfU4, List.cons_append, List.nil_append, u4OfBytes_bytesOfU4]
  exact .pure _

/-- **The bytes of a constant are read as the constant.** -/
theorem consumes_read {c : Constant} (h : c.Fits) : read.Consumes c.encode c := by
  have htag : ∀ {tag : UInt8} {s : List UInt8}, (readPayload tag).Consumes s c →
      read.Consumes (tag :: s) c := fun hpayload => (consumes_u1 _).bind hpayload
  cases c with
  | utf8 text => exact htag (consumes_utf8 h)
  | integer bits => exact htag ((consumes_u4 bits).map integer)
  | float bits => exact htag ((consumes_u4 bits).map float)
  | long high low => exact htag (consumes_wide long high low)
  | double high low => exact htag (consumes_wide double high low)
  | classRef name => exact htag ((consumes_u2 name).map classRef)
  | string text => exact htag ((consumes_u2 text).map string)
  | fieldRef owner member => exact htag (consumes_pair fieldRef owner member)
  | methodRef owner member => exact htag (consumes_pair methodRef owner member)
  | interfaceMethodRef owner member => exact htag (consumes_pair interfaceMethodRef owner member)
  | nameAndType name descriptor => exact htag (consumes_pair nameAndType name descriptor)
  | methodHandle kind member =>
    exact htag ((consumes_u1 kind).bind ((consumes_u2 member).map (methodHandle kind)))
  | methodType descriptor => exact htag ((consumes_u2 descriptor).map methodType)
  | dynamic bootstrap member => exact htag (consumes_pair dynamic bootstrap member)
  | invokeDynamic bootstrap member => exact htag (consumes_pair invokeDynamic bootstrap member)
  | moduleRef name => exact htag ((consumes_u2 name).map moduleRef)
  | packageRef name => exact htag ((consumes_u2 name).map packageRef)

theorem length_slots (c : Constant) : c.slots.length = if c.isWide then 2 else 1 := by
  unfold slots
  split <;> rfl

theorem length_slots_pos (c : Constant) : 0 < c.slots.length := by
  rw [length_slots]
  split <;> decide

end Constant

namespace ConstantPool

theorem length_flatMap_slots_eq_zero {constants : List Constant}
    (h : (constants.flatMap Constant.slots).length = 0) : constants = [] := by
  cases constants with
  | nil => rfl
  | cons c constants =>
    have := c.length_slots_pos
    rw [List.flatMap_cons, List.length_append] at h
    omega

/-- Constants are read until the numbers that they take are used up. -/
theorem consumes_readSlots {constants : List Constant} (h : ∀ c ∈ constants, c.Fits) :
    (readSlots (constants.flatMap Constant.slots).length).Consumes
      (constants.flatMap Constant.encode) (constants.flatMap Constant.slots) := by
  induction constants with
  | nil => exact .pure []
  | cons c constants ih =>
    rw [List.forall_mem_cons] at h
    have hfirst := Constant.consumes_read h.1
    have hrest := ih h.2
    have hsize := c.length_slots
    rw [List.flatMap_cons, List.flatMap_cons, List.length_append]
    by_cases hwide : c.isWide = true
    · rw [if_pos hwide] at hsize
      rw [hsize, Nat.add_comm, readSlots]
      refine hfirst.bind ?_
      rw [if_pos hwide]
      exact hrest.map (c.slots ++ ·)
    · rw [if_neg hwide] at hsize
      rw [hsize, Nat.add_comm]
      cases hcount : (constants.flatMap Constant.slots).length with
      | zero =>
        -- the last number, which is asked for on its own
        rw [length_flatMap_slots_eq_zero hcount, readSlots, List.flatMap_nil, List.flatMap_nil,
          List.append_nil, List.append_nil]
        exact hfirst.map Constant.slots
      | succ count =>
        rw [hcount] at hrest
        rw [readSlots]
        refine hfirst.bind ?_
        rw [if_neg hwide]
        exact hrest.map (c.slots ++ ·)

/-- **A table that was written is read as the table.** -/
theorem consumes_read {constants : List Constant} (h : ∀ c ∈ constants, c.Fits) {count : UInt16}
    (hcount : count.toNat = (constants.flatMap Constant.slots).length + 1) :
    read.Consumes (bytesOfU2 count ++ constants.flatMap Constant.encode)
      (ofConstants constants) := by
  refine (consumes_u2 count).bind ?_
  rw [hcount, Nat.add_sub_cancel]
  exact (consumes_readSlots h).map fun slots => ConstantPool.mk (none :: slots).toArray

/-- The slots of a constant come after those of the constants before it. -/
theorem getElem?_ofConstants {constants before after : List Constant} {c : Constant}
    (h : constants = before ++ c :: after) {n : Nat} (hn : n < c.slots.length) :
    (ofConstants constants).slots[(before.flatMap Constant.slots).length + n + 1]? = c.slots[n]? := by
  rw [ofConstants, List.getElem?_toArray, List.getElem?_cons_succ, h, List.flatMap_append,
    List.getElem?_append_right (Nat.le_add_right ..), Nat.add_sub_cancel_left, List.flatMap_cons,
    List.getElem?_append_left hn]

/-- A constant is found under the number of the slots before it. -/
theorem get_ofConstants {constants before after : List Constant} {c : Constant}
    (h : constants = before ++ c :: after) {index : UInt16}
    (hindex : index.toNat = (before.flatMap Constant.slots).length + 1) :
    (ofConstants constants).get index = .ok c := by
  have hfirst : c.slots[0]? = some (some c) := by
    unfold Constant.slots
    split <;> rfl
  have hslot := getElem?_ofConstants h c.length_slots_pos
  rw [Nat.add_zero, ← hindex, hfirst] at hslot
  rw [get, hslot]

end ConstantPool

end Conformance.ClassFile
