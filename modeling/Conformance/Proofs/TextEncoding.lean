import Mathlib.Algebra.Group.Nat.Defs
import Mathlib.Data.List.Basic
import Conformance.ClassFile.Builder

/-!
# Texts in a constant pool

Reading the bytes of a text undoes writing it (`decode_flatMap`). Both go by way of UTF-16 units:
the bytes of a unit are told from what follows them by their first byte alone, and a unit that
begins a surrogate pair is told from one that is a character.

A text without zeros and without characters that need a surrogate pair is written just like in
UTF-8 (`IsPlain`, `encode_of_isPlain`), so for such texts either way of writing can be used.

The format lays down the bytes of a character by its bits (`charBytes`) and does not mention units;
they are the same bytes (`charBytes_eq`), so a text is read back from them too (`decode_charBytes`).
-/

namespace Conformance.ClassFile.ModifiedUtf8

/-! ## Bytes and units -/

theorem continuation_ofNat {n : Nat} (h : n < 64) :
    continuation? (UInt8.ofNat (0x80 + n)) = some n := by
  have hbyte : (UInt8.ofNat (0x80 + n)).toNat = 0x80 + n := by
    rw [UInt8.toNat_ofNat']
    omega
  rw [continuation?, hbyte, if_pos (by omega)]
  congr 1
  omega

/-- The bytes of a unit are read as the unit, whatever follows. -/
theorem units_bytesOfUnit {u : Nat} (h : u < 0x10000) (rest : List UInt8) :
    units? (bytesOfUnit u ++ rest) = (units? rest).map (u :: ·) := by
  unfold bytesOfUnit
  split
  · next hone =>
    have hbyte : (UInt8.ofNat u).toNat = u := by
      rw [UInt8.toNat_ofNat']
      omega
    rw [List.singleton_append, units?.eq_def]
    dsimp only
    rw [hbyte, if_pos hone.2, if_neg hone.1]
  · next hone =>
    split
    · next htwo =>
      have hbyte : (UInt8.ofNat (0xC0 + u / 64)).toNat = 0xC0 + u / 64 := by
        rw [UInt8.toNat_ofNat']
        omega
      have hunit : (0xC0 + u / 64) % 32 * 64 + u % 64 = u := by omega
      rw [List.cons_append, List.singleton_append, units?, hbyte, if_neg (by omega),
        if_pos (by omega), continuation_ofNat (by omega), Option.bind_eq_bind, Option.bind_some,
        hunit]
      cases units? rest <;> rfl
    · next htwo =>
      have hbyte : (UInt8.ofNat (0xE0 + u / 0x1000)).toNat = 0xE0 + u / 0x1000 := by
        rw [UInt8.toNat_ofNat']
        omega
      have hunit : ((0xE0 + u / 0x1000) % 16 * 64 + u / 64 % 64) * 64 + u % 64 = u := by omega
      rw [List.cons_append, List.cons_append, List.singleton_append, units?, hbyte,
        if_neg (by omega), if_neg (by omega), if_pos (by omega)]
      dsimp only
      rw [continuation_ofNat (n := u / 64 % 64) (by omega),
        continuation_ofNat (n := u % 64) (by omega)]
      simp only [Option.bind_eq_bind, Option.bind_some, hunit]
      cases units? rest <;> rfl

theorem units_flatMap {us : List Nat} (h : ∀ u ∈ us, u < 0x10000) (rest : List UInt8) :
    units? (us.flatMap bytesOfUnit ++ rest) = (units? rest).map (us ++ ·) := by
  induction us with
  | nil => simp
  | cons u us ih =>
    rw [List.forall_mem_cons] at h
    rw [List.flatMap_cons, List.append_assoc, units_bytesOfUnit h.1, ih h.2, Option.map_map]
    rfl

/-! ## Units and characters -/

theorem toNat_lt (c : Char) : c.toNat < 0x110000 := by
  rcases c.valid with h | h
  · exact Nat.lt_trans h (by decide)
  · exact h.2

theorem not_surrogate (c : Char) :
    isHighSurrogate c.toNat = false ∧ isLowSurrogate c.toNat = false := by
  have h : c.toNat < 0xD800 ∨ 0xDFFF < c.toNat := by
    rcases c.valid with h | h
    · exact .inl h
    · exact .inr h.1
  constructor
  · rw [isHighSurrogate, Bool.and_eq_false_iff]
    simp only [decide_eq_false_iff_not]
    omega
  · rw [isLowSurrogate, Bool.and_eq_false_iff]
    simp only [decide_eq_false_iff_not]
    omega

theorem unitsOfChar_lt (c : Char) : ∀ u ∈ unitsOfChar c, u < 0x10000 := by
  have := toNat_lt c
  unfold unitsOfChar
  split
  · next h => simpa using h
  · simp only [List.forall_mem_cons, List.not_mem_nil, false_implies, implies_true, and_true]
    omega

/-- The units of a character are read as the character, whatever follows. -/
theorem chars_unitsOfChar (c : Char) (rest : List Nat) :
    chars? (unitsOfChar c ++ rest) = (chars? rest).map (c :: ·) := by
  have hlt := toNat_lt c
  unfold unitsOfChar
  split
  · rw [List.singleton_append, chars?.eq_def]
    dsimp only
    rw [(not_surrogate c).1, (not_surrogate c).2]
    simp only [Bool.false_eq_true, if_false, Char.ofNat_toNat]
  · next hwide =>
    have hhigh : isHighSurrogate (0xD800 + (c.toNat - 0x10000) / 0x400) = true := by
      rw [isHighSurrogate, Bool.and_eq_true]
      simp only [decide_eq_true_eq]
      omega
    have hlow : isLowSurrogate (0xDC00 + (c.toNat - 0x10000) % 0x400) = true := by
      rw [isLowSurrogate, Bool.and_eq_true]
      simp only [decide_eq_true_eq]
      omega
    have hvalue : 0x10000 + (0xD800 + (c.toNat - 0x10000) / 0x400 - 0xD800) * 0x400
        + (0xDC00 + (c.toNat - 0x10000) % 0x400 - 0xDC00) = c.toNat := by omega
    rw [List.cons_append, List.singleton_append, chars?, if_pos hhigh, if_pos hlow, hvalue,
      Char.ofNat_toNat]

theorem chars_flatMap (cs : List Char) : chars? (cs.flatMap unitsOfChar) = some cs := by
  induction cs with
  | nil => rfl
  | cons c cs ih =>
    rw [List.flatMap_cons, chars_unitsOfChar, ih]
    rfl

/-- **The bytes that are written for some characters are read as these characters.** -/
theorem decode_flatMap (cs : List Char) :
    decode (cs.flatMap fun c => (unitsOfChar c).flatMap bytesOfUnit) = some (String.ofList cs) := by
  have hunits : units? (cs.flatMap fun c => (unitsOfChar c).flatMap bytesOfUnit)
      = some (cs.flatMap unitsOfChar) := by
    have hlt : ∀ u ∈ cs.flatMap unitsOfChar, u < 0x10000 := by
      intro u hu
      obtain ⟨c, -, hc⟩ := List.mem_flatMap.mp hu
      exact unitsOfChar_lt c u hc
    have := units_flatMap hlt []
    rw [List.append_nil, List.flatMap_assoc] at this
    rw [this, units?]
    simp
  rw [decode, hunits, Option.bind_eq_bind, Option.bind_some, chars_flatMap]
  rfl

/-! ## Texts that are written as in UTF-8 -/

/-- Whether a text has no zeros and no characters beyond the basic plane. -/
def IsPlain (text : String) : Prop := ∀ c ∈ text.toList, c.toNat ≠ 0 ∧ c.toNat < 0x10000

instance (text : String) : Decidable (IsPlain text) :=
  List.decidableBAll (fun c : Char => c.toNat ≠ 0 ∧ c.toNat < 0x10000) text.toList

theorem toList_loop (bytes : ByteArray) (i : Nat) (found : List UInt8) :
    ByteArray.toList.loop bytes i found = found.reverse ++ bytes.data.toList.drop i := by
  have hsize : bytes.size = bytes.data.toList.length := Array.length_toList.symm
  rw [ByteArray.toList.loop]
  split
  · next h =>
    have hnext : bytes.data.toList.drop i = bytes.get! i :: bytes.data.toList.drop (i + 1) := by
      rw [List.drop_eq_getElem_cons (hsize ▸ h)]
      congr 1
      rw [hsize] at h
      simp only [ByteArray.get!, Array.getElem_toList]
      exact (getElem!_pos bytes.data i (by simpa using h)).symm
    rw [toList_loop bytes (i + 1), hnext, List.reverse_cons, List.append_assoc]
    rfl
  · next h => rw [List.drop_of_length_le (by omega), List.append_nil]
termination_by bytes.size - i

theorem toList_toUTF8 (text : String) :
    text.toUTF8.toList = text.toList.flatMap String.utf8EncodeChar := by
  rw [ByteArray.toList, toList_loop, List.drop_zero, List.reverse_nil, List.nil_append,
    String.toUTF8, ← String.utf8Encode_toList, List.utf8Encode, List.toList_data_toByteArray]

theorem utf8EncodeChar_eq {c : Char} (hzero : c.toNat ≠ 0) (hplane : c.toNat < 0x10000) :
    String.utf8EncodeChar c = (unitsOfChar c).flatMap bytesOfUnit := by
  have hval : c.val.toNat = c.toNat := rfl
  rw [unitsOfChar, if_pos hplane, List.flatMap_singleton, bytesOfUnit]
  unfold String.utf8EncodeChar
  rw [hval]
  dsimp only
  rcases Nat.lt_or_ge c.toNat 0x80 with hone | hone
  · rw [if_pos (by omega), if_pos ⟨hzero, hone⟩]
  · rw [if_neg (by omega)]
    rcases Nat.lt_or_ge c.toNat 0x800 with htwo | htwo
    · rw [if_pos (by omega), if_neg (by omega), if_pos htwo, Nat.mod_eq_of_lt (by omega),
        Nat.add_comm, Nat.add_comm 128]
    · rw [if_neg (by omega), if_pos (by omega), if_neg (by omega), if_neg (by omega),
        Nat.mod_eq_of_lt (by omega), Nat.add_comm, Nat.add_comm _ 128, Nat.add_comm _ 128]

/-- A plain text has the same bytes in UTF-8. -/
theorem encode_of_isPlain {text : String} (h : IsPlain text) :
    encode text = text.toUTF8.toList := by
  rw [toList_toUTF8, encode]
  exact List.flatMap_congr fun c hc => (utf8EncodeChar_eq (h c hc).1 (h c hc).2).symm

/-! ## Characters bit by bit -/

/-- A byte that begins with a mark and goes on with some bits of a character. -/
def markedByte {m n : Nat} (mark : BitVec m) (bits : BitVec n) : UInt8 :=
  .ofNat (mark ++ bits).toNat

/-- The bytes of a character by its bits, as the format of class files lays them down: the mark
of a byte says where in a group it stands. A character beyond the basic plane has two groups,
and its five highest bits are lessened by one to fit into four. -/
def charBytes (c : Char) : List UInt8 :=
  let bits := BitVec.ofNat 21 c.toNat
  if c.toNat ≠ 0 ∧ c.toNat < 0x80 then
    [markedByte 0b0#1 (bits.extractLsb' 0 7)]
  else if c.toNat < 0x800 then
    [markedByte 0b110#3 (bits.extractLsb' 6 5), markedByte 0b10#2 (bits.extractLsb' 0 6)]
  else if c.toNat < 0x10000 then
    [markedByte 0b1110#4 (bits.extractLsb' 12 4), markedByte 0b10#2 (bits.extractLsb' 6 6),
      markedByte 0b10#2 (bits.extractLsb' 0 6)]
  else
    [0b11101101, markedByte 0b1010#4 ((bits.extractLsb' 16 5 - 1#5).setWidth 4),
      markedByte 0b10#2 (bits.extractLsb' 10 6),
      0b11101101, markedByte 0b1011#4 (bits.extractLsb' 6 4),
      markedByte 0b10#2 (bits.extractLsb' 0 6)]

theorem markedByte_eq {m n value : Nat} (mark : BitVec m) {bits : BitVec n}
    (h : mark.toNat * 2 ^ n + bits.toNat = value) : markedByte mark bits = .ofNat value := by
  rw [markedByte, BitVec.toNat_append, ← Nat.shiftLeft_add_eq_or_of_lt bits.isLt,
    Nat.shiftLeft_eq, h]

theorem toNat_bits (c : Char) (start count : Nat) :
    ((BitVec.ofNat 21 c.toNat).extractLsb' start count).toNat
      = c.toNat / 2 ^ start % 2 ^ count := by
  have hlt : c.toNat < 2 ^ 21 := Nat.lt_trans (toNat_lt c) (by decide)
  rw [BitVec.extractLsb'_toNat, BitVec.toNat_ofNat, Nat.mod_eq_of_lt hlt,
    Nat.shiftRight_eq_div_pow]

theorem markedByte_bits {m value : Nat} (mark : BitVec m) (c : Char) (start count : Nat)
    (h : mark.toNat * 2 ^ count + c.toNat / 2 ^ start % 2 ^ count = value) :
    markedByte mark ((BitVec.ofNat 21 c.toNat).extractLsb' start count) = .ofNat value :=
  markedByte_eq mark (by rw [toNat_bits, h])

theorem bytesOfUnit_wide {u : Nat} (h : 0x800 ≤ u) : bytesOfUnit u
    = [.ofNat (0xE0 + u / 0x1000), .ofNat (0x80 + u / 64 % 64), .ofNat (0x80 + u % 64)] := by
  rw [bytesOfUnit, if_neg (by omega), if_neg (by omega)]

/-- The six bytes of a character beyond the basic plane are those of its two surrogates. -/
theorem bytesOfUnit_surrogates {c : Char} (hplane : 0x10000 ≤ c.toNat) :
    let bits := BitVec.ofNat 21 c.toNat
    [0b11101101, markedByte 0b1010#4 ((bits.extractLsb' 16 5 - 1#5).setWidth 4),
        markedByte 0b10#2 (bits.extractLsb' 10 6),
        0b11101101, markedByte 0b1011#4 (bits.extractLsb' 6 4),
        markedByte 0b10#2 (bits.extractLsb' 0 6)]
      = bytesOfUnit (0xD800 + (c.toNat - 0x10000) / 0x400)
        ++ bytesOfUnit (0xDC00 + (c.toNat - 0x10000) % 0x400) := by
  have hlt := toNat_lt c
  dsimp only
  -- all surrogates begin with the same four bits, so the lead of either group is the same byte
  have hlead : 0xE0 + (0xD800 + (c.toNat - 0x10000) / 0x400) / 0x1000 = 0xED := by omega
  have hlead' : 0xE0 + (0xDC00 + (c.toNat - 0x10000) % 0x400) / 0x1000 = 0xED := by omega
  have hhigh : markedByte 0b1010#4 (((BitVec.ofNat 21 c.toNat).extractLsb' 16 5 - 1#5).setWidth 4)
      = .ofNat (0x80 + (0xD800 + (c.toNat - 0x10000) / 0x400) / 64 % 64) := by
    refine markedByte_eq _ ?_
    rw [BitVec.toNat_setWidth, BitVec.toNat_sub, toNat_bits, BitVec.toNat_ofNat,
      BitVec.toNat_ofNat]
    omega
  have hhigh' : markedByte 0b10#2 ((BitVec.ofNat 21 c.toNat).extractLsb' 10 6)
      = .ofNat (0x80 + (0xD800 + (c.toNat - 0x10000) / 0x400) % 64) :=
    markedByte_bits _ c 10 6 (by rw [BitVec.toNat_ofNat]; omega)
  have hlow : markedByte 0b1011#4 ((BitVec.ofNat 21 c.toNat).extractLsb' 6 4)
      = .ofNat (0x80 + (0xDC00 + (c.toNat - 0x10000) % 0x400) / 64 % 64) :=
    markedByte_bits _ c 6 4 (by rw [BitVec.toNat_ofNat]; omega)
  have hlow' : markedByte 0b10#2 ((BitVec.ofNat 21 c.toNat).extractLsb' 0 6)
      = .ofNat (0x80 + (0xDC00 + (c.toNat - 0x10000) % 0x400) % 64) :=
    markedByte_bits _ c 0 6 (by rw [BitVec.toNat_ofNat]; omega)
  rw [bytesOfUnit_wide (by omega), bytesOfUnit_wide (by omega), hlead, hlead', hhigh, hhigh', hlow,
    hlow']
  rfl

/-- A character has the bytes of its UTF-16 units. -/
theorem charBytes_eq (c : Char) : charBytes c = (unitsOfChar c).flatMap bytesOfUnit := by
  have hlast : markedByte 0b10#2 ((BitVec.ofNat 21 c.toNat).extractLsb' 0 6)
      = .ofNat (0x80 + c.toNat % 64) :=
    markedByte_bits _ c 0 6 (by rw [BitVec.toNat_ofNat]; omega)
  unfold charBytes unitsOfChar
  dsimp only
  split
  · next hone =>
    have hbyte : markedByte 0b0#1 ((BitVec.ofNat 21 c.toNat).extractLsb' 0 7) = .ofNat c.toNat :=
      markedByte_bits _ c 0 7 (by rw [BitVec.toNat_ofNat]; omega)
    rw [hbyte, if_pos (by omega), List.flatMap_singleton, bytesOfUnit, if_pos hone]
  · next hone =>
    split
    · next htwo =>
      have hlead : markedByte 0b110#3 ((BitVec.ofNat 21 c.toNat).extractLsb' 6 5)
          = .ofNat (0xC0 + c.toNat / 64) :=
        markedByte_bits _ c 6 5 (by rw [BitVec.toNat_ofNat]; omega)
      rw [hlead, hlast, if_pos (by omega), List.flatMap_singleton, bytesOfUnit, if_neg hone,
        if_pos htwo]
    · next htwo =>
      split
      · next hplane =>
        have hlead : markedByte 0b1110#4 ((BitVec.ofNat 21 c.toNat).extractLsb' 12 4)
            = .ofNat (0xE0 + c.toNat / 0x1000) :=
          markedByte_bits _ c 12 4 (by rw [BitVec.toNat_ofNat]; omega)
        have hmid : markedByte 0b10#2 ((BitVec.ofNat 21 c.toNat).extractLsb' 6 6)
            = .ofNat (0x80 + c.toNat / 64 % 64) :=
          markedByte_bits _ c 6 6 (by rw [BitVec.toNat_ofNat]; omega)
        rw [hlead, hmid, hlast, List.flatMap_singleton, bytesOfUnit_wide (Nat.not_lt.mp htwo)]
      · next hplane =>
        rw [List.flatMap_cons, List.flatMap_singleton]
        exact bytesOfUnit_surrogates (Nat.not_lt.mp hplane)

example : charBytes '😀' = [0xED, 0xA0, 0xBD, 0xED, 0xB8, 0x80] := by decide

theorem encode_eq (text : String) : encode text = text.toList.flatMap charBytes :=
  List.flatMap_congr fun c _ => (charBytes_eq c).symm

/-- **A text is read back from its bytes.** A text that is plain is also read back from its bytes
in UTF-8, and those are what a constant pool is given behind the tag and the size of a new text. -/
theorem decode_charBytes (text : String) :
    decode (text.toList.flatMap charBytes) = some text
      ∧ (IsPlain text → decode text.toUTF8.toList = some text)
      ∧ ∀ pool : PoolBuilder, pool.texts.lookup text = none → ∃ head : List UInt8,
          head.length = 3
            ∧ (PoolBuilder.text text pool).2.bytes = pool.bytes ++ head ++ text.toUTF8.toList := by
  have hencode : decode (encode text) = some text := by
    rw [encode, decode_flatMap, String.ofList_toList]
  refine ⟨?_, fun hplain => ?_, fun pool hnew => ?_⟩
  · rw [← encode_eq]
    exact hencode
  · rw [← encode_of_isPlain hplain]
    exact hencode
  · refine ⟨1 :: bytesOfU2 (UInt16.ofNat text.toUTF8.toList.length), rfl, ?_⟩
    rw [PoolBuilder.text, hnew]
    simp

/-- Characters of one, two and three bytes. -/
theorem decode_mixedText : IsPlain "aé€"
    ∧ decode [0x61, 0xC3, 0xA9, 0xE2, 0x82, 0xAC] = some "aé€"
    ∧ ({} : PoolBuilder).texts.lookup "aé€" = none
    ∧ (PoolBuilder.text "aé€" {}).2.bytes.length = 9 := by
  have hplain : IsPlain "aé€" := by decide
  have hbytes : "aé€".toUTF8.toList = [0x61, 0xC3, 0xA9, 0xE2, 0x82, 0xAC] := by
    rw [toList_toUTF8]; decide
  obtain ⟨-, hread, hwritten⟩ := decode_charBytes "aé€"
  obtain ⟨head, hhead, hpool⟩ := hwritten {} rfl
  refine ⟨hplain, hbytes ▸ hread hplain, rfl, ?_⟩
  rw [hpool, hbytes]
  simp [hhead]

end Conformance.ClassFile.ModifiedUtf8
