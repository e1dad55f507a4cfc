import Conformance.Proofs.PoolReading

/-!
# The numbers of constants

The constants of a table are numbered from one on, and a wide one takes two numbers. So the number
of a constant is told by what stands in front of it (`HasNumber`), and every number is that of a
constant, the second one of a wide constant, or none of the table (`number_cases`).

Reading a table gives back the constants under their numbers, and a look-up answers by them alone
(`constants_numbered`). Numbers that are no constant's are reported, whatever is asked for.
-/

namespace Conformance.ClassFile

/-- How many numbers a constant takes. -/
def Constant.width (c : Constant) : Nat := if c.isWide then 2 else 1

/-- How many numbers some constants take. -/
def numbersTaken : List Constant → Nat
  | [] => 0
  | c :: constants => c.width + numbersTaken constants

/-- The constant is the one with the number. -/
def HasNumber (constants : List Constant) (index : UInt16) (c : Constant) : Prop :=
  ∃ before after, constants = before ++ c :: after ∧ index.toNat = numbersTaken before + 1

/-- The number is the second one of a wide constant. -/
def IsSecondHalf (constants : List Constant) (index : UInt16) : Prop :=
  ∃ before c after, constants = before ++ c :: after ∧ c.isWide = true
    ∧ index.toNat = numbersTaken before + 2

/-- The number is no constant's. -/
def IsUnusable (constants : List Constant) (index : UInt16) : Prop :=
  index = 0 ∨ IsSecondHalf constants index ∨ numbersTaken constants < index.toNat

variable {constants : List Constant} {index : UInt16}

/-! ## Every number -/

theorem length_flatMap_slots (constants : List Constant) :
    (constants.flatMap Constant.slots).length = numbersTaken constants := by
  induction constants with
  | nil => rfl
  | cons c constants ih =>
    rw [List.flatMap_cons, List.length_append, c.length_slots, ih, numbersTaken, Constant.width]

/-- A place before the end is within one of the constants. -/
theorem exists_block {n : Nat} (h : n < numbersTaken constants) :
    ∃ before c after, constants = before ++ c :: after
      ∧ numbersTaken before ≤ n ∧ n < numbersTaken before + c.width := by
  induction constants generalizing n with
  | nil => cases h
  | cons c constants ih =>
    rw [numbersTaken] at h
    rcases Nat.lt_or_ge n c.width with hfirst | hlater
    · refine ⟨[], c, constants, rfl, Nat.zero_le n, ?_⟩
      rwa [numbersTaken, Nat.zero_add]
    · obtain ⟨before, d, after, rfl, hle, hlt⟩ := ih (n := n - c.width) (by omega)
      refine ⟨c :: before, d, after, rfl, ?_, ?_⟩ <;> rw [numbersTaken] <;> omega

theorem number_cases (constants : List Constant) (index : UInt16) :
    (∃ c, HasNumber constants index c) ∨ IsUnusable constants index := by
  by_cases hzero : index = 0
  · exact .inr (.inl hzero)
  · have hpos : index.toNat ≠ 0 := fun h => hzero (UInt16.toNat_inj.mp h)
    rcases Nat.lt_or_ge (index.toNat - 1) (numbersTaken constants) with hlt | hge
    · obtain ⟨before, c, after, hsplit, hle, hblock⟩ := exists_block hlt
      rcases Nat.eq_or_lt_of_le hle with heq | hgt
      · exact .inl ⟨c, before, after, hsplit, by omega⟩
      · -- only a wide constant has another place
        have hwide : c.isWide = true := by
          rw [Constant.width] at hblock
          split at hblock
          · assumption
          · omega
        rw [Constant.width, if_pos hwide] at hblock
        exact .inr (.inr (.inl ⟨before, c, after, hsplit, hwide, by omega⟩))
    · exact .inr (.inr (.inr (by omega)))

/-! ## Look-ups -/

namespace ConstantPool

theorem get_of_hasNumber {c : Constant} (h : HasNumber constants index c) :
    (ofConstants constants).get index = .ok c := by
  obtain ⟨before, after, hsplit, hindex⟩ := h
  exact get_ofConstants hsplit (by rw [hindex, length_flatMap_slots])

theorem get_of_isUnusable (h : IsUnusable constants index) :
    (ofConstants constants).get index = .error (.noEntry index) := by
  -- the slot is empty, or there is none
  have hslot : (ofConstants constants).slots[index.toNat]? = some none
      ∨ (ofConstants constants).slots[index.toNat]? = none := by
    rcases h with rfl | ⟨before, c, after, hsplit, hwide, hindex⟩ | hlarge
    · exact .inl (by rw [ofConstants, List.getElem?_toArray]; rfl)
    · have hslots : c.slots = [some c, none] := if_pos hwide
      have hsecond := getElem?_ofConstants hsplit (n := 1) (by rw [hslots]; exact Nat.one_lt_two)
      rw [length_flatMap_slots, ← hindex, hslots] at hsecond
      exact .inl hsecond
    · rw [ofConstants, List.getElem?_toArray]
      refine .inr (List.getElem?_eq_none ?_)
      rw [List.length_cons, length_flatMap_slots]
      exact hlarge
  rw [get]
  rcases hslot with hslot | hslot <;> rw [hslot]

theorem get_eq_ok {c : Constant} :
    (ofConstants constants).get index = .ok c ↔ HasNumber constants index c := by
  refine ⟨fun h => ?_, get_of_hasNumber⟩
  rcases number_cases constants index with ⟨d, hd⟩ | hunusable
  · rw [get_of_hasNumber hd, Except.ok.injEq] at h
    exact h ▸ hd
  · rw [get_of_isUnusable hunusable] at h
    cases h

theorem get_eq_error {fault : Fault} :
    (ofConstants constants).get index = .error fault
      ↔ fault = .noEntry index ∧ IsUnusable constants index := by
  constructor
  · intro h
    rcases number_cases constants index with ⟨d, hd⟩ | hunusable
    · rw [get_of_hasNumber hd] at h
      cases h
    · rw [get_of_isUnusable hunusable, Except.error.injEq] at h
      exact ⟨h.symm, hunusable⟩
  · rintro ⟨rfl, hunusable⟩
    exact get_of_isUnusable hunusable

theorem text_eq_ok {text : String} :
    (ofConstants constants).text index = .ok text ↔ HasNumber constants index (.utf8 text) := by
  rw [← get_eq_ok, ConstantPool.text]
  split
  · next found h => simp [h]
  · next other hother h =>
    rw [h]
    refine ⟨nofun, fun heq => ?_⟩
    exact absurd (Except.ok.inj heq) (hother text)
  · next fault h => simp [h]

theorem className_eq_ok {name : String} :
    (ofConstants constants).className index = .ok name
      ↔ ∃ nameIndex, HasNumber constants index (.classRef nameIndex)
        ∧ HasNumber constants nameIndex (.utf8 name) := by
  simp only [← get_eq_ok (c := .classRef _), ← text_eq_ok]
  rw [ConstantPool.className]
  split
  · next nameIndex h => simp [h]
  · next other hother h =>
    rw [h]
    refine ⟨nofun, fun ⟨nameIndex, heq, _⟩ => ?_⟩
    exact absurd (Except.ok.inj heq) (hother nameIndex)
  · next fault h => simp [h]

/-- What is no constant's number is reported, also when a text or a class is asked for. -/
theorem lookups_of_isUnusable (h : IsUnusable constants index) :
    (ofConstants constants).get index = .error (.noEntry index)
      ∧ (ofConstants constants).text index = .error (.noEntry index)
      ∧ (ofConstants constants).className index = .error (.noEntry index) := by
  have hget := get_of_isUnusable h
  refine ⟨hget, ?_, ?_⟩
  · rw [text, hget]
  · rw [className, hget]

/-- **Constants are found under their numbers.** The bytes of a table are read as the table, and
nothing behind them is touched. In it a look-up finds the constant whose first number it is given.
It fails for the number zero, for the second number of a wide constant and for a number as large
as the count or larger; otherwise there is a constant. A text is found under the numbers of texts,
and the name of a class under the numbers of classes that point to a text. -/
theorem constants_numbered (hfits : ∀ c ∈ constants, c.Fits) {count : UInt16}
    (hcount : count.toNat = numbersTaken constants + 1) :
    read.Consumes (bytesOfU2 count ++ constants.flatMap Constant.encode) (ofConstants constants)
      ∧ ∀ index : UInt16,
        (∀ c, (ofConstants constants).get index = .ok c ↔ HasNumber constants index c)
          ∧ ((index = 0 ∨ IsSecondHalf constants index ∨ count ≤ index) ↔
            (ofConstants constants).get index = .error (.noEntry index)
              ∧ (ofConstants constants).text index = .error (.noEntry index)
              ∧ (ofConstants constants).className index = .error (.noEntry index))
          ∧ (∀ text, (ofConstants constants).text index = .ok text
            ↔ HasNumber constants index (.utf8 text))
          ∧ ∀ name, (ofConstants constants).className index = .ok name
            ↔ ∃ nameIndex, HasNumber constants index (.classRef nameIndex)
              ∧ HasNumber constants nameIndex (.utf8 name) := by
  refine ⟨consumes_read hfits (by rw [hcount, length_flatMap_slots]), fun index =>
    ⟨fun c => get_eq_ok, ?_, fun text => text_eq_ok, fun name => className_eq_ok⟩⟩
  have hlarge : count ≤ index ↔ numbersTaken constants < index.toNat := by
    rw [UInt16.le_iff_toNat_le, hcount, Nat.succ_le_iff]
  rw [hlarge]
  exact ⟨lookups_of_isUnusable, fun h => (get_eq_error.mp h.1).2⟩

/-- A `long` in front of a text and of a class. -/
def wideConstants : List Constant := [.long 0 1, .utf8 "p/C", .classRef 3]

/-- The text comes third, the class fourth, and the second number is no constant's. -/
theorem wideConstants_numbered :
    read.Consumes (bytesOfU2 5 ++ wideConstants.flatMap Constant.encode)
        (ofConstants wideConstants)
      ∧ (ofConstants wideConstants).get 1 = .ok (.long 0 1)
      ∧ (ofConstants wideConstants).get 2 = .error (.noEntry 2)
      ∧ (ofConstants wideConstants).text 3 = .ok "p/C"
      ∧ (ofConstants wideConstants).className 4 = .ok "p/C"
      ∧ (ofConstants wideConstants).className 5 = .error (.noEntry 5) := by
  have hfits : ∀ c ∈ wideConstants, c.Fits := by
    intro c hc
    simp only [wideConstants, List.mem_cons, List.not_mem_nil, or_false] at hc
    rcases hc with rfl | rfl | rfl
    · trivial
    · exact (by decide : (ModifiedUtf8.encode "p/C").length < 0x10000)
    · trivial
  have htext : HasNumber wideConstants 3 (.utf8 "p/C") :=
    ⟨[.long 0 1], [.classRef 3], rfl, by decide⟩
  have hcount : (5 : UInt16).toNat = numbersTaken wideConstants + 1 := by decide
  obtain ⟨hread, hlookups⟩ := constants_numbered hfits hcount
  refine ⟨hread, ((hlookups 1).1 _).mpr ⟨[], _, rfl, by decide⟩, ?_,
    ((hlookups 3).2.2.1 "p/C").mpr htext, ?_, ?_⟩
  · exact ((hlookups 2).2.1.mp (.inr (.inl ⟨[], .long 0 1, _, rfl, rfl, by decide⟩))).1
  · exact ((hlookups 4).2.2.2 "p/C").mpr
      ⟨3, ⟨[.long 0 1, .utf8 "p/C"], [], rfl, by decide⟩, htext⟩
  · exact ((hlookups 5).2.1.mp (.inr (.inr (by decide)))).2.2

end ConstantPool

end Conformance.ClassFile
