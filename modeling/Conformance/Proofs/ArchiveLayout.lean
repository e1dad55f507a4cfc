import Mathlib
import Conformance.Archive.Zip
import Conformance.Proofs.TextEncoding

/-!
# Archives that are written and read

An archive can have any members, in any order (`members?_archiveOf`), provided that counts and
lengths fit into the bytes that there are for them. Each record is a list of numbers of known
widths, so a number in it is found by the fields in front of it (`numberAt?_of_record`), and where
a record itself stands is followed through the archive as a part of its bytes (`HasAt`).
-/

namespace Conformance.Archive

/-! ## Numbers -/

/-- A number in so many bytes, the least significant byte first. -/
def leastFirst : Nat → Nat → List UInt8
  | 0, _ => []
  | size + 1, value => UInt8.ofNat value :: leastFirst size (value / 256)

@[simp] theorem length_leastFirst (size value : Nat) : (leastFirst size value).length = size := by
  induction size generalizing value with
  | zero => rfl
  | succ size ih => rw [leastFirst, List.length_cons, ih]

theorem numberOf_leastFirst {size value : Nat} (h : value < 256 ^ size) :
    numberOf (leastFirst size value) = value := by
  induction size generalizing value with
  | zero =>
    rw [Nat.pow_zero] at h
    have hzero : value = 0 := by omega
    rw [hzero]
    rfl
  | succ size ih =>
    have hdiv : value / 256 < 256 ^ size := by
      rw [Nat.pow_succ] at h
      exact Nat.div_lt_of_lt_mul (by omega)
    have hcons : numberOf (leastFirst (size + 1) value)
        = (UInt8.ofNat value).toNat + 256 * numberOf (leastFirst size (value / 256)) := rfl
    rw [hcons, ih hdiv, UInt8.toNat_ofNat']
    omega

/-! ## Parts of some bytes -/

/-- Some bytes have a part that begins at a place. -/
def HasAt (bytes : List UInt8) (start : Nat) (part : List UInt8) : Prop :=
  ∃ before after, bytes = before ++ (part ++ after) ∧ before.length = start

theorem HasAt.left {bytes part other : List UInt8} {start : Nat}
    (h : HasAt bytes start (part ++ other)) : HasAt bytes start part := by
  obtain ⟨before, after, rfl, hlength⟩ := h
  exact ⟨before, other ++ after, by simp, hlength⟩

theorem HasAt.right {bytes part other : List UInt8} {start : Nat}
    (h : HasAt bytes start (part ++ other)) : HasAt bytes (start + part.length) other := by
  obtain ⟨before, after, rfl, hlength⟩ := h
  exact ⟨before ++ part, after, by simp, by simp [hlength]⟩

theorem toList_eq (bytes : ByteArray) : bytes.toList = bytes.data.toList := by
  rw [ByteArray.toList, ClassFile.ModifiedUtf8.toList_loop]
  rfl

theorem extract_of_hasAt {bytes part : List UInt8} {start : Nat} (h : HasAt bytes start part) :
    (bytes.toByteArray.extract start (start + part.length)).toList = part := by
  obtain ⟨before, after, rfl, rfl⟩ := h
  rw [toList_eq, ByteArray.data_extract, Array.toList_extract, List.toList_data_toByteArray]
  simp [List.extract]

theorem bytesAt?_of_hasAt {bytes part : List UInt8} {start : Nat} (h : HasAt bytes start part) :
    bytesAt? bytes.toByteArray start part.length = some part := by
  have hsize : start + part.length ≤ bytes.toByteArray.size := by
    obtain ⟨before, after, rfl, rfl⟩ := h
    simp only [List.size_toByteArray, List.length_append]
    omega
  rw [bytesAt?, if_pos hsize, extract_of_hasAt h]

theorem numberAt?_of_hasAt {bytes : List UInt8} {start size value : Nat}
    (h : HasAt bytes start (leastFirst size value)) (hvalue : value < 256 ^ size) :
    numberAt? bytes.toByteArray start size = some value := by
  have hbytes := bytesAt?_of_hasAt h
  rw [length_leastFirst] at hbytes
  rw [numberAt?, hbytes, Option.map_some, numberOf_leastFirst hvalue]

/-! ## Records -/

/-- Some numbers one after the other, each with the number of its bytes. -/
def record (fields : List (Nat × Nat)) : List UInt8 :=
  fields.flatMap fun (size, value) => leastFirst size value

theorem length_record (fields : List (Nat × Nat)) :
    (record fields).length = (fields.map Prod.fst).sum := by
  simp [record, List.length_flatMap]

/-- The number in a field of a record, at the place behind the fields in front of it. -/
theorem numberAt?_of_record {bytes rest : List UInt8} {start size value place : Nat}
    {fields : List (Nat × Nat)} (i : Nat) (h : HasAt bytes start (record fields ++ rest))
    (hplace : start + ((fields.take i).map Prod.fst).sum = place)
    (hfield : fields[i]? = some (size, value)) (hvalue : value < 256 ^ size) :
    numberAt? bytes.toByteArray place size = some value := by
  obtain ⟨hlt, hget⟩ := List.getElem?_eq_some_iff.mp hfield
  have hsplit : fields = fields.take i ++ (size, value) :: fields.drop (i + 1) := by
    rw [← hget, ← List.drop_eq_getElem_cons hlt, List.take_append_drop]
  have hrecord : record fields = record (fields.take i)
      ++ (leastFirst size value ++ record (fields.drop (i + 1))) := by
    conv_lhs => rw [hsplit]
    simp [record]
  rw [hrecord] at h
  rw [← hplace, ← length_record]
  exact numberAt?_of_hasAt h.left.right.left hvalue

/-- What the records of a member say of it: flags, method, time, checksum, the sizes of the data
and of the name, and that there is nothing else. -/
def memberFields (name data : List UInt8) : List (Nat × Nat) :=
  [(2, 0x0800), (2, 0), (4, 0), (4, (checksum data).toNat), (4, data.length), (4, data.length),
    (2, name.length), (2, 0)]

def localFields (name data : List UInt8) : List (Nat × Nat) :=
  (4, localMark) :: (2, 20) :: memberFields name data

def entryFields (place : Nat) (name data : List UInt8) : List (Nat × Nat) :=
  (4, entryMark) :: (2, 20) :: (2, 20) :: (memberFields name data
    ++ [(2, 0), (2, 0), (2, 0), (4, 0), (4, place)])

def endFields (count size place : Nat) : List (Nat × Nat) :=
  [(4, endMark), (2, 0), (2, 0), (2, count), (2, count), (4, size), (4, place), (2, 0)]

/-! ## Archives -/

/-- The bytes of a name. -/
def nameBytes (name : String) : List UInt8 := name.toUTF8.toList

/-- A member with its data, kept as it is. -/
def localRecord (member : String × List UInt8) : List UInt8 :=
  record (localFields (nameBytes member.1) member.2) ++ (nameBytes member.1 ++ member.2)

/-- The entries of the directory for members that are laid out from a place on. -/
def directory : Nat → List (String × List UInt8) → List UInt8
  | _, [] => []
  | place, (name, data) :: members =>
    (record (entryFields place (nameBytes name) data) ++ nameBytes name)
      ++ directory (place + (localRecord (name, data)).length) members

/-- An archive with some members. -/
def archiveOf (members : List (String × List UInt8)) : List UInt8 :=
  let body := members.flatMap localRecord
  body ++ (directory 0 members
    ++ record (endFields members.length (directory 0 members).length body.length))

/-- The numbers that an archive needs are not too large. -/
structure Fits (members : List (String × List UInt8)) : Prop where
  count : members.length < 256 ^ 2
  names : ∀ member ∈ members, (nameBytes member.1).length < 256 ^ 2
  total : (archiveOf members).length < 256 ^ 4

instance (members : List (String × List UInt8)) : Decidable (Fits members) :=
  decidable_of_iff (members.length < 256 ^ 2
      ∧ (∀ member ∈ members, (nameBytes member.1).length < 256 ^ 2)
      ∧ (archiveOf members).length < 256 ^ 4)
    ⟨fun h => ⟨h.1, h.2.1, h.2.2⟩, fun h => ⟨h.count, h.names, h.total⟩⟩

theorem fromUTF8?_nameBytes (name : String) :
    String.fromUTF8? (nameBytes name).toByteArray = some name := by
  have hbytes : (nameBytes name).toByteArray = name.toUTF8 := by
    rw [nameBytes, toList_eq]
    refine ByteArray.ext ?_
    rw [List.data_toByteArray]
  have hvalid : name.toUTF8.IsValidUTF8 := name.isValidUTF8
  rw [hbytes, String.fromUTF8?, dif_pos hvalid]
  rfl

theorem checksum_lt (data : List UInt8) : (checksum data).toNat < 256 ^ 4 :=
  (checksum data).toNat_lt

/-- The data of a member is read back. -/
theorem readData_of_hasAt {bytes : List UInt8} {place : Nat} {name : String} {data : List UInt8}
    (h : HasAt bytes place (localRecord (name, data)))
    (hname : (nameBytes name).length < 256 ^ 2) :
    readData bytes.toByteArray false 0 (checksum data).toNat data.length place
      = .intact data := by
  have hmark : numberAt? bytes.toByteArray place 4 = some localMark :=
    numberAt?_of_record 0 h rfl rfl (by decide)
  have hnameSize : numberAt? bytes.toByteArray (place + 26) 2 = some (nameBytes name).length :=
    numberAt?_of_record 8 h rfl rfl hname
  have hextraSize : numberAt? bytes.toByteArray (place + 28) 2 = some 0 :=
    numberAt?_of_record 9 h rfl rfl (by decide)
  have hplace : dataPlace? bytes.toByteArray place
      = some (place + 30 + (nameBytes name).length) := by
    rw [dataPlace?, hmark]
    simp [hnameSize, hextraSize]
  have hdata : (bytes.toByteArray.extract (place + 30 + (nameBytes name).length)
      (place + 30 + (nameBytes name).length + data.length)).toList = data :=
    extract_of_hasAt h.right.right
  simp [readData, restore?, hplace, hdata]

/-- An entry of the directory is read, and then those behind it. -/
theorem entries?_succ_of_hasAt {bytes : List UInt8} {start place : Nat} {name : String}
    {data : List UInt8}
    (h : HasAt bytes start (record (entryFields place (nameBytes name) data) ++ nameBytes name))
    (hname : (nameBytes name).length < 256 ^ 2) (hsize : data.length < 256 ^ 4)
    (hplace : place < 256 ^ 4) (n : Nat) :
    entries? bytes.toByteArray (n + 1) start
      = (entries? bytes.toByteArray n (start + 46 + (nameBytes name).length)).map
          (⟨name, readData bytes.toByteArray false 0 (checksum data).toNat data.length place⟩
            :: ·) := by
  have hmark : numberAt? bytes.toByteArray start 4 = some entryMark :=
    numberAt?_of_record 0 h rfl rfl (by decide)
  -- the other numbers stand behind the mark, each behind the ones before it
  have hflags : numberAt? bytes.toByteArray (start + 8) 2 = some 0x0800 :=
    numberAt?_of_record 3 h rfl rfl (by decide)
  have hmethod : numberAt? bytes.toByteArray (start + 10) 2 = some 0 :=
    numberAt?_of_record 4 h rfl rfl (by decide)
  have hchecksum : numberAt? bytes.toByteArray (start + 16) 4 = some (checksum data).toNat :=
    numberAt?_of_record 6 h rfl rfl (checksum_lt data)
  have hkept : numberAt? bytes.toByteArray (start + 20) 4 = some data.length :=
    numberAt?_of_record 7 h rfl rfl hsize
  have hnameSize : numberAt? bytes.toByteArray (start + 28) 2 = some (nameBytes name).length :=
    numberAt?_of_record 9 h (by simp [entryFields, memberFields]) rfl hname
  have hextraSize : numberAt? bytes.toByteArray (start + 30) 2 = some 0 :=
    numberAt?_of_record 10 h (by simp [entryFields, memberFields]) rfl (by decide)
  have hcommentSize : numberAt? bytes.toByteArray (start + 32) 2 = some 0 :=
    numberAt?_of_record 11 h (by simp [entryFields, memberFields]) rfl (by decide)
  have hfound : numberAt? bytes.toByteArray (start + 42) 4 = some place :=
    numberAt?_of_record 15 h (by simp [entryFields, memberFields]) rfl hplace
  have hread : bytesAt? bytes.toByteArray (start + 46) (nameBytes name).length
      = some (nameBytes name) := bytesAt?_of_hasAt h.right
  rw [entries?, hmark]
  simp only [hflags, hmethod, hchecksum, hkept, hnameSize, hextraSize, hcommentSize, hfound, hread,
    fromUTF8?_nameBytes, Option.bind_eq_bind, Option.bind_some, ne_eq, not_true_eq_false, if_false,
    Nat.add_zero]
  exact Option.map_eq_bind.symm

/-- The members that a part of the directory describes are read back. -/
theorem entries?_of_hasAt {bytes : List UInt8} {members : List (String × List UInt8)}
    (hnames : ∀ member ∈ members, (nameBytes member.1).length < 256 ^ 2) {place start : Nat}
    (hbody : HasAt bytes place (members.flatMap localRecord))
    (hplace : place + (members.flatMap localRecord).length < 256 ^ 4)
    (hdirectory : HasAt bytes start (directory place members)) :
    entries? bytes.toByteArray members.length start
      = some (members.map fun member => ⟨member.1, .intact member.2⟩) := by
  induction members generalizing place start with
  | nil => rfl
  | cons member members ih =>
    obtain ⟨name, data⟩ := member
    rw [List.forall_mem_cons] at hnames
    rw [List.flatMap_cons] at hbody hplace
    rw [List.length_append] at hplace
    have hsize : data.length ≤ (localRecord (name, data)).length := by
      simp only [localRecord, List.length_append]
      omega
    have hrest := ih hnames.2 hbody.right (by omega) hdirectory.right
    have hlength : (record (entryFields place (nameBytes name) data) ++ nameBytes name).length
        = 46 + (nameBytes name).length := by
      rw [List.length_append, length_record]
      simp [entryFields, memberFields]
    rw [hlength, ← Nat.add_assoc] at hrest
    rw [List.length_cons, entries?_succ_of_hasAt hdirectory.left hnames.1 (by omega) (by omega),
      hrest, readData_of_hasAt hbody.left hnames.1]
    rfl

/-- The last record is looked for at the end first. -/
theorem findEnd?_of_hasAt {bytes : List UInt8} {start : Nat} {fields : List (Nat × Nat)}
    (h : HasAt bytes start (record ((4, endMark) :: fields)))
    (hsize : bytes.length = start + endSize) :
    findEnd? bytes.toByteArray 0x10000 = some start := by
  have hmark : numberAt? bytes.toByteArray start 4 = some endMark := by
    rw [← List.append_nil (record _)] at h
    exact numberAt?_of_record 0 h rfl rfl (by decide)
  have hstart : bytes.toByteArray.size - endSize - (0x10000 - (65535 + 1)) = start := by
    rw [List.size_toByteArray, hsize]
    omega
  rw [show 0x10000 = 65535 + 1 from rfl, findEnd?, hstart, hmark]
  simp

/-- **An archive that is written is read back.** -/
theorem members?_archiveOf {members : List (String × List UInt8)} (h : Fits members) :
    members? (archiveOf members)
      = some (members.map fun member => ⟨member.1, .intact member.2⟩) := by
  obtain ⟨body, hbody⟩ : ∃ body, body = members.flatMap localRecord := ⟨_, rfl⟩
  obtain ⟨entries, hentries⟩ : ∃ entries, entries = directory 0 members := ⟨_, rfl⟩
  have hsplit : archiveOf members
      = body ++ (entries ++ record (endFields members.length entries.length body.length)) := by
    rw [hbody, hentries]
    rfl
  have hend : (record (endFields members.length entries.length body.length)).length = endSize :=
    length_record _
  have hsize : (archiveOf members).length = body.length + entries.length + endSize := by
    rw [hsplit, List.length_append, List.length_append, hend, Nat.add_assoc]
  have htotal : body.length < 256 ^ 4 := by
    have := h.total
    omega
  have hbodyAt : HasAt (archiveOf members) 0 (members.flatMap localRecord) :=
    ⟨[], _, by rw [hsplit, hbody]; rfl, rfl⟩
  have hentriesAt : HasAt (archiveOf members) body.length (directory 0 members) :=
    ⟨body, _, by rw [hsplit, hentries], rfl⟩
  have hendAt : HasAt (archiveOf members) (body.length + entries.length)
      (record (endFields members.length entries.length body.length)) :=
    ⟨body ++ entries, [], by rw [hsplit]; simp, by simp⟩
  have hrecord := hendAt
  rw [← List.append_nil (record _)] at hrecord
  have hcount : numberAt? (archiveOf members).toByteArray (body.length + entries.length + 10) 2
      = some members.length :=
    numberAt?_of_record 4 hrecord rfl rfl h.count
  have hplace : numberAt? (archiveOf members).toByteArray (body.length + entries.length + 16) 4
      = some body.length :=
    numberAt?_of_record 6 hrecord rfl rfl htotal
  have hfound := entries?_of_hasAt h.names hbodyAt (by rw [← hbody]; omega) hentriesAt
  have hlarge : endSize ≤ (archiveOf members).length := hsize ▸ Nat.le_add_left ..
  rw [members?]
  simp [hlarge, findEnd?_of_hasAt hendAt hsize, hcount, hplace, hfound]

end Conformance.Archive
