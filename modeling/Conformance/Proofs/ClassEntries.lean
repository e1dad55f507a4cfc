import Conformance.Proofs.Releases

/-!
# What an entry of a classpath defines

Each class file of an entry is read by itself: it offers a class, or it is listed as malformed, or
it does neither (`readClass_eq`). Within a folder the first class file of a name counts. Within an
archive the members may stand in any order: what is kept of a name while they are looked at is the
first of the greatest candidates so far, so that in the end it is the first one outside `META-INF`,
or else the first one for the latest release (`ArchiveDefines`, `findIn_spec`).
-/

namespace Conformance

namespace Classpath

/-! ## Class files -/

/-- The stub of the class that the bytes of a class file define. -/
def stubOf? (bytes : List UInt8) : Option ClassStub :=
  match ClassFile.parse bytes with
  | .error _ => none
  | .ok file => if isDescription file.thisClass then none else some (ClassStub.ofClassFile file)

/-- The class file at a location, if it cannot be read. -/
def malformed? (location : String) (bytes : List UInt8) : Option MalformedClass :=
  match ClassFile.parse bytes with
  | .error fault => some ⟨location, fault⟩
  | .ok _ => none

/-- Whether some bytes are no class file. -/
def isMalformed (bytes : List UInt8) : Bool :=
  match ClassFile.parse bytes with
  | .error _ => true
  | .ok _ => false

theorem readClass_eq (location : String) (bytes : List UInt8) : readClass location bytes
    = match malformed? location bytes with
      | some malformed => .error malformed
      | none => .ok (stubOf? bytes) := by
  unfold readClass malformed? stubOf?
  cases ClassFile.parse bytes with
  | error fault => rfl
  | ok file =>
    dsimp only
    split <;> rfl

theorem stubOf?_of_isMalformed {bytes : List UInt8} (h : isMalformed bytes = true) :
    stubOf? bytes = none := by
  unfold isMalformed at h
  unfold stubOf?
  cases hparse : ClassFile.parse bytes with
  | error fault => rfl
  | ok file =>
    rw [hparse] at h
    cases h

theorem isSome_malformed? (location : String) (bytes : List UInt8) :
    (malformed? location bytes).isSome = isMalformed bytes := by
  unfold malformed? isMalformed
  split <;> rfl

/-! ## Folders -/

/-- A file of a folder is a class file that defines a class of a given name. -/
structure FileDefines (file : String × Contents) (name : String) (stub : ClassStub) : Prop where
  isClass : Path.extension? file.1 = some "class"
  defines : stubOf? file.2.toBytes = some stub
  isNamed : stub.binaryName = name

theorem findInFolder_eq (files : List (String × Contents)) : findInFolder files
    = { stubs := files.filterMap fun e => stubOf? e.2.toBytes
        malformed := files.filterMap fun e => malformed? e.1 e.2.toBytes } := by
  induction files with
  | nil => rfl
  | cons e files ih =>
    obtain ⟨path, contents⟩ := e
    rw [findInFolder, readClass_eq, ih, List.filterMap_cons, List.filterMap_cons]
    cases hmalformed : malformed? path contents.toBytes with
    | some malformed =>
      have hbad : isMalformed contents.toBytes = true := by
        rw [← isSome_malformed? path, hmalformed, Option.isSome_some]
      rw [stubOf?_of_isMalformed hbad]
    | none =>
      dsimp only
      cases stubOf? contents.toBytes <;> rfl

/-! ## Archives -/

/-- The release that a member defines a class for, if it is one that counts. -/
def classRelease? (multiRelease : Bool) (m : Member) : Option Nat :=
  if isClassMember m then releaseOf? multiRelease m.name else none

/-- What a member offers. -/
def candidate? (multiRelease : Bool) (m : Member) : Option Candidate :=
  (classRelease? multiRelease m).bind fun release =>
    (m.data?.bind stubOf?).map fun stub => (release, stub)

/-- The member, if it is a class file that cannot be read. -/
def malformedMember? (path : String) (multiRelease : Bool) (m : Member) : Option MalformedClass :=
  (classRelease? multiRelease m).bind fun _ =>
    m.data?.bind (malformed? (path ++ "!/" ++ m.name))

/-- A member can be opened, and also read if it is a class file that counts. -/
def IsReadable (multiRelease : Bool) (m : Member) : Prop :=
  m.opens = true ∧ ((classRelease? multiRelease m).isSome → m.data?.isSome)

theorem findInMembers_eq {path : String} {multiRelease : Bool} {members : List Member}
    (hread : ∀ m ∈ members, IsReadable multiRelease m) (best : Best) : findInMembers path multiRelease members best
      = .ok ((members.filterMap (candidate? multiRelease)).foldl (fun b c => b.add c.1 c.2) best,
          members.filterMap (malformedMember? path multiRelease)) := by
  induction members generalizing best with
  | nil => rfl
  | cons m members ih =>
    rw [List.forall_mem_cons] at hread
    have hclass : (if isClassMember m = true then releaseOf? multiRelease m.name else none)
        = classRelease? multiRelease m := rfl
    rw [findInMembers, hread.1.1, Bool.not_true, if_neg Bool.false_ne_true, hclass,
      List.filterMap_cons, List.filterMap_cons, candidate?, malformedMember?]
    cases hrelease : classRelease? multiRelease m with
    | none => exact ih hread.2 best
    | some release =>
      obtain ⟨data, hdata⟩ := Option.isSome_iff_exists.mp (hread.1.2 (by rw [hrelease]; rfl))
      rw [hdata]
      simp only [Option.bind_some, readClass_eq]
      cases hmalformed : malformed? (path ++ "!/" ++ m.name) data with
      | some malformed =>
        have hbad : isMalformed data = true := by
          rw [← isSome_malformed? (path ++ "!/" ++ m.name), hmalformed, Option.isSome_some]
        rw [stubOf?_of_isMalformed hbad, ih hread.2 best]
        rfl
      | none =>
        cases hstub : stubOf? data with
        | none => exact ih hread.2 best
        | some stub => exact ih hread.2 (best.add release stub)

/-- A member of an archive is a class file that defines a class of a given name. -/
structure MemberDefines (m : Member) (name : String) (stub : ClassStub) : Prop where
  isClass : isClassMember m = true
  defines : m.data?.bind stubOf? = some stub
  isNamed : stub.binaryName = name

/-- An archive defines a class of a given name: the first one outside `META-INF`, or if there is
none and the archive has versions, the first one of those for the latest release. -/
inductive ArchiveDefines (members : List Member) (name : String) (stub : ClassStub) : Prop where
  | base {before after : List Member} {m : Member} (split : members = before ++ m :: after)
      (outside : ¬ InMetaInf m.name) (defines : MemberDefines m name stub)
      (first : ∀ other ∈ before, ¬ InMetaInf other.name → ∀ s, ¬ MemberDefines other name s)
  | version {before after : List Member} {m : Member} {release : Nat}
      (multiRelease : isMultiRelease members = true)
      (noBase : ∀ other ∈ members, ¬ InMetaInf other.name → ∀ s, ¬ MemberDefines other name s)
      (split : members = before ++ m :: after) (inside : InVersions m.name release)
      (defines : MemberDefines m name stub)
      (first : ∀ other ∈ before, ∀ n s, InVersions other.name n → MemberDefines other name s →
        n < release)
      (latest : ∀ other ∈ after, ∀ n s, InVersions other.name n → MemberDefines other name s →
        n ≤ release)

/-- What a member offers under a given name. -/
def candidateOf? (multiRelease : Bool) (name : String) (m : Member) : Option Candidate :=
  (candidate? multiRelease m).filter (·.2.binaryName = name)

theorem candidateOf?_eq_some_iff {multiRelease : Bool} {name : String} {m : Member}
    {release : Nat} {stub : ClassStub} :
    candidateOf? multiRelease name m = some (release, stub)
      ↔ releaseOf? multiRelease m.name = some release ∧ MemberDefines m name stub := by
  rw [candidateOf?, Option.filter_eq_some_iff, candidate?, Option.bind_eq_some_iff]
  constructor
  · rintro ⟨⟨r, hrelease, hstub⟩, hname⟩
    obtain ⟨s, hs, heq⟩ := Option.map_eq_some_iff.mp hstub
    cases heq
    unfold classRelease? at hrelease
    split at hrelease
    · next hclass => exact ⟨hrelease, hclass, hs, of_decide_eq_true hname⟩
    · cases hrelease
  · rintro ⟨hrelease, hclass, hdefines, hname⟩
    exact ⟨⟨release, by rw [classRelease?, if_pos hclass, hrelease], by rw [hdefines]; rfl⟩,
      decide_eq_true hname⟩

/-- The first candidate that counts most, among the members that it comes from. -/
theorem argmax_candidates_iff {multiRelease : Bool} {members : List Member} {name : String}
    {release : Nat} {stub : ClassStub} :
    ((members.filterMap (candidate? multiRelease)).filter (·.2.binaryName = name)).argmax
        (fun c => rank c.1) = some (release, stub)
      ↔ ∃ before m after, members = before ++ m :: after
        ∧ candidateOf? multiRelease name m = some (release, stub)
        ∧ (∀ other ∈ before, ∀ c, candidateOf? multiRelease name other = some c →
            rank c.1 < rank release)
        ∧ ∀ other ∈ after, ∀ c, candidateOf? multiRelease name other = some c →
            rank c.1 ≤ rank release := by
  have hoffers : (members.filterMap (candidate? multiRelease)).filter (·.2.binaryName = name)
      = members.filterMap (candidateOf? multiRelease name) := List.filter_filterMap ..
  rw [hoffers, argmax_eq_some_iff_append]
  constructor
  · rintro ⟨earlier, later, hsplit, hearlier, hlater⟩
    obtain ⟨front, rest, rfl, rfl, hrest⟩ := List.filterMap_eq_append_iff.mp hsplit
    obtain ⟨skipped, m, after, rfl, hskipped, hm, rfl⟩ := List.filterMap_eq_cons_iff.mp hrest
    refine ⟨front ++ skipped, m, after, by simp, hm, ?_, ?_⟩
    · intro other hother c hc
      rcases List.mem_append.mp hother with hother | hother
      · exact hearlier c (List.mem_filterMap.mpr ⟨other, hother, hc⟩)
      · rw [hskipped other hother] at hc
        cases hc
    · exact fun other hother c hc => hlater c (List.mem_filterMap.mpr ⟨other, hother, hc⟩)
  · rintro ⟨before, m, after, rfl, hm, hbefore, hafter⟩
    refine ⟨_, _, by rw [List.filterMap_append, List.filterMap_cons_some hm], ?_, ?_⟩
    · intro c hc
      obtain ⟨other, hother, hc⟩ := List.mem_filterMap.mp hc
      exact hbefore other hother c hc
    · intro c hc
      obtain ⟨other, hother, hc⟩ := List.mem_filterMap.mp hc
      exact hafter other hother c hc

/-- The versions in an archive are numbered from one on. -/
def Numbered (members : List Member) : Prop := ∀ m ∈ members, ¬ InVersions m.name 0

instance (members : List Member) : Decidable (Numbered members) :=
  inferInstanceAs (Decidable (∀ m ∈ members, _))

/-- Where versions are numbered from one on, what is offered for no release stands outside
`META-INF`. -/
theorem candidateOf?_base_iff {multiRelease : Bool} {name : String} {m : Member}
    (h : ¬ InVersions m.name 0) {stub : ClassStub} :
    candidateOf? multiRelease name m = some (0, stub)
      ↔ ¬ InMetaInf m.name ∧ MemberDefines m name stub := by
  rw [candidateOf?_eq_some_iff, releaseOf?_eq_some_iff]
  simp [h]

theorem candidateOf?_version_iff {multiRelease : Bool} {name : String} {m : Member}
    {release : Nat} (h : release ≠ 0) {stub : ClassStub} :
    candidateOf? multiRelease name m = some (release, stub)
      ↔ (multiRelease = true ∧ InVersions m.name release) ∧ MemberDefines m name stub := by
  rw [candidateOf?_eq_some_iff, releaseOf?_eq_some_iff]
  simp [h]

variable {members : List Member} {name : String} {stub : ClassStub}

/-- What an archive defines is kept of the candidates. -/
theorem ArchiveDefines.exists_argmax (hnumbered : Numbered members)
    (h : ArchiveDefines members name stub) : ∃ release,
      ((members.filterMap (candidate? (isMultiRelease members))).filter
        (·.2.binaryName = name)).argmax (fun c => rank c.1) = some (release, stub) := by
  cases h with
  | @base before after m split outside defines first =>
    refine ⟨0, argmax_candidates_iff.mpr ⟨before, m, after, split, ?_, ?_, ?_⟩⟩
    · exact (candidateOf?_base_iff (hnumbered m (by simp [split]))).mpr ⟨outside, defines⟩
    · rintro other hother ⟨r, s⟩ hc
      refine rank_lt_rank_zero ?_
      rintro rfl
      obtain ⟨hout, hdefines⟩ :=
        (candidateOf?_base_iff (hnumbered other (by simp [split, hother]))).mp hc
      exact first other hother hout s hdefines
    · exact fun other _ c _ => rank_le_rank_zero c.1
  | @version before after m release multiRelease noBase split inside defines first latest =>
    have hrelease : release ≠ 0 := by
      rintro rfl
      exact hnumbered m (by simp [split]) inside
    -- all that is offered is for some release
    have hversion : ∀ other ∈ members, ∀ r s,
        candidateOf? (isMultiRelease members) name other = some (r, s) →
        r ≠ 0 ∧ InVersions other.name r ∧ MemberDefines other name s := by
      intro other hother r s hc
      have hr : r ≠ 0 := by
        rintro rfl
        obtain ⟨hout, hdefines⟩ := (candidateOf?_base_iff (hnumbered other hother)).mp hc
        exact noBase other hother hout s hdefines
      obtain ⟨⟨-, hin⟩, hdefines⟩ := (candidateOf?_version_iff hr).mp hc
      exact ⟨hr, hin, hdefines⟩
    refine ⟨release, argmax_candidates_iff.mpr ⟨before, m, after, split, ?_, ?_, ?_⟩⟩
    · exact (candidateOf?_version_iff hrelease).mpr ⟨⟨multiRelease, inside⟩, defines⟩
    · rintro other hother ⟨r, s⟩ hc
      obtain ⟨hr, hin, hdefines⟩ := hversion other (by simp [split, hother]) r s hc
      exact (rank_lt_rank hr hrelease).mpr (first other hother r s hin hdefines)
    · rintro other hother ⟨r, s⟩ hc
      obtain ⟨hr, hin, hdefines⟩ := hversion other (by simp [split, hother]) r s hc
      exact (rank_le_rank hr hrelease).mpr (latest other hother r s hin hdefines)

/-- What is kept of the candidates the archive defines. -/
theorem archiveDefines_of_argmax (hnumbered : Numbered members) {release : Nat}
    (h : ((members.filterMap (candidate? (isMultiRelease members))).filter
      (·.2.binaryName = name)).argmax (fun c => rank c.1) = some (release, stub)) :
    ArchiveDefines members name stub := by
  obtain ⟨before, m, after, split, hm, hbefore, hafter⟩ := argmax_candidates_iff.mp h
  have hbase : ∀ other ∈ members, ¬ InMetaInf other.name → ∀ s, MemberDefines other name s →
      candidateOf? (isMultiRelease members) name other = some (0, s) :=
    fun other hother hout s hs => (candidateOf?_base_iff (hnumbered other hother)).mpr ⟨hout, hs⟩
  by_cases hzero : release = 0
  · subst hzero
    obtain ⟨hout, hdefines⟩ := (candidateOf?_base_iff (hnumbered m (by simp [split]))).mp hm
    refine .base split hout hdefines fun other hother hother' s hs => ?_
    exact lt_irrefl _ (hbefore other hother _ (hbase other (by simp [split, hother]) hother' s hs))
  · obtain ⟨⟨hmulti, hin⟩, hdefines⟩ := (candidateOf?_version_iff hzero).mp hm
    have hversion : ∀ other ∈ members, ∀ n s, InVersions other.name n →
        MemberDefines other name s → n ≠ 0
          ∧ candidateOf? (isMultiRelease members) name other = some (n, s) := by
      intro other hother n s hother' hs
      have hn : n ≠ 0 := by
        rintro rfl
        exact hnumbered other hother hother'
      exact ⟨hn, (candidateOf?_version_iff hn).mpr ⟨⟨hmulti, hother'⟩, hs⟩⟩
    refine .version hmulti ?_ split hin hdefines ?_ ?_
    · -- a class outside `META-INF` would have been kept
      intro other hother hout s hs
      have hc := hbase other hother hout s hs
      have hlt := rank_lt_rank_zero hzero
      rw [split, List.mem_append, List.mem_cons] at hother
      rcases hother with hother | rfl | hother
      · exact hlt.not_gt (hbefore other hother _ hc)
      · exact hout hin.inMetaInf
      · exact hlt.not_ge (hafter other hother _ hc)
    · intro other hother n s hother' hs
      obtain ⟨hn, hc⟩ := hversion other (by simp [split, hother]) n s hother' hs
      exact (rank_lt_rank hn hzero).mp (hbefore other hother _ hc)
    · intro other hother n s hother' hs
      obtain ⟨hn, hc⟩ := hversion other (by simp [split, hother]) n s hother' hs
      exact (rank_le_rank hn hzero).mp (hafter other hother _ hc)

theorem archiveDefines_iff (hnumbered : Numbered members) : ArchiveDefines members name stub
    ↔ ∃ release, ((members.filterMap (candidate? (isMultiRelease members))).filter
        (·.2.binaryName = name)).argmax (fun c => rank c.1) = some (release, stub) :=
  ⟨ArchiveDefines.exists_argmax hnumbered, fun ⟨_, h⟩ => archiveDefines_of_argmax hnumbered h⟩

/-- A class that was kept has the name under which it was kept. -/
theorem binaryName_of_getElem? {candidates : List Candidate} {name : String} {c : Candidate}
    (h : (candidates.foldl (fun best c => best.add c.1 c.2) (∅ : Best))[name]? = some c) :
    c.2.binaryName = name := by
  rw [getElem?_foldl_add] at h
  simpa using List.of_mem_filter (List.argmax_mem h)

/-- The values of a map stand in the order of its keys. -/
theorem values_eq_map_snd {α β : Type} {cmp : α → α → Ordering} [Std.TransCmp cmp]
    (map : Std.ExtTreeMap α β cmp) : map.values = map.toList.map Prod.snd := by
  obtain ⟨inner⟩ := map
  induction inner using Std.ExtDTreeMap.inductionOn with
  | _ tree =>
    change tree.inner.values
      = (Std.DTreeMap.Internal.Impl.Const.toList tree.inner).map Prod.snd
    rw [Std.DTreeMap.Internal.Impl.values_eq_map_snd,
      Std.DTreeMap.Internal.Impl.Const.toList_eq_toListModel_map, List.map_map]
    rfl

theorem mem_values_iff {α β : Type} {cmp : α → α → Ordering} [Std.TransCmp cmp]
    [Std.LawfulEqCmp cmp] {map : Std.ExtTreeMap α β cmp} {value : β} :
    value ∈ map.values ↔ ∃ key : α, map[key]? = some value := by
  simp only [values_eq_map_snd, List.mem_map, Prod.exists, exists_eq_right,
    Std.ExtTreeMap.mem_toList_iff_getElem?_eq_some]

/-- Where classes are kept under their names, the class of a name is the only one among all that
are kept. -/
theorem find?_values {best : Best}
    (h : ∀ (key : String) (c : Candidate), best[key]? = some c → c.2.binaryName = key)
    (name : String) : (best.values.map (·.2)).find? (·.binaryName = name)
      = best[name]?.map (·.2) := by
  have hmem : ∀ stub, stub ∈ best.values.map (·.2) ↔ ∃ (key : String) (release : Nat),
      best[key]? = some (release, stub) := by
    intro stub
    rw [List.mem_map]
    constructor
    · rintro ⟨⟨release, stub⟩, hvalue, rfl⟩
      obtain ⟨key, hkey⟩ := mem_values_iff.mp hvalue
      exact ⟨key, release, hkey⟩
    · rintro ⟨key, release, hkey⟩
      exact ⟨(release, stub), mem_values_iff.mpr ⟨key, hkey⟩, rfl⟩
  cases hfind : (best.values.map (·.2)).find? (·.binaryName = name) with
  | none =>
    cases hbest : best[name]? with
    | none => rfl
    | some c =>
      have hnone := List.find?_eq_none.mp hfind c.2 ((hmem c.2).mpr ⟨name, c.1, hbest⟩)
      exact absurd (decide_eq_true (h name c hbest)) hnone
  | some stub =>
    obtain ⟨key, release, hkey⟩ := (hmem stub).mp (List.mem_of_find?_eq_some hfind)
    have hname : stub.binaryName = name := by simpa using List.find?_some hfind
    obtain rfl := (h key _ hkey).symm.trans hname
    rw [hkey, Option.map_some]

theorem findInArchive_spec (path : String) {members : List Member}
    (hread : ∀ m ∈ members, IsReadable (isMultiRelease members) m)
    (hnumbered : Numbered members) : ∃ found, findInArchive path members = .ok found
      ∧ found.malformed = members.filterMap (malformedMember? path (isMultiRelease members))
      ∧ ∀ name stub, found.stubs.find? (·.binaryName = name) = some stub
          ↔ ArchiveDefines members name stub := by
  refine ⟨_, by rw [findInArchive, findInMembers_eq hread]; rfl, rfl, fun name stub => ?_⟩
  dsimp only
  rw [find?_values fun key c hc => binaryName_of_getElem? hc, getElem?_foldl_add,
    archiveDefines_iff hnumbered, Option.map_eq_some_iff]
  constructor
  · rintro ⟨⟨release, stub⟩, h, rfl⟩
    exact ⟨release, h⟩
  · rintro ⟨release, h⟩
    exact ⟨(release, stub), h, rfl⟩

/-! ## Entries -/

/-- What an entry of a classpath is found to be. -/
inductive Opened where
  /-- The files of a folder. -/
  | folder (files : List (String × Contents))
  | archive (members : List Member)

/-- An entry is there and can be read. -/
inductive Opens (disk : Disk) : ClasspathEntry → Opened → Prop where
  | folder {path : String} {files : List (String × Contents)}
      (walk : disk.walk? path = some files) : Opens disk (.folder path) (.folder files)
  | archive {path : String} {contents : Contents} {members : List Member}
      (file : disk.find? path = some (.file contents))
      (isArchive : Archive.members? contents.toBytes = some members)
      (readable : ∀ m ∈ members, IsReadable (isMultiRelease members) m) :
      Opens disk (.archive path) (.archive members)

namespace Opened

/-- An entry defines a class of a given name, by the first class file that does. -/
inductive Defines : Opened → String → ClassStub → Prop where
  | folder {files before after : List (String × Contents)} {file : String × Contents}
      {name : String} {stub : ClassStub} (split : files = before ++ file :: after)
      (defines : FileDefines file name stub)
      (first : ∀ other ∈ before, ∀ s, ¬ FileDefines other name s) :
      Defines (.folder files) name stub
  | archive {members : List Member} {name : String} {stub : ClassStub}
      (defines : ArchiveDefines members name stub) : Defines (.archive members) name stub

/-- The class files of an entry that cannot be read, in order. -/
def malformed (path : String) : Opened → List MalformedClass
  | folder files => (classFiles files).filterMap fun file => malformed? file.1 file.2.toBytes
  | archive members => members.filterMap (malformedMember? path (isMultiRelease members))

/-- The versions in an entry are numbered from one on. -/
def IsNumbered : Opened → Prop
  | folder _ => True
  | archive members => Numbered members

instance : (o : Opened) → Decidable o.IsNumbered
  | folder _ => .isTrue trivial
  | archive members => inferInstanceAs (Decidable (Numbered members))

end Opened

theorem find?_folder_iff {files : List (String × Contents)} {name : String} {stub : ClassStub} :
    (findInFolder (classFiles files)).stubs.find? (·.binaryName = name) = some stub
      ↔ Opened.Defines (.folder files) name stub := by
  have hdefines : ∀ (file : String × Contents) (s : ClassStub), FileDefines file name s
      ↔ (if Path.extension? file.1 = some "class" then stubOf? file.2.toBytes else none) = some s
        ∧ s.binaryName = name := by
    intro file s
    constructor
    · rintro ⟨hclass, hstub, hname⟩
      exact ⟨by rw [if_pos hclass, hstub], hname⟩
    · rintro ⟨hstub, hname⟩
      split at hstub
      · next hclass => exact ⟨hclass, hstub, hname⟩
      · cases hstub
  have hany : ∀ file : String × Contents,
      (if Path.extension? file.1 = some "class" then stubOf? file.2.toBytes else none).any
          (·.binaryName = name) = true ↔ ∃ s, FileDefines file name s := by
    intro file
    simp only [hdefines, Option.any_eq_true, decide_eq_true_iff]
  have hstubs : (findInFolder (classFiles files)).stubs = files.filterMap fun file =>
      if Path.extension? file.1 = some "class" then stubOf? file.2.toBytes else none := by
    rw [findInFolder_eq, classFiles, List.filterMap_filter]
    simp only [decide_eq_true_eq]
  rw [hstubs, List.find?_filterMap, Option.bind_eq_some_iff]
  constructor
  · rintro ⟨file, hfind, hstub⟩
    obtain ⟨hfile, before, after, hsplit, hbefore⟩ := List.find?_eq_some_iff_append.mp hfind
    obtain ⟨s, hs⟩ := (hany file).mp hfile
    have hsame : s = stub := Option.some.inj (((hdefines file s).mp hs).1.symm.trans hstub)
    refine .folder hsplit (hsame ▸ hs) fun other hother t ht => ?_
    have hnone := hbefore other hother
    rw [(hany other).mpr ⟨t, ht⟩] at hnone
    cases hnone
  · rintro (⟨hsplit, hdef, hfirst⟩ | _)
    refine ⟨_, List.find?_eq_some_iff_append.mpr ⟨(hany _).mpr ⟨stub, hdef⟩, _, _, hsplit, ?_⟩,
      ((hdefines _ _).mp hdef).1⟩
    intro other hother
    rw [Bool.not_eq_true', ← Bool.not_eq_true, hany]
    rintro ⟨s, hs⟩
    exact hfirst other hother s hs

/-- What is found in an entry. -/
theorem findIn_spec {disk : Disk} {entry : ClasspathEntry} {opened : Opened}
    (h : Opens disk entry opened) (hnumbered : opened.IsNumbered) :
    ∃ found, findIn disk entry = .ok found ∧ found.malformed = opened.malformed entry.path
      ∧ ∀ name stub, found.stubs.find? (·.binaryName = name) = some stub
          ↔ opened.Defines name stub := by
  cases h with
  | @folder path files walk =>
    rw [Disk.walk?, Option.map_eq_some_iff] at walk
    obtain ⟨node, hfind, rfl⟩ := walk
    refine ⟨_, by rw [findIn, ClasspathEntry.path, hfind], by rw [findInFolder_eq]; rfl, ?_⟩
    exact fun name stub => find?_folder_iff
  | @archive path contents members file isArchive readable =>
    obtain ⟨found, hfound, hmalformed, hstubs⟩ := findInArchive_spec path readable hnumbered
    refine ⟨found, ?_, hmalformed, fun name stub => (hstubs name stub).trans ⟨.archive, ?_⟩⟩
    · rw [findIn, ClasspathEntry.path, file]
      dsimp only [Node.contents?, Option.bind_some]
      rw [isArchive]
      exact hfound
    · rintro (_ | hdefines)
      exact hdefines

end Classpath

end Conformance
