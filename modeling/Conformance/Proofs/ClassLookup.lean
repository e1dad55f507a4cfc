import Mathlib.Data.List.Forall2
import Conformance.ClassFile.Builder
import Conformance.Proofs.ArchiveLayout
import Conformance.Proofs.ClassEntries

/-!
# Which class a name means

Entries of a classpath are taken one after the other, and an entry adds what no earlier one
defines (`foldl_add_spec`). So a name means what the first entry that defines it says
(`ClasspathIndex.FirstDefines`).

Class files that cannot be read are listed and offer nothing; an index of the same entries
without them has the same classes (`ClasspathIndex.build_resolves`). A folder of versions whose
number is larger than that of any release counts for nothing (`ClasspathIndex.beyond_releases`).
-/

namespace Conformance

namespace Classpath

/-! ## Without the class files that cannot be read -/

/-- Whether a file of a folder is a class file that cannot be read. -/
def isMalformedFile (file : String × Contents) : Bool :=
  Path.extension? file.1 = some "class" && isMalformed file.2.toBytes

/-- Whether a member of an archive is a class file that counts and cannot be read. -/
def isMalformedMember (multiRelease : Bool) (m : Member) : Bool :=
  (classRelease? multiRelease m).isSome && m.data?.any isMalformed

/-- The entry without the class files that cannot be read. -/
def Opened.wellFormed : Opened → Opened
  | folder files => folder (files.filter (!isMalformedFile ·))
  | archive members => archive (members.filter (!isMalformedMember (isMultiRelease members) ·))

theorem filterMap_filter_of_none {α β : Type} {f : α → Option β} {keep : α → Bool} {l : List α}
    (h : ∀ a ∈ l, keep a = false → f a = none) : (l.filter keep).filterMap f = l.filterMap f := by
  rw [List.filterMap_filter]
  refine List.filterMap_congr fun a ha => ?_
  cases hkeep : keep a with
  | true => rfl
  | false => simp [h a ha hkeep]

/-- The manifest is no class file. -/
theorem isMalformedMember_manifest {multiRelease : Bool} {m : Member}
    (h : m.name = manifestName) : isMalformedMember multiRelease m = false := by
  have hclass : isClassMember m = false := by
    rw [isClassMember, Member.isFolder, h]
    decide
  simp [isMalformedMember, classRelease?, hclass]

theorem isMultiRelease_wellFormed (members : List Member) :
    isMultiRelease (members.filter (!isMalformedMember (isMultiRelease members) ·))
      = isMultiRelease members := by
  have hmanifests : ∀ multiRelease : Bool,
      (members.filter (!isMalformedMember multiRelease ·)).filter (·.name = manifestName)
        = members.filter (·.name = manifestName) := by
    intro multiRelease
    rw [List.filter_filter]
    refine List.filter_congr fun m _ => ?_
    by_cases hname : m.name = manifestName
    · simp [hname, isMalformedMember_manifest hname]
    · simp [hname]
  unfold isMultiRelease
  rw [hmanifests]

theorem malformed?_eq_none {location : String} {bytes : List UInt8}
    (h : isMalformed bytes = false) : malformed? location bytes = none := by
  rw [← Option.not_isSome_iff_eq_none, isSome_malformed?, h]
  exact Bool.false_ne_true

theorem Opened.malformed_wellFormed (path : String) (o : Opened) :
    o.wellFormed.malformed path = [] := by
  cases o with
  | folder files =>
    refine List.filterMap_eq_nil_iff.mpr fun file hfile => ?_
    obtain ⟨hfile, hclass⟩ := List.mem_filter.mp hfile
    have hgood := List.of_mem_filter hfile
    exact malformed?_eq_none (by simpa [isMalformedFile, hclass] using hgood)
  | archive members =>
    refine List.filterMap_eq_nil_iff.mpr fun m hm => ?_
    have hgood := List.of_mem_filter hm
    rw [isMultiRelease_wellFormed]
    unfold malformedMember?
    unfold isMalformedMember at hgood
    cases hrelease : classRelease? (isMultiRelease members) m with
    | none => rfl
    | some release =>
      cases hdata : m.data? with
      | none => rfl
      | some data => exact malformed?_eq_none (by simpa [hrelease, hdata] using hgood)

/-- A member that is left out offers no class. -/
theorem candidate?_of_isMalformedMember {multiRelease : Bool} {m : Member}
    (h : isMalformedMember multiRelease m = true) : candidate? multiRelease m = none := by
  rw [isMalformedMember, Bool.and_eq_true, Option.any_eq_true] at h
  obtain ⟨-, data, hdata, hbad⟩ := h
  rw [candidate?, hdata, Option.bind_some, stubOf?_of_isMalformed hbad]
  cases classRelease? multiRelease m <;> rfl

theorem Opened.defines_archive_iff {members : List Member} {name : String} {stub : ClassStub} :
    Opened.Defines (.archive members) name stub ↔ ArchiveDefines members name stub :=
  ⟨fun | .archive h => h, .archive⟩

theorem Opened.IsNumbered.wellFormed {o : Opened} (h : o.IsNumbered) : o.wellFormed.IsNumbered := by
  cases o with
  | folder files => exact h
  | archive members => exact fun m hm => h m (List.mem_of_mem_filter hm)

/-- Without the class files that cannot be read an entry defines the same classes. -/
theorem Opened.defines_wellFormed {o : Opened} (hnumbered : o.IsNumbered) (name : String)
    (stub : ClassStub) : o.wellFormed.Defines name stub ↔ o.Defines name stub := by
  cases o with
  | folder files =>
    rw [wellFormed, ← find?_folder_iff, ← find?_folder_iff, findInFolder_eq, findInFolder_eq]
    have hclass : classFiles (files.filter (!isMalformedFile ·))
        = (classFiles files).filter (!isMalformedFile ·) := by
      rw [classFiles, classFiles, List.filter_filter, List.filter_filter]
      exact List.filter_congr fun file _ => Bool.and_comm ..
    have hstubs : (classFiles (files.filter (!isMalformedFile ·))).filterMap
          (fun file => stubOf? file.2.toBytes)
        = (classFiles files).filterMap fun file => stubOf? file.2.toBytes := by
      rw [hclass]
      refine filterMap_filter_of_none fun file _ hbad => stubOf?_of_isMalformed ?_
      rw [Bool.not_eq_false', isMalformedFile, Bool.and_eq_true] at hbad
      exact hbad.2
    dsimp only
    rw [hstubs]
  | archive members =>
    have hcandidates : ∀ multiRelease : Bool,
        (members.filter (!isMalformedMember multiRelease ·)).filterMap (candidate? multiRelease)
          = members.filterMap (candidate? multiRelease) := fun multiRelease =>
      filterMap_filter_of_none fun m _ hbad =>
        candidate?_of_isMalformedMember (by simpa using hbad)
    rw [wellFormed, defines_archive_iff, defines_archive_iff,
      archiveDefines_iff hnumbered.wellFormed,
      archiveDefines_iff hnumbered, isMultiRelease_wellFormed, hcandidates]

end Classpath

/-! ## The index -/

namespace ClasspathIndex

open Classpath

/-- Classes are added for names that have none yet. -/
theorem getElem?_foldl_addClass (stubs : List ClassStub) (classes : Std.ExtTreeMap String ClassStub)
    (name : String) : (stubs.foldl addClass classes)[name]?
      = classes[name]?.or (stubs.find? (·.binaryName = name)) := by
  induction stubs generalizing classes with
  | nil => simp
  | cons stub stubs ih =>
    have hadd : (addClass classes stub)[name]?
        = classes[name]?.or (if stub.binaryName = name then some stub else none) := by
      unfold addClass
      split
      · next hcontains =>
        by_cases hname : stub.binaryName = name
        · subst hname
          rw [Std.ExtTreeMap.contains_eq_isSome_getElem?] at hcontains
          obtain ⟨found, hfound⟩ := Option.isSome_iff_exists.mp hcontains
          rw [hfound, Option.some_or]
        · rw [if_neg hname, Option.or_none]
      · next hcontains =>
        rw [Std.ExtTreeMap.getElem?_insert]
        by_cases hname : stub.binaryName = name
        · subst hname
          have hnone : classes[stub.binaryName]? = none := by
            rwa [Std.ExtTreeMap.contains_eq_isSome_getElem?, Option.not_isSome_iff_eq_none]
              at hcontains
          simp [hnone]
        · simp [hname]
    rw [List.foldl_cons, ih, hadd, Option.or_assoc, List.find?_cons]
    by_cases hname : stub.binaryName = name
    · simp [hname]
    · simp [hname]

theorem find?_add (index : ClasspathIndex) (found : Found) (name : String) :
    (index.add found).find? name
      = (index.find? name).or (found.stubs.find? (·.binaryName = name)) :=
  getElem?_foldl_addClass ..

/-- The index with what some entries define, one after the other. -/
theorem foldl_add_spec (founds : List Found) (index : ClasspathIndex) :
    (founds.foldl add index).malformed = index.malformed ++ founds.flatMap (·.malformed)
      ∧ ∀ name, (founds.foldl add index).find? name = (index.find? name).or
          (founds.findSome? fun found => found.stubs.find? (·.binaryName = name)) := by
  induction founds generalizing index with
  | nil => simp
  | cons found founds ih =>
    obtain ⟨hmalformed, hfind⟩ := ih (index.add found)
    rw [List.foldl_cons]
    refine ⟨?_, fun name => ?_⟩
    · rw [hmalformed, add, List.flatMap_cons, List.append_assoc]
    · rw [hfind, find?_add, Option.or_assoc, List.findSome?_cons]
      cases found.stubs.find? (·.binaryName = name) <;> simp

theorem build_eq {disk : Disk} {entries : List ClasspathEntry} {founds : List Found}
    (h : List.Forall₂ (fun entry found => findIn disk entry = .ok found) entries founds) :
    build disk entries = .ok (founds.foldl add empty) := by
  unfold build
  generalize empty = index
  induction h generalizing index with
  | nil => rfl
  | cons hentry _ ih =>
    rw [List.foldlM_cons, hentry]
    exact ih _

/-- The first of some entries that defines a class of a given name defines it. -/
def FirstDefines (opened : List Opened) (name : String) (stub : ClassStub) : Prop :=
  ∃ before o after, opened = before ++ o :: after ∧ o.Defines name stub
    ∧ ∀ other ∈ before, ∀ s, ¬ other.Defines name s

/-- The class files in some entries that cannot be read, in order. -/
def malformedIn (entries : List ClasspathEntry) (opened : List Opened) : List MalformedClass :=
  (entries.zip opened).flatMap fun (entry, o) => o.malformed entry.path

theorem firstDefines_cons {o : Opened} {opened : List Opened} {name : String} {stub : ClassStub} :
    FirstDefines (o :: opened) name stub ↔ o.Defines name stub
      ∨ (∀ s, ¬ o.Defines name s) ∧ FirstDefines opened name stub := by
  constructor
  · rintro ⟨before, p, after, hsplit, hdefines, hfirst⟩
    cases before with
    | nil =>
      cases hsplit
      exact .inl hdefines
    | cons other before =>
      cases hsplit
      rw [List.forall_mem_cons] at hfirst
      exact .inr ⟨hfirst.1, before, p, after, rfl, hdefines, hfirst.2⟩
  · rintro (hdefines | ⟨hnone, before, p, after, rfl, hdefines, hfirst⟩)
    · exact ⟨[], o, opened, rfl, hdefines, by simp⟩
    · exact ⟨o :: before, p, after, rfl, hdefines, List.forall_mem_cons.mpr ⟨hnone, hfirst⟩⟩

/-- The first entry in which a class is found is the first one that defines it. -/
theorem findSome?_iff_firstDefines {founds : List Found} {opened : List Opened} {name : String}
    (h : List.Forall₂ (fun (found : Found) (o : Opened) => ∀ stub,
      found.stubs.find? (·.binaryName = name) = some stub ↔ o.Defines name stub) founds opened)
    (stub : ClassStub) :
    founds.findSome? (fun found => found.stubs.find? (·.binaryName = name)) = some stub
      ↔ FirstDefines opened name stub := by
  induction h with
  | nil => simp [FirstDefines]
  | @cons found o founds opened hfound _ ih =>
    rw [List.findSome?_cons, firstDefines_cons, ← ih, ← hfound]
    cases hfind : found.stubs.find? (·.binaryName = name) with
    | none =>
      have hnone : ∀ s, ¬ o.Defines name s := by
        intro s hs
        rw [(hfound s).mpr hs] at hfind
        cases hfind
      simp [hnone]
    | some other =>
      have hsome : ¬ ∀ s, ¬ o.Defines name s := fun hnone => hnone other ((hfound other).mp hfind)
      simp [hsome]

theorem firstDefines_wellFormed {opened : List Opened} (hnumbered : ∀ o ∈ opened, o.IsNumbered)
    {name : String} {stub : ClassStub} : FirstDefines (opened.map Opened.wellFormed) name stub
      ↔ FirstDefines opened name stub := by
  induction opened with
  | nil => rfl
  | cons o opened ih =>
    rw [List.forall_mem_cons] at hnumbered
    rw [List.map_cons, firstDefines_cons, firstDefines_cons, ih hnumbered.2]
    simp only [Opened.defines_wellFormed hnumbered.1]

/-- What the index of entries that can be read holds. -/
theorem build_spec {disk : Disk} {entries : List ClasspathEntry} {opened : List Opened}
    (h : List.Forall₂ (Opens disk) entries opened) (hnumbered : ∀ o ∈ opened, o.IsNumbered) :
    ∃ index, build disk entries = .ok index
      ∧ (∀ name stub, index.find? name = some stub ↔ FirstDefines opened name stub)
      ∧ index.malformed = malformedIn entries opened := by
  -- one thing is found for each entry
  obtain ⟨founds, hfounds, hmalformed, hstubs⟩ : ∃ founds,
      List.Forall₂ (fun entry found => findIn disk entry = .ok found) entries founds
        ∧ founds.flatMap (·.malformed)
          = malformedIn entries opened
        ∧ List.Forall₂ (fun (found : Found) (o : Opened) => ∀ name stub,
            found.stubs.find? (·.binaryName = name) = some stub ↔ o.Defines name stub)
          founds opened := by
    induction h with
    | nil => exact ⟨[], .nil, rfl, .nil⟩
    | @cons entry o entries opened hentry _ ih =>
      rw [List.forall_mem_cons] at hnumbered
      obtain ⟨founds, hfounds, hmalformed, hstubs⟩ := ih hnumbered.2
      obtain ⟨found, hfound, hbad, hdefines⟩ := findIn_spec hentry hnumbered.1
      exact ⟨found :: founds, .cons hfound hfounds, by simp [malformedIn, hbad, hmalformed],
        .cons hdefines hstubs⟩
  obtain ⟨hlisted, hfind⟩ := foldl_add_spec founds empty
  refine ⟨_, build_eq hfounds, fun name stub => ?_, by rw [hlisted, ← hmalformed]; rfl⟩
  have hempty : empty.find? name = none := by simp [find?, empty]
  rw [hfind, hempty, Option.none_or]
  exact findSome?_iff_firstDefines (hstubs.imp fun _ _ hdefines => hdefines name) stub

/-- **Which class a name means.** -/
theorem build_resolves {disk : Disk} {entries : List ClasspathEntry} {opened : List Opened}
    (h : List.Forall₂ (Opens disk) entries opened) (hnumbered : ∀ o ∈ opened, o.IsNumbered) :
    ∃ index, build disk entries = .ok index
      ∧ (∀ name stub, index.find? name = some stub ↔ FirstDefines opened name stub)
      ∧ index.malformed = malformedIn entries opened
      ∧ ∀ disk', List.Forall₂ (Opens disk') entries (opened.map Opened.wellFormed) →
          ∃ index', build disk' entries = .ok index' ∧ index'.malformed = []
            ∧ ∀ name, index'.find? name = index.find? name := by
  obtain ⟨index, hbuild, hfind, hmalformed⟩ := build_spec h hnumbered
  refine ⟨index, hbuild, hfind, hmalformed, fun disk' h' => ?_⟩
  have hnumbered' : ∀ o ∈ opened.map Opened.wellFormed, o.IsNumbered := by
    rw [List.forall_mem_map]
    exact fun o ho => (hnumbered o ho).wellFormed
  obtain ⟨index', hbuild', hfind', hmalformed'⟩ := build_spec h' hnumbered'
  refine ⟨index', hbuild', ?_, fun name => Option.ext fun stub => ?_⟩
  · rw [hmalformed', malformedIn, List.zip_map_right, List.flatMap_map]
    simp [Opened.malformed_wellFormed]
  · rw [hfind', hfind, firstDefines_wellFormed hnumbered]

/-! ## An archive with two versions of a class -/

/-- The class file of an interface with one method. -/
def classBytes (name method : String) : List UInt8 :=
  ({ ClassFile.Builder.interface name with
    methods := [.abstract method "()V" none] } : ClassFile.Builder).toBytes

/-- The stub of such an interface. -/
def stubWith (name method : String) : ClassStub where
  binaryName := name
  internalName := name
  access := 0x0601
  superName := some "java/lang/Object"
  interfaces := []
  signature := none
  methods := [⟨method, "()V", none, 0x0401⟩]

/-- The members of an archive in which all data can be read. -/
def readable (members : List (String × List UInt8)) : List Member :=
  members.map fun member => ⟨member.1, .intact member.2⟩

/-- An archive with `A` for release 9 and a later one. -/
def versionedMembers (later : String) : List (String × List UInt8) :=
  [("META-INF/versions/" ++ later ++ "/A.class", classBytes "A" "later"),
    ("META-INF/versions/9/A.class", classBytes "A" "nine"),
    ("META-INF/MANIFEST.MF", "Multi-Release: true".toUTF8.toList)]

def sampleFiles : List (String × Node) :=
  [("A.class", .file (.bytes (classBytes "A" "folder")))]

/-- An archive and a folder. -/
def sampleDisk (members : List (String × List UInt8)) (files : List (String × Node)) : Disk where
  root := .folder [("a.jar", .file (.bytes (Archive.archiveOf members))), ("lib", .folder files)]
  here := []

def sampleClasspath : List ClasspathEntry := [.archive "a.jar", .folder "lib"]

theorem opens_sample (members : List (String × List UInt8)) (files : List (String × Node))
    (h : Archive.Fits members) : List.Forall₂ (Opens (sampleDisk members files)) sampleClasspath
      [.archive (readable members), .folder (Node.walkEntries "lib" files)] := by
  have hread : ∀ m ∈ readable members, IsReadable (isMultiRelease (readable members)) m := by
    intro m hm
    obtain ⟨member, -, rfl⟩ := List.mem_map.mp hm
    exact ⟨rfl, fun _ => rfl⟩
  exact .cons (.archive rfl (Archive.members?_archiveOf h) hread) (.cons (.folder rfl) .nil)

/-- The class files that cannot be read beside the others. -/
def damagedMembers : List (String × List UInt8) := ("B.class", [0]) :: versionedMembers "11"

def damagedFiles : List (String × Node) := ("0.class", .file (.bytes [1])) :: sampleFiles

/-- What is found of the damaged entries. -/
def damagedOpened : List Opened :=
  [.archive (readable damagedMembers), .folder (Node.walkEntries "lib" damagedFiles)]

theorem wellFormed_damaged : damagedOpened.map Opened.wellFormed
    = [.archive (readable (versionedMembers "11")),
        .folder (Node.walkEntries "lib" sampleFiles)] := by
  have hmembers : (readable damagedMembers).filter
      (!isMalformedMember (isMultiRelease (readable damagedMembers)) ·)
        = readable (versionedMembers "11") := by
    decide +kernel
  have hfiles : (Node.walkEntries "lib" damagedFiles).filter (!isMalformedFile ·)
      = Node.walkEntries "lib" sampleFiles := by
    decide +kernel
  rw [damagedOpened, List.map_cons, List.map_singleton, Opened.wellFormed, Opened.wellFormed,
    hmembers, hfiles]

/-- The class for the latest release counts, with and without the damaged class files. -/
theorem damaged_resolves :
    List.Forall₂ (Opens (sampleDisk damagedMembers damagedFiles)) sampleClasspath damagedOpened
      ∧ (∀ o ∈ damagedOpened, o.IsNumbered)
      ∧ ∃ index index',
        build (sampleDisk damagedMembers damagedFiles) sampleClasspath = .ok index
        ∧ build (sampleDisk (versionedMembers "11") sampleFiles) sampleClasspath = .ok index'
        ∧ index.find? "A" = some (stubWith "A" "later")
        ∧ index'.find? "A" = some (stubWith "A" "later")
        ∧ index.malformed.map (·.location) = ["a.jar!/B.class", "lib/0.class"]
        ∧ index'.malformed = [] := by
  have hopens := opens_sample damagedMembers damagedFiles (by decide +kernel)
  have hopens' := opens_sample (versionedMembers "11") sampleFiles (by decide +kernel)
  have hnumbered : ∀ o ∈ damagedOpened, o.IsNumbered := by decide
  obtain ⟨index, hbuild, hfind, hmalformed, hothers⟩ := build_resolves hopens hnumbered
  obtain ⟨index', hbuild', hmalformed', hfind'⟩ := hothers _ (wellFormed_damaged ▸ hopens')
  have hlater : index.find? "A" = some (stubWith "A" "later") := by
    rw [hfind]
    refine firstDefines_cons.mpr (.inl (.archive ?_))
    exact (archiveDefines_iff (by decide +kernel)).mpr ⟨11, by decide +kernel⟩
  refine ⟨hopens, hnumbered, index, index', hbuild, hbuild', hlater, ?_, ?_, hmalformed'⟩
  · rw [hfind', hlater]
  · rw [hmalformed]
    decide +kernel

/-- A folder of versions with a number beyond all releases is passed over. -/
theorem beyond_releases : maxRelease < 4294967296
    ∧ isMultiRelease (readable (versionedMembers "4294967296")) = true
    ∧ stubOf? (classBytes "A" "later") = some (stubWith "A" "later")
    ∧ ∃ index, build (sampleDisk (versionedMembers "4294967296") sampleFiles) sampleClasspath
        = .ok index ∧ index.find? "A" = some (stubWith "A" "nine") := by
  have hopens := opens_sample (versionedMembers "4294967296") sampleFiles (by decide +kernel)
  obtain ⟨index, hbuild, hfind, -⟩ := build_spec hopens (by decide)
  refine ⟨by decide, by decide +kernel, by decide +kernel, index, hbuild, ?_⟩
  rw [hfind]
  refine firstDefines_cons.mpr (.inl (.archive ?_))
  exact (archiveDefines_iff (by decide +kernel)).mpr ⟨9, by decide +kernel⟩

end ClasspathIndex

end Conformance
