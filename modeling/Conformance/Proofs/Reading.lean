import Conformance.Project.Snapshot
import Conformance.Proofs.Aligned
import Conformance.Proofs.Disk

/-!
# What a snapshot reads

A snapshot is made from walks over the disk, so it depends on the paths that the walks meet and
on what these paths hold. On a disk of the same shape the same source files are found in the
same order, provided that the same texts can be read (`load_congr`), and the index of the
classpath is the same if nothing but source files holds something else (`build_congr`).

A file is listed under the first path that leads to it, and there is one file for each place
(`Listed`). So the file at a position is given by its path, on this disk and on the other.
-/

namespace Conformance

open Java

namespace Java.SourceFile

theorem path_of_parse? {path text : String} {f : SourceFile} (h : parse? path text = some f) :
    f.path = path := by
  simp only [parse?, Option.bind_eq_bind, Option.bind_eq_some_iff, Option.pure_def,
    Option.some.injEq] at h
  obtain ⟨tokens, -, trees, -, rfl⟩ := h
  rfl

theorem text_of_parse? {path text : String} {f : SourceFile} (h : parse? path text = some f) :
    f.text = text := by
  simp only [parse?, Option.bind_eq_bind, Option.bind_eq_some_iff, Option.pure_def,
    Option.some.injEq] at h
  obtain ⟨tokens, -, trees, -, rfl⟩ := h
  rfl

/-- The path of a file says nothing about whether its text can be read. -/
theorem isSome_parse?_path (path other text : String) :
    (parse? path text).isSome = (parse? other text).isSome := by
  simp only [parse?, Option.bind_eq_bind, Option.pure_def, Option.isSome_bind]
  rfl

end Java.SourceFile

namespace Disk

variable {disk disk' : Disk}

/-! ## Source files -/

/-- The text that a path holds. -/
def textAt (disk : Disk) (path : String) : String :=
  ((disk.contents? path).bind Contents.text?).getD ""

/-- The source file that a path holds. -/
def fileAt? (disk : Disk) (path : String) : Option SourceFile :=
  SourceFile.parse? path (disk.textAt path)

/-- What reading the text that a path holds comes to. -/
def sourceAt (disk : Disk) (path : String) : SourceText := .ofText path (disk.textAt path)

/-- Whether a path is that of a source file. -/
def isSource (path : String) : Bool := Path.extension? path = some "java"

/-- The paths of source files at or below a path. -/
def sourcePaths (disk : Disk) (path : String) : List String :=
  (((disk.walk? path).getD []).map Prod.fst).filter isSource

/-- Where a path leads, or else the path itself. -/
def placeOf (disk : Disk) (path : String) : List String :=
  (disk.resolve? path).getD (Path.components path)

theorem readSources_eq {files : List (String × Contents)} {texts : List SourceText}
    (h : readSources files = .ok texts) (hholds : ∀ e ∈ files, disk.contents? e.1 = some e.2) :
    texts = ((files.map Prod.fst).filter isSource).map disk.sourceAt := by
  induction files generalizing texts with
  | nil =>
    cases h
    rfl
  | cons e files ih =>
    obtain ⟨path, contents⟩ := e
    rw [List.forall_mem_cons] at hholds
    rw [readSources] at h
    rw [List.map_cons]
    by_cases hjava : Path.extension? path = some "java"
    · rw [if_pos hjava] at h
      rw [List.filter_cons_of_pos (by simp [isSource, hjava]), List.map_cons]
      split at h
      · cases h
      · next text htext =>
        cases hrest : readSources files with
        | error fault => simp [hrest, bind, Except.bind] at h
        | ok rest =>
          simp only [hrest, bind, Except.bind, pure, Except.pure, Except.ok.injEq] at h
          rw [← h, ih hrest hholds.2]
          have : disk.textAt path = text := by rw [textAt, hholds.1, Option.bind_some, htext]; rfl
          rw [sourceAt, this]
    · rw [if_neg hjava] at h
      rw [List.filter_cons_of_neg (by simp [isSource, hjava])]
      exact ih h hholds.2

/-- The source files below a path are given by their paths. -/
theorem sources_eq (hproper : disk.Proper) {path : String} {texts : List SourceText}
    (h : disk.sources path = .ok texts) :
    texts = (disk.sourcePaths path).map disk.sourceAt := by
  unfold sources at h
  split at h
  · cases h
  · next files hfiles =>
    rw [sourcePaths, hfiles]
    exact readSources_eq h (contents?_of_walk hproper hfiles)

theorem SameShape.sourcePaths_eq (h : SameShape disk disk') (path : String) :
    disk'.sourcePaths path = disk.sourcePaths path := by
  have hmap : ∀ files : Option (List (String × Contents)),
      (files.getD []).map Prod.fst = (files.map (List.map Prod.fst)).getD [] := by
    intro files
    cases files <;> rfl
  rw [sourcePaths, sourcePaths, hmap, hmap, h.paths]

theorem SameShape.placeOf_eq (h : SameShape disk disk') (path : String) :
    disk'.placeOf path = disk.placeOf path := by
  rw [placeOf, placeOf, h.resolve]

/-! ## Sets of source files -/

/-- The source files that are listed under some paths, each place once. -/
structure Listed (disk : Disk) (files : List (List String × SourceFile)) : Prop where
  places : ∀ e ∈ files, e.1 = disk.placeOf e.2.path
  holds : ∀ e ∈ files, disk.fileAt? e.2.path = some e.2
  source : ∀ e ∈ files, isSource e.2.path = true
  distinct : (files.map Prod.fst).Nodup

/-- A second set of source files has the same places and failures, and the files that another
disk has under the paths of the first. -/
structure Rereads (disk' : Disk) (set set' : SourceSet) : Prop where
  files : List.Forall₂ (fun e e' => e'.1 = e.1 ∧ disk'.fileAt? e.2.path = some e'.2)
    set.files set'.files
  failures : set'.failures = set.failures

theorem listed_nil (disk : Disk) : Listed disk [] :=
  ⟨by simp, by simp, by simp, List.nodup_nil⟩

theorem rereads_empty (disk' : Disk) : Rereads disk' {} {} := ⟨.nil, rfl⟩

theorem Rereads.position?_eq {set set' : SourceSet} (h : Rereads disk' set set')
    (place : List String) : set'.position? place = set.position? place := by
  have hmap : set'.files.map Prod.fst = set.files.map Prod.fst :=
    map_eq_of_forall₂ h.files fun _ _ he => he.1
  have hfind : ∀ files : List (List String × SourceFile),
      files.findIdx? (fun e => decide (e.1 = place))
        = (files.map Prod.fst).findIdx? fun other => decide (other = place) := by
    intro files
    rw [List.findIdx?_map]
    rfl
  rw [SourceSet.position?, SourceSet.position?, hfind, hfind, hmap]

/-- A text that can be read on both disks or on neither is added to both sets or to neither. -/
theorem Rereads.add {set set' : SourceSet} (hlisted : Listed disk set.files)
    (h : Rereads disk' set set') {path : String} (hsource : isSource path = true)
    (hread : (disk'.fileAt? path).isSome = (disk.fileAt? path).isSome) :
    Listed disk (set.add (disk.placeOf path) (disk.sourceAt path)).1.files
      ∧ Rereads disk' (set.add (disk.placeOf path) (disk.sourceAt path)).1
          (set'.add (disk.placeOf path) (disk'.sourceAt path)).1
      ∧ (set'.add (disk.placeOf path) (disk'.sourceAt path)).2
          = (set.add (disk.placeOf path) (disk.sourceAt path)).2 := by
  unfold SourceSet.add
  rw [h.position?_eq]
  split
  · exact ⟨hlisted, h, rfl⟩
  · next hnone =>
    -- the two disks agree on whether the text can be read
    unfold fileAt? at hread
    unfold sourceAt SourceText.ofText
    cases hf : SourceFile.parse? path (disk.textAt path) with
    | none =>
      rw [hf, Option.isSome_none, Option.isSome_eq_false_iff, Option.isNone_iff_eq_none] at hread
      rw [hread, h.failures]
      dsimp only
      split
      · exact ⟨hlisted, h, rfl⟩
      · exact ⟨hlisted, ⟨h.files, rfl⟩, rfl⟩
    | some f =>
      rw [hf, Option.isSome_some, Option.isSome_iff_exists] at hread
      obtain ⟨f', hf'⟩ := hread
      rw [hf']
      have hpath : f.path = path := SourceFile.path_of_parse? hf
      refine ⟨⟨?_, ?_, ?_, ?_⟩, ⟨?_, h.failures⟩, ?_⟩
      · simp only [List.forall_mem_append, List.forall_mem_singleton]
        exact ⟨hlisted.places, by rw [hpath]⟩
      · simp only [List.forall_mem_append, List.forall_mem_singleton]
        exact ⟨hlisted.holds, by rw [hpath]; exact hf⟩
      · simp only [List.forall_mem_append, List.forall_mem_singleton]
        exact ⟨hlisted.source, by rw [hpath]; exact hsource⟩
      · -- the place is new, or else the file there would have been found
        rw [List.map_append, List.map_singleton, List.nodup_append]
        refine ⟨hlisted.distinct, by simp, ?_⟩
        intro place hplace other hother
        rw [List.mem_singleton] at hother
        subst hother
        obtain ⟨e, he, rfl⟩ := List.mem_map.mp hplace
        have := List.findIdx?_eq_none_iff.mp hnone e he
        simpa using this
      · refine List.rel_append h.files (.cons ⟨rfl, ?_⟩ .nil)
        rw [hpath]
        exact hf'
      · rw [h.files.length_eq]

/-- Files that can be read on both disks or on neither make sets that correspond to each
other. -/
theorem Rereads.addAll (hshape : SameShape disk disk') (paths : List String) {set set' : SourceSet}
    (hlisted : Listed disk set.files) (h : Rereads disk' set set')
    (hsource : ∀ path ∈ paths, isSource path = true)
    (hread : ∀ path, (disk'.fileAt? path).isSome = (disk.fileAt? path).isSome) :
    Listed disk (SourceSet.addAll disk
        (paths.map disk.sourceAt) set).1.files
      ∧ Rereads disk'
          (SourceSet.addAll disk (paths.map disk.sourceAt) set).1
          (SourceSet.addAll disk' (paths.map disk'.sourceAt) set').1
      ∧ (SourceSet.addAll disk' (paths.map disk'.sourceAt) set').2
          = (SourceSet.addAll disk (paths.map disk.sourceAt) set).2 := by
  induction paths generalizing set set' with
  | nil => exact ⟨hlisted, h, rfl⟩
  | cons path paths ih =>
    rw [List.forall_mem_cons] at hsource
    have hpath : ∀ d : Disk, (d.sourceAt path).path = path := by
      intro d
      unfold sourceAt SourceText.ofText
      split
      · next f hf => exact SourceFile.path_of_parse? hf
      · rfl
    have hplace : (disk'.resolve? path).getD (Path.components path) = disk.placeOf path :=
      hshape.placeOf_eq path
    obtain ⟨hlisted, h, hposition⟩ := h.add hlisted hsource.1 (hread path)
    obtain ⟨hlisted, h, hpositions⟩ := ih hlisted h hsource.2
    rw [List.map_cons, List.map_cons, SourceSet.addAll, SourceSet.addAll]
    simp only [hpath, hplace]
    exact ⟨hlisted, h, by rw [hposition, hpositions]; rfl⟩

/-! ## The classpath -/

theorem find?_isSome (disk : Disk) (path : String) :
    (disk.find? path).isSome = (disk.resolve? path).isSome := by
  rw [Disk.find?]
  cases h : disk.resolve? path with
  | none => rfl
  | some place => exact (resolve?_eq_some.mp h).2.2

/-- Files under the same paths are the same files of a kind if those hold the same. -/
theorem filter_congr_of_holds {kind : String → Bool}
    (hholds : ∀ path, kind path = true → disk'.contents? path = disk.contents? path)
    {files files' : List (String × Contents)} (hfst : files'.map Prod.fst = files.map Prod.fst)
    (h : ∀ e ∈ files, disk.contents? e.1 = some e.2)
    (h' : ∀ e ∈ files', disk'.contents? e.1 = some e.2) :
    (files'.filter fun e => kind e.1) = files.filter fun e => kind e.1 := by
  induction files generalizing files' with
  | nil =>
    rw [List.map_nil, List.map_eq_nil_iff] at hfst
    rw [hfst]
  | cons e files ih =>
    cases files' with
    | nil => cases hfst
    | cons e' files' =>
      rw [List.map_cons, List.map_cons, List.cons.injEq] at hfst
      rw [List.forall_mem_cons] at h h'
      have hrest := ih hfst.2 h.2 h'.2
      by_cases hkind : kind e.1 = true
      · have he : e' = e := by
          have := hholds e.1 hkind
          rw [h.1, ← hfst.1, h'.1] at this
          exact Prod.ext hfst.1 (Option.some.inj this)
        rw [List.filter_cons, List.filter_cons, hrest, he]
      · rw [List.filter_cons, List.filter_cons, hfst.1, if_neg hkind, if_neg hkind, hrest]

/-- Walks over disks of the same shape meet the same files of a kind if these hold the same. -/
theorem filter_walk_congr (hproper : disk.Proper) (hproper' : disk'.Proper)
    (hshape : SameShape disk disk') (kind : String → Bool)
    (hholds : ∀ path, kind path = true → disk'.contents? path = disk.contents? path)
    (path : String) :
    (disk'.walk? path).map (List.filter fun e => kind e.1)
      = (disk.walk? path).map (List.filter fun e => kind e.1) := by
  have hpaths := hshape.paths path
  cases hwalk : disk.walk? path with
  | none => simpa [hwalk] using hpaths
  | some files =>
    rw [hwalk, Option.map_some, Option.map_eq_some_iff] at hpaths
    obtain ⟨files', hwalk', hfst⟩ := hpaths
    rw [hwalk', Option.map_some, Option.map_some, filter_congr_of_holds hholds hfst
      (contents?_of_walk hproper hwalk) (contents?_of_walk hproper' hwalk')]

/-- The index of a classpath does not change with the source files. -/
theorem build_congr (hproper : disk.Proper) (hproper' : disk'.Proper)
    (hshape : SameShape disk disk') {entries : List ClasspathEntry}
    (harchives : ∀ path, .archive path ∈ entries → isSource path = false)
    (hholds : ∀ path, isSource path = false → disk'.contents? path = disk.contents? path) :
    ClasspathIndex.build disk' entries = ClasspathIndex.build disk entries := by
  have hfind : ∀ entry ∈ entries, Classpath.findIn disk' entry = Classpath.findIn disk entry := by
    intro entry hentry
    cases entry with
    | folder path =>
      -- only class files count, and a class file is no source file
      have hin : ∀ d : Disk, Classpath.findIn d (.folder path)
          = .ok (((d.walk? path).map
              (List.filter fun e => decide (Path.extension? e.1 = some "class"))).elim {}
                Classpath.findInFolder) := by
        intro d
        unfold Classpath.findIn walk?
        dsimp only [ClasspathEntry.path]
        cases d.find? path <;> rfl
      have hclass : ∀ p, decide (Path.extension? p = some "class") = true →
          disk'.contents? p = disk.contents? p := by
        intro p hp
        rw [decide_eq_true_iff] at hp
        exact hholds p (by simp [isSource, hp])
      rw [hin, hin, filter_walk_congr hproper hproper' hshape _ hclass path]
    | archive path =>
      have hsame : disk'.contents? path = disk.contents? path :=
        hholds path (harchives path hentry)
      have hsome : (disk'.find? path).isSome = (disk.find? path).isSome := by
        rw [find?_isSome, find?_isSome, hshape.resolve]
      unfold Classpath.findIn
      dsimp only [ClasspathEntry.path]
      unfold contents? at hsame
      cases hf : disk.find? path with
      | none =>
        rw [hf, Option.isSome_none, Option.isSome_eq_false_iff, Option.isNone_iff_eq_none] at hsome
        rw [hsome]
      | some node =>
        rw [hf, Option.isSome_some, Option.isSome_iff_exists] at hsome
        obtain ⟨node', hf'⟩ := hsome
        rw [hf, hf', Option.bind_some, Option.bind_some] at hsame
        rw [hf']
        dsimp only
        rw [hsame]
  -- the entries are added to the same index one after the other
  unfold ClasspathIndex.build
  generalize ClasspathIndex.empty = index
  induction entries generalizing index with
  | nil => rfl
  | cons entry entries ih =>
    rw [List.forall_mem_cons] at hfind
    rw [List.foldlM_cons, List.foldlM_cons, hfind.1]
    congr 1
    funext next
    exact ih (fun path h => harchives path (List.mem_cons_of_mem _ h)) hfind.2 next

end Disk

/-! ## Snapshots -/

namespace Snapshot

variable {disk disk' : Disk} {o : Options} {s s' : Snapshot}

open Disk

/-- The paths of the source files with interfaces. -/
def interfacePaths (disk : Disk) (o : Options) : List String :=
  o.interfacesDir.elim [] disk.sourcePaths

/-- The source files of the project. -/
def scanned (disk : Disk) (o : Options) : SourceSet × List Nat :=
  SourceSet.addAll disk ((disk.sourcePaths o.scanDir).map disk.sourceAt) {}

/-- The source files of the project and those with interfaces. -/
def collected (disk : Disk) (o : Options) : SourceSet × List Nat :=
  SourceSet.addAll disk ((interfacePaths disk o).map disk.sourceAt) (scanned disk o).1

/-- What a snapshot is made of. -/
theorem load_spec (hproper : disk.Proper) (h : load disk o = .ok s) :
    ClasspathIndex.build disk o.classpath = .ok s.index
      ∧ s.files = (collected disk o).1.files.map (·.2)
      ∧ s.project = (scanned disk o).2 ∧ s.interfaceSources = (collected disk o).2
      ∧ s.failures = (collected disk o).1.failures ∧ s.store = storeOf s.index s.files := by
  unfold load at h
  cases hbuild : ClasspathIndex.build disk o.classpath with
  | error fault => simp [hbuild, bind, Except.bind, Except.mapError] at h
  | ok index =>
    cases hscan : disk.sources o.scanDir with
    | error fault => simp [hbuild, hscan, bind, Except.bind, Except.mapError] at h
    | ok texts =>
      have htexts := sources_eq hproper hscan
      cases hdir : o.interfacesDir with
      | none =>
        simp only [hbuild, hscan, hdir, bind, Except.bind, Except.mapError, pure, Except.pure,
          Except.ok.injEq] at h
        subst h
        simp [collected, scanned, interfacePaths, hdir, htexts, SourceSet.addAll]
      | some dir =>
        cases hfound : disk.sources dir with
        | error fault => simp [hbuild, hscan, hdir, hfound, bind, Except.bind, Except.mapError] at h
        | ok found =>
          have hfoundTexts := sources_eq hproper hfound
          simp only [hbuild, hscan, hdir, hfound, bind, Except.bind, Except.mapError, pure,
            Except.pure, Except.ok.injEq] at h
          subst h
          simp [collected, scanned, interfacePaths, hdir, htexts, hfoundTexts]

theorem collected_congr (hshape : SameShape disk disk')
    (hread : ∀ path, (disk'.fileAt? path).isSome = (disk.fileAt? path).isSome) (o : Options) :
    Listed disk (collected disk o).1.files
      ∧ Rereads disk' (collected disk o).1 (collected disk' o).1
      ∧ (scanned disk' o).2 = (scanned disk o).2
      ∧ (collected disk' o).2 = (collected disk o).2 := by
  have hsource : ∀ path, ∀ p ∈ disk.sourcePaths path, isSource p = true := by
    intro path p hp
    exact List.of_mem_filter hp
  have hinterfaces : interfacePaths disk' o = interfacePaths disk o := by
    unfold interfacePaths
    cases o.interfacesDir with
    | none => rfl
    | some dir => exact hshape.sourcePaths_eq dir
  obtain ⟨hlisted, hre, hpositions⟩ := Rereads.addAll hshape (disk.sourcePaths o.scanDir)
    (listed_nil disk) (rereads_empty disk') (hsource o.scanDir) hread
  obtain ⟨hlisted', hre', hpositions'⟩ := Rereads.addAll hshape (interfacePaths disk o)
    hlisted hre (by
      intro p hp
      unfold interfacePaths at hp
      cases hdir : o.interfacesDir with
      | none => simp [hdir] at hp
      | some dir => exact hsource dir p (by simpa [hdir] using hp)) hread
  unfold collected scanned
  rw [hshape.sourcePaths_eq, hinterfaces]
  exact ⟨hlisted', hre', hpositions, hpositions'⟩

/-- Each file of a snapshot is what is on the disk at its place, and no place has two. -/
theorem load_files (hproper : disk.Proper) (h : load disk o = .ok s) :
    (∀ f ∈ s.files, disk.fileAt? f.path = some f ∧ isSource f.path = true)
      ∧ (s.files.map fun f => disk.placeOf f.path).Nodup := by
  obtain ⟨-, hfiles, -⟩ := load_spec hproper h
  obtain ⟨hlisted, -⟩ := collected_congr (SameShape.refl disk) (fun _ => rfl) o
  rw [hfiles]
  constructor
  · rw [List.forall_mem_map]
    exact fun e he => ⟨hlisted.holds e he, hlisted.source e he⟩
  · rw [List.map_map]
    have hplaces : (collected disk o).1.files.map ((fun f => disk.placeOf f.path) ∘ fun e => e.2)
        = (collected disk o).1.files.map Prod.fst :=
      List.map_congr_left fun e he => (hlisted.places e he).symm
    rw [hplaces]
    exact hlisted.distinct

/-- **A snapshot of a disk of the same shape.** Where the same texts can be read and nothing but
source files holds something else, the second snapshot has the same index and the files that
are there now, in the same order. -/
theorem load_congr (hproper : disk.Proper) (hproper' : disk'.Proper)
    (hshape : SameShape disk disk')
    (hread : ∀ path, (disk'.fileAt? path).isSome = (disk.fileAt? path).isSome)
    (harchives : ∀ path, .archive path ∈ o.classpath → isSource path = false)
    (hholds : ∀ path, isSource path = false → disk'.contents? path = disk.contents? path)
    (h : load disk o = .ok s) (h' : load disk' o = .ok s') :
    s'.index = s.index ∧ s'.project = s.project ∧ s'.interfaceSources = s.interfaceSources
      ∧ List.Forall₂ (fun f f' => disk'.fileAt? f.path = some f') s.files s'.files := by
  obtain ⟨hindex, hfiles, hproject, hinterfaces, -⟩ := load_spec hproper h
  obtain ⟨hindex', hfiles', hproject', hinterfaces', -⟩ := load_spec hproper' h'
  obtain ⟨-, hre, hscanned, hcollected⟩ := collected_congr hshape hread o
  rw [build_congr hproper hproper' hshape harchives hholds, hindex] at hindex'
  refine ⟨(Except.ok.inj hindex').symm, ?_, ?_, ?_⟩
  · rw [hproject, hproject', hscanned]
  · rw [hinterfaces, hinterfaces', hcollected]
  · rw [hfiles, hfiles', List.forall₂_map_left_iff, List.forall₂_map_right_iff]
    exact hre.files.imp fun _ _ he => he.2

end Snapshot

end Conformance
