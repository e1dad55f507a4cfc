import Mathlib
import Conformance.Proofs.SourcePlaces

/-!
# Every source file accounted for

Two walks fill one set of source files. What is read is a list of paths, and after each of them
the set accounts for it (`SourceSet.Holds`): a text that follows the grammar is listed at the
place where the path leads, and another path is among the failures, or one with the same parts
is. So each step only asks what one more path brings (`Holds.add`).

The two kinds of outcome are told apart by different things. Files are told apart by their place,
so that a file which follows the grammar is listed once, however the two roots are written.
Failures are told apart by the parts of their paths, and a place may be spelled differently from
the two roots: such a file is listed once for each of its spellings (`load_accounts`), so twice
if one root is `.` and the other one `api` (`two_failures_of_one_file`).
-/

namespace Conformance

open Java Disk

variable {disk : Disk} {o : Options} {s : Snapshot} {path root : String} {place : List String}

/-- Positive numbers add up to how many they are only if each of them is one. -/
theorem sum_map_eq_length_iff {α : Type} {l : List α} {f : α → Nat} (hpos : ∀ a ∈ l, 0 < f a) :
    (l.map f).sum = l.length ↔ ∀ a ∈ l, f a = 1 := by
  induction l with
  | nil => simp
  | cons a l ih =>
    rw [List.forall_mem_cons] at hpos
    have hle : (l.map f).length ≤ (l.map f).sum := by
      refine List.length_le_sum_of_one_le _ fun n hn => ?_
      obtain ⟨b, hb, rfl⟩ := List.mem_map.mp hn
      exact hpos.2 b hb
    rw [List.length_map] at hle
    rw [List.map_cons, List.sum_cons, List.length_cons, List.forall_mem_cons, ← ih hpos.2]
    omega

/-! ## Texts that follow the grammar -/

/-- The file at a place has a text that follows the grammar. -/
def Disk.ParsesAt (disk : Disk) (place : List String) : Prop :=
  ∃ contents text, disk.root.find? place = some (.file contents) ∧ contents.text? = some text
    ∧ (SourceFile.parse? "" text).isSome

/-- Paths that lead to one place hold the same, so that both can be read or neither. -/
theorem Disk.isSome_fileAt?_congr {p q : String} (h : disk.resolve? p = disk.resolve? q) :
    (disk.fileAt? p).isSome = (disk.fileAt? q).isSome := by
  have htext : disk.textAt p = disk.textAt q := by
    rw [textAt, textAt, contents?, contents?, Disk.find?, Disk.find?, h]
  rw [fileAt?, fileAt?, htext, SourceFile.isSome_parse?_path p q]

theorem Disk.isSome_fileAt?_iff {contents : Contents} (h : disk.resolve? path = some place)
    (hfile : disk.root.find? place = some (.file contents)) (htext : contents.text?.isSome) :
    (disk.fileAt? path).isSome = true ↔ disk.ParsesAt place := by
  obtain ⟨text, htext⟩ := Option.isSome_iff_exists.mp htext
  have hheld : disk.textAt path = text := by
    rw [textAt, contents?_of_resolve h, hfile, Option.bind_some, Node.contents?, Option.bind_some,
      htext, Option.getD_some]
  rw [fileAt?, hheld, SourceFile.isSome_parse?_path path ""]
  constructor
  · exact fun hsome => ⟨contents, text, hfile, htext, hsome⟩
  · rintro ⟨contents', text', hfile', htext', hsome⟩
    cases hfile.symm.trans hfile'
    cases htext.symm.trans htext'
    exact hsome

/-- Where the source files among some files can be read, all of them are texts. -/
theorem Disk.isSome_text_of_readSources {files : List (String × Contents)}
    {texts : List SourceText} (h : readSources files = .ok texts) :
    ∀ e ∈ files, isSource e.1 = true → e.2.text?.isSome := by
  induction files generalizing texts with
  | nil => simp
  | cons e files ih =>
    obtain ⟨path, contents⟩ := e
    rw [readSources] at h
    rw [List.forall_mem_cons]
    split at h
    · split at h
      · cases h
      · next text htext =>
        cases hrest : readSources files with
        | error fault => simp [hrest, bind, Except.bind] at h
        | ok rest => exact ⟨fun _ => by simp [htext], ih hrest⟩
    · next hjava => exact ⟨fun hsource => absurd (of_decide_eq_true hsource) hjava, ih h⟩

/-! ## Reading some paths -/

namespace SourceSet

/-- What a set of source files holds after some paths were read. -/
structure Holds (disk : Disk) (read : List String) (set : SourceSet) : Prop where
  resolved : ∀ p ∈ read, (disk.resolve? p).isSome
  listed : Listed disk set.files
  files_read : ∀ e ∈ set.files, e.2.path ∈ read
  parsed : ∀ p ∈ read, (disk.fileAt? p).isSome → disk.placeOf p ∈ set.files.map Prod.fst
  failures_read : ∀ p ∈ set.failures, p ∈ read ∧ disk.fileAt? p = none
  unparsed : ∀ p ∈ read, disk.fileAt? p = none →
    Path.components p ∈ set.failures.map Path.components
  /-- Failures are told apart by their parts. -/
  apart : (set.failures.map Path.components).Nodup

variable {set : SourceSet} {read : List String}

theorem holds_empty (disk : Disk) : Holds disk [] {} :=
  ⟨by simp, listed_nil disk, by simp, by simp, by simp, by simp, List.nodup_nil⟩

theorem Listed.rereads (h : Listed disk set.files) : Rereads disk set set :=
  ⟨List.forall₂_same.mpr fun e he => ⟨rfl, h.holds e he⟩, rfl⟩

theorem Listed.add (h : Listed disk set.files) (hsource : isSource path = true) :
    Listed disk (set.add (disk.placeOf path) (disk.sourceAt path)).1.files :=
  ((Listed.rereads h).add h hsource rfl).1

/-- The positions of the files that some paths lead to. -/
def Leads (disk : Disk) (set : SourceSet) (positions : List Nat) (read : List String) : Prop :=
  positions.map (fun i => set.files[i]?.map Prod.fst)
    = (read.filter fun p => (disk.fileAt? p).isSome).map fun p => some (disk.placeOf p)

/-- A path that can be read leads to no other place than it did when its file was listed. -/
theorem Holds.isSome_of_listed (h : Holds disk read set) (hresolve : (disk.resolve? path).isSome)
    (hmem : disk.placeOf path ∈ set.files.map Prod.fst) : (disk.fileAt? path).isSome = true := by
  obtain ⟨e, he, heq⟩ := List.mem_map.mp hmem
  have hother := h.resolved _ (h.files_read e he)
  rw [h.listed.places e he, placeOf, placeOf] at heq
  obtain ⟨place, hplace⟩ := Option.isSome_iff_exists.mp hresolve
  obtain ⟨place', hplace'⟩ := Option.isSome_iff_exists.mp hother
  rw [hplace, hplace', Option.getD_some, Option.getD_some] at heq
  rw [isSome_fileAt?_congr (hplace.trans (heq ▸ hplace'.symm)), h.listed.holds e he]
  rfl

/-- A path that is accounted for already may be read. -/
theorem Holds.add_known (h : Holds disk read set) (hresolve : (disk.resolve? path).isSome)
    (hparsed : (disk.fileAt? path).isSome → disk.placeOf path ∈ set.files.map Prod.fst)
    (hunparsed : disk.fileAt? path = none →
      Path.components path ∈ set.failures.map Path.components) :
    Holds disk (read ++ [path]) set where
  resolved := List.forall_mem_append.mpr ⟨h.resolved, List.forall_mem_singleton.mpr hresolve⟩
  listed := h.listed
  files_read e he := List.mem_append_left _ (h.files_read e he)
  parsed := List.forall_mem_append.mpr ⟨h.parsed, List.forall_mem_singleton.mpr hparsed⟩
  failures_read p hp := ⟨List.mem_append_left _ (h.failures_read p hp).1, (h.failures_read p hp).2⟩
  unparsed := List.forall_mem_append.mpr ⟨h.unparsed, List.forall_mem_singleton.mpr hunparsed⟩
  apart := h.apart

/-- A new file accounts for its path. -/
theorem Holds.add_file (h : Holds disk read set) (hresolve : (disk.resolve? path).isSome)
    {f : SourceFile} (hf : disk.fileAt? path = some f)
    (hlisted : Listed disk (set.files ++ [(disk.placeOf path, f)])) :
    Holds disk (read ++ [path]) { set with files := set.files ++ [(disk.placeOf path, f)] } where
  resolved := List.forall_mem_append.mpr ⟨h.resolved, List.forall_mem_singleton.mpr hresolve⟩
  listed := hlisted
  files_read := by
    have hpath : f.path = path := SourceFile.path_of_parse? hf
    rw [List.forall_mem_append, List.forall_mem_singleton]
    exact ⟨fun e he => List.mem_append_left _ (h.files_read e he), by simp [hpath]⟩
  parsed := by
    rw [List.forall_mem_append, List.forall_mem_singleton, List.map_append]
    exact ⟨fun p hp hsome => List.mem_append_left _ (h.parsed p hp hsome), fun _ => by simp⟩
  failures_read p hp := ⟨List.mem_append_left _ (h.failures_read p hp).1, (h.failures_read p hp).2⟩
  unparsed := by
    rw [List.forall_mem_append, List.forall_mem_singleton]
    exact ⟨h.unparsed, fun hnone => by simp [hf] at hnone⟩
  apart := h.apart

/-- A new failure accounts for its path. -/
theorem Holds.add_failure (h : Holds disk read set) (hresolve : (disk.resolve? path).isSome)
    (hnone : disk.fileAt? path = none)
    (hnew : Path.components path ∉ set.failures.map Path.components) :
    Holds disk (read ++ [path]) { set with failures := set.failures ++ [path] } where
  resolved := List.forall_mem_append.mpr ⟨h.resolved, List.forall_mem_singleton.mpr hresolve⟩
  listed := h.listed
  files_read e he := List.mem_append_left _ (h.files_read e he)
  parsed := by
    rw [List.forall_mem_append, List.forall_mem_singleton]
    exact ⟨h.parsed, fun hsome => by simp [hnone] at hsome⟩
  failures_read := by
    rw [List.forall_mem_append, List.forall_mem_singleton]
    exact ⟨fun p hp => ⟨List.mem_append_left _ (h.failures_read p hp).1, (h.failures_read p hp).2⟩,
      by simp, hnone⟩
  unparsed := by
    rw [List.forall_mem_append, List.forall_mem_singleton, List.map_append]
    exact ⟨fun p hp hnone => List.mem_append_left _ (h.unparsed p hp hnone), by simp⟩
  apart := by
    rw [List.map_append, List.map_singleton, ← List.concat_eq_append]
    exact h.apart.concat hnew

/-- One more path is accounted for: its file is listed already or becomes the last one, or the
path becomes a failure unless one with the same parts is there. -/
theorem Holds.add (h : Holds disk read set) (hsource : isSource path = true)
    (hresolve : (disk.resolve? path).isSome) {added : SourceSet} {position : Option Nat}
    (hadd : set.add (disk.placeOf path) (disk.sourceAt path) = (added, position)) :
    Holds disk (read ++ [path]) added ∧ set.files <+: added.files
      ∧ Leads disk added position.toList [path] := by
  have hlisted : Listed disk added.files := by
    have := Listed.add h.listed hsource
    rwa [hadd] at this
  unfold SourceSet.add at hadd
  split at hadd
  · next i hi =>
    cases hadd
    rw [position?, List.findIdx?_eq_some_iff_getElem] at hi
    obtain ⟨hlt, hplace, -⟩ := hi
    have hplace : set.files[i].1 = disk.placeOf path := of_decide_eq_true hplace
    have hmem : disk.placeOf path ∈ set.files.map Prod.fst :=
      List.mem_map.mpr ⟨_, List.getElem_mem hlt, hplace⟩
    have hparses := h.isSome_of_listed hresolve hmem
    exact ⟨h.add_known hresolve (fun _ => hmem) fun hnone => by simp [hnone] at hparses,
      List.prefix_rfl, by simp [Leads, hparses, hlt, hplace]⟩
  · unfold sourceAt SourceText.ofText at hadd
    cases hf : SourceFile.parse? path (disk.textAt path) with
    | some f =>
      have hparses : disk.fileAt? path = some f := hf
      rw [hf] at hadd
      cases hadd
      exact ⟨h.add_file hresolve hparses hlisted, List.prefix_append .., by simp [Leads, hparses]⟩
    | none =>
      have hparses : disk.fileAt? path = none := hf
      have hany : set.failures.any (Path.same path) = true
          ↔ Path.components path ∈ set.failures.map Path.components := by
        rw [List.any_eq_true, List.mem_map]
        exact exists_congr fun q => and_congr_right fun _ => decide_eq_true_iff.trans eq_comm
      rw [hf] at hadd
      dsimp only at hadd
      split at hadd
      · next hknown =>
        cases hadd
        exact ⟨h.add_known hresolve (fun hsome => by simp [hparses] at hsome)
          fun _ => hany.mp hknown, List.prefix_rfl, by simp [Leads, hparses]⟩
      · next hnew =>
        cases hadd
        exact ⟨h.add_failure hresolve hparses fun hmem => hnew (hany.mpr hmem), List.prefix_rfl,
          by simp [Leads, hparses]⟩

theorem Leads.mono {set' : SourceSet} {positions : List Nat} (h : Leads disk set positions read)
    (hfiles : set.files <+: set'.files) : Leads disk set' positions read := by
  rw [Leads, ← h]
  refine List.map_congr_left fun i hi => ?_
  have hsome : (set.files[i]?.map Prod.fst) ∈ positions.map fun i => set.files[i]?.map Prod.fst :=
    List.mem_map.mpr ⟨i, hi, rfl⟩
  rw [h] at hsome
  obtain ⟨p, -, hp⟩ := List.mem_map.mp hsome
  cases hi : set.files[i]? with
  | none => simp [hi] at hp
  | some e =>
    obtain ⟨rest, hrest⟩ := hfiles
    have hlt : i < set.files.length := (List.getElem?_eq_some_iff.mp hi).1
    rw [← hrest, List.getElem?_append_left hlt, hi]

/-- All paths are accounted for after they were read one after the other. -/
theorem Holds.addAll (h : Holds disk read set) {paths : List String}
    (hsource : ∀ p ∈ paths, isSource p = true) (hresolve : ∀ p ∈ paths, (disk.resolve? p).isSome)
    {added : SourceSet} {positions : List Nat}
    (hadd : SourceSet.addAll disk (paths.map disk.sourceAt) set = (added, positions)) :
    Holds disk (read ++ paths) added ∧ set.files <+: added.files
      ∧ Leads disk added positions paths := by
  induction paths generalizing read set added positions with
  | nil =>
    cases hadd
    exact ⟨by simpa using h, List.prefix_rfl, rfl⟩
  | cons path paths ih =>
    rw [List.forall_mem_cons] at hsource hresolve
    have hpath : (disk.sourceAt path).path = path := by
      unfold sourceAt SourceText.ofText
      split
      · next f hf => exact SourceFile.path_of_parse? hf
      · rfl
    rw [List.map_cons, SourceSet.addAll, hpath] at hadd
    obtain ⟨next, position, hnext⟩ :
        ∃ next position, set.add (disk.placeOf path) (disk.sourceAt path) = (next, position) :=
      ⟨_, _, rfl⟩
    obtain ⟨last, others, hlast⟩ : ∃ last others,
        SourceSet.addAll disk (paths.map disk.sourceAt) next = (last, others) := ⟨_, _, rfl⟩
    have hplace : (disk.resolve? path).getD (Path.components path) = disk.placeOf path := rfl
    rw [hplace, hnext] at hadd
    dsimp only at hadd
    rw [hlast] at hadd
    cases hadd
    obtain ⟨hstep, hfiles, hfirst⟩ := h.add hsource.1 hresolve.1 hnext
    obtain ⟨hrun, hfiles', hrest⟩ := ih hstep hsource.2 hresolve.2 hlast
    refine ⟨by simpa using hrun, hfiles.trans hfiles', ?_⟩
    rw [Leads, List.map_append, hfirst.mono hfiles', hrest, ← List.map_append,
      ← List.filter_append, List.singleton_append]

/-- A listed file is at the place where its path leads. -/
theorem Holds.resolve_listed (h : Holds disk read set) {e : List String × SourceFile}
    (he : e ∈ set.files) : disk.resolve? e.2.path = some e.1 := by
  obtain ⟨place, hplace⟩ := Option.isSome_iff_exists.mp (h.resolved _ (h.files_read e he))
  rw [h.listed.places e he, placeOf, hplace, Option.getD_some]

/-- No position is met twice where no place is. -/
theorem Leads.nodup {positions : List Nat} {paths : List String}
    (h : Leads disk set positions paths) (hresolve : ∀ p ∈ paths, (disk.resolve? p).isSome)
    (hpaths : (paths.map disk.resolve?).Nodup) : positions.Nodup := by
  have hplaces : ∀ p ∈ paths.filter fun p => (disk.fileAt? p).isSome,
      some (disk.placeOf p) = disk.resolve? p := by
    intro p hp
    obtain ⟨place, hplace⟩ := Option.isSome_iff_exists.mp (hresolve p (List.mem_of_mem_filter hp))
    rw [placeOf, hplace, Option.getD_some]
  refine List.Nodup.of_map (fun i => set.files[i]?.map Prod.fst) ?_
  rw [h, List.map_congr_left hplaces]
  exact hpaths.sublist (List.filter_sublist.map _)

/-- The positions are those of the listed files that the paths lead to. -/
theorem Leads.mem_iff {positions : List Nat} {paths : List String}
    (h : Leads disk set positions paths) (hset : Holds disk read set)
    (hread : ∀ p ∈ paths, p ∈ read) (i : Nat) :
    i ∈ positions ↔ ∃ e, set.files[i]? = some e ∧ ∃ p ∈ paths, disk.resolve? p = some e.1 := by
  constructor
  · intro hi
    have hsome : (set.files[i]?.map Prod.fst) ∈ positions.map fun i => set.files[i]?.map Prod.fst :=
      List.mem_map.mpr ⟨i, hi, rfl⟩
    rw [h] at hsome
    obtain ⟨p, hp, heq⟩ := List.mem_map.mp hsome
    obtain ⟨e, he, hplace⟩ := Option.map_eq_some_iff.mp heq.symm
    have hp := List.mem_of_mem_filter hp
    obtain ⟨place, hresolve⟩ := Option.isSome_iff_exists.mp (hset.resolved p (hread p hp))
    rw [placeOf, hresolve, Option.getD_some] at hplace
    exact ⟨e, he, p, hp, hplace ▸ hresolve⟩
  · rintro ⟨e, he, p, hp, hresolve⟩
    have hmem := List.mem_of_getElem? he
    have hparses : (disk.fileAt? p).isSome = true := by
      rw [isSome_fileAt?_congr (hresolve.trans (hset.resolve_listed hmem).symm),
        hset.listed.holds e hmem]
      rfl
    have hsome : some (disk.placeOf p) ∈ positions.map fun i => set.files[i]?.map Prod.fst := by
      rw [h]
      exact List.mem_map.mpr ⟨p, List.mem_filter.mpr ⟨hp, hparses⟩, rfl⟩
    obtain ⟨j, hj, heq⟩ := List.mem_map.mp hsome
    obtain ⟨e', he', hplace⟩ := Option.map_eq_some_iff.mp heq
    -- there is one file at the place
    have hsame : (set.files.map Prod.fst)[j]? = (set.files.map Prod.fst)[i]? := by
      rw [List.getElem?_map, List.getElem?_map, he', he, Option.map_some, Option.map_some, hplace,
        placeOf, hresolve, Option.getD_some]
    have hlt : j < (set.files.map Prod.fst).length := by
      rw [List.length_map]
      exact (List.getElem?_eq_some_iff.mp he').1
    rw [← (List.getElem?_inj hlt hset.listed.distinct).mp hsame]
    exact hj

end SourceSet

/-! ## Spellings -/

/-- The roots of the source files. -/
def Options.roots (o : Options) : List String := o.scanDir :: o.interfacesDir.toList

/-- The ways in which walks from some roots spell a place: the parts of a root and the names on
the way from there, for each root that the place lies below. -/
def Disk.spellings (disk : Disk) (roots : List String) (place : List String) : List (List String) :=
  roots.filterMap fun root => (disk.resolve? root).bind fun base =>
    if base <+: place then some (Path.components root ++ place.drop base.length) else none

/-- A place with a source file below one of some roots. -/
def Disk.SourceBelow (disk : Disk) (roots : List String) (place : List String) : Prop :=
  disk.IsSourceFile place ∧ ∃ root ∈ roots, disk.Beneath root place

theorem Disk.mem_spellings {roots : List String} {parts : List String} :
    parts ∈ disk.spellings roots place ↔ ∃ root ∈ roots, ∃ base names,
      disk.resolve? root = some base ∧ place = base ++ names
        ∧ parts = Path.components root ++ names := by
  rw [spellings, List.mem_filterMap]
  refine exists_congr fun root => and_congr_right fun _ => ?_
  rw [Option.bind_eq_some_iff]
  refine exists_congr fun base => ?_
  constructor
  · rintro ⟨hbase, h⟩
    split at h
    · next hle =>
      obtain ⟨names, rfl⟩ := hle
      rw [List.drop_left, Option.some.injEq] at h
      exact ⟨names, hbase, rfl, h.symm⟩
    · cases h
  · rintro ⟨names, hbase, rfl, rfl⟩
    exact ⟨hbase, by rw [if_pos (List.prefix_append ..), List.drop_left]⟩

/-- The source paths below some roots spell the places of the source files there, in all ways. -/
theorem Disk.mem_spellings_iff (hproper : disk.Proper) {roots : List String}
    {parts : List String} (hsource : disk.IsSourceFile place) :
    parts ∈ disk.spellings roots place ↔ ∃ root ∈ roots, ∃ path ∈ disk.sourcePaths root,
      disk.resolve? path = some place ∧ Path.components path = parts := by
  rw [mem_spellings]
  refine exists_congr fun root => and_congr_right fun _ => ?_
  constructor
  · rintro ⟨base, names, hbase, rfl, rfl⟩
    obtain ⟨path, hpath, hresolve⟩ := (exists_mem_sourcePaths hproper).mpr
      ⟨⟨base, hbase, List.prefix_append base names⟩, hsource⟩
    obtain ⟨base', names', hbase', hresolve', -, hcomponents⟩ := mem_sourcePaths_spec hproper hpath
    cases hbase.symm.trans hbase'
    rw [hresolve, Option.some.injEq, List.append_cancel_left_eq] at hresolve'
    exact ⟨path, hpath, hresolve, hresolve' ▸ hcomponents⟩
  · rintro ⟨path, hpath, hresolve, rfl⟩
    obtain ⟨base, names, hbase, hresolve', -, hcomponents⟩ := mem_sourcePaths_spec hproper hpath
    exact ⟨base, names, hbase, Option.some.inj (hresolve.symm.trans hresolve'), hcomponents⟩

/-! ## Snapshots -/

namespace Snapshot

/-- The files of a snapshot are the source files below its roots that follow the grammar, each
of them once, with those below either root listed by position; and a source file that does not
follow the grammar is listed once for each way in which the roots spell it. -/
structure Accounts (disk : Disk) (o : Options) (s : Snapshot) : Prop where
  holds : ∀ f ∈ s.files, disk.fileAt? f.path = some f
  files_once : (s.files.map fun f => disk.resolve? f.path).Nodup
  files : ∀ found, found ∈ s.files.map (fun f => disk.resolve? f.path)
    ↔ ∃ place, found = some place ∧ disk.SourceBelow o.roots place ∧ disk.ParsesAt place
  failures : ∀ found, found ∈ s.failures.map disk.resolve?
    ↔ ∃ place, found = some place ∧ disk.SourceBelow o.roots place ∧ ¬ disk.ParsesAt place
  failures_count : ∀ place, disk.SourceBelow o.roots place → ¬ disk.ParsesAt place →
    (s.failures.map disk.resolve?).count (some place) = (disk.spellings o.roots place).dedup.length
  /-- The number of failures is the number of the files exactly if each has one spelling. -/
  failures_length : ∀ places : List (List String), places.Nodup →
    (∀ place, place ∈ places ↔ disk.SourceBelow o.roots place ∧ ¬ disk.ParsesAt place) →
    (s.failures.length = places.length
      ↔ ∀ place ∈ places, (disk.spellings o.roots place).dedup.length = 1)
  project_once : s.project.Nodup
  project : ∀ i, i ∈ s.project ↔ ∃ f place, s.files[i]? = some f
    ∧ disk.resolve? f.path = some place ∧ disk.Beneath o.scanDir place
  interfaces_once : s.interfaceSources.Nodup
  interfaces : ∀ i, i ∈ s.interfaceSources ↔ ∃ f place, s.files[i]? = some f
    ∧ disk.resolve? f.path = some place ∧ ∃ dir ∈ o.interfacesDir, disk.Beneath dir place

/-- Where there is a snapshot, all source files below its roots could be read as texts. -/
theorem sources_of_load (h : load disk o = .ok s) :
    ∀ root ∈ o.roots, ∃ texts, disk.sources root = .ok texts := by
  unfold load at h
  cases hbuild : ClasspathIndex.build disk o.classpath with
  | error fault => simp [hbuild, bind, Except.bind, Except.mapError] at h
  | ok index =>
    cases hscan : disk.sources o.scanDir with
    | error fault => simp [hbuild, hscan, bind, Except.bind, Except.mapError] at h
    | ok texts =>
      cases hdir : o.interfacesDir with
      | none => simp [Options.roots, hdir, hscan]
      | some dir =>
        cases hfound : disk.sources dir with
        | error fault => simp [hbuild, hscan, hdir, hfound, bind, Except.bind, Except.mapError] at h
        | ok found => simp [Options.roots, hdir, hscan, hfound]

/-- The paths that are read for a snapshot, in order. -/
def readPaths (disk : Disk) (o : Options) : List String :=
  disk.sourcePaths o.scanDir ++ interfacePaths disk o

theorem mem_interfacePaths :
    path ∈ interfacePaths disk o ↔ ∃ dir ∈ o.interfacesDir, path ∈ disk.sourcePaths dir := by
  unfold interfacePaths
  cases o.interfacesDir <;> simp

theorem mem_readPaths :
    path ∈ readPaths disk o ↔ ∃ root ∈ o.roots, path ∈ disk.sourcePaths root := by
  rw [readPaths, List.mem_append, mem_interfacePaths, Options.roots]
  simp

/-- A path that is read leads to a source file below one of the roots, and it can be read if and
only if the text there follows the grammar. -/
theorem readPaths_spec (hproper : disk.Proper) (h : load disk o = .ok s)
    (hpath : path ∈ readPaths disk o) : ∃ place, disk.resolve? path = some place
      ∧ disk.SourceBelow o.roots place
      ∧ ((disk.fileAt? path).isSome = true ↔ disk.ParsesAt place) := by
  obtain ⟨root, hroot, hpath⟩ := mem_readPaths.mp hpath
  obtain ⟨base, names, hbase, hresolve, hsource, -⟩ := mem_sourcePaths_spec hproper hpath
  refine ⟨base ++ names, hresolve, ⟨hsource, root, hroot, base, hbase, List.prefix_append ..⟩, ?_⟩
  obtain ⟨contents, hfile⟩ := hsource.file
  refine isSome_fileAt?_iff hresolve hfile ?_
  -- the path was met on a walk, with what it holds
  obtain ⟨texts, htexts⟩ := sources_of_load h root hroot
  rw [sourcePaths, List.mem_filter] at hpath
  unfold sources at htexts
  split at htexts
  · cases htexts
  · next files hwalk =>
    rw [hwalk, Option.getD_some] at hpath
    obtain ⟨e, he, rfl⟩ := List.mem_map.mp hpath.1
    have hheld := contents?_of_walk hproper hwalk e he
    rw [contents?_of_resolve hresolve, hfile] at hheld
    cases hheld
    exact isSome_text_of_readSources htexts e he hpath.2

/-- Every source file below a root is read under some path. -/
theorem exists_mem_readPaths (hproper : disk.Proper) (h : disk.SourceBelow o.roots place) :
    ∃ path ∈ readPaths disk o, disk.resolve? path = some place := by
  obtain ⟨hsource, root, hroot, hbeneath⟩ := h
  obtain ⟨path, hpath, hresolve⟩ := (exists_mem_sourcePaths hproper).mpr ⟨hbeneath, hsource⟩
  exact ⟨path, mem_readPaths.mpr ⟨root, hroot, hpath⟩, hresolve⟩

theorem resolve_readPaths (hproper : disk.Proper) :
    ∀ p ∈ readPaths disk o, isSource p = true ∧ (disk.resolve? p).isSome := by
  intro p hp
  obtain ⟨root, -, hp⟩ := mem_readPaths.mp hp
  obtain ⟨base, names, -, hresolve, -⟩ := mem_sourcePaths_spec hproper hp
  exact ⟨List.of_mem_filter hp, by rw [hresolve]; rfl⟩

/-- The source files that are collected account for all paths that are read. -/
theorem collected_holds (hproper : disk.Proper) (o : Options) :
    (collected disk o).1.Holds disk (readPaths disk o)
      ∧ (collected disk o).1.Leads disk (scanned disk o).2 (disk.sourcePaths o.scanDir)
      ∧ (collected disk o).1.Leads disk (collected disk o).2 (interfacePaths disk o) := by
  have hread := resolve_readPaths (o := o) hproper
  rw [readPaths, List.forall_mem_append] at hread
  obtain ⟨hscan, hfound⟩ := hread
  obtain ⟨hfirst, -, hproject⟩ := (SourceSet.holds_empty disk).addAll
    (fun p hp => (hscan p hp).1) (fun p hp => (hscan p hp).2) (rfl : _ = (scanned disk o))
  obtain ⟨hboth, hfiles, hinterfaces⟩ := hfirst.addAll
    (fun p hp => (hfound p hp).1) (fun p hp => (hfound p hp).2) (rfl : _ = (collected disk o))
  exact ⟨hboth, hproject.mono hfiles, hinterfaces⟩

/-- The failures that lead to a place have the parts of all its spellings. -/
theorem perm_spellings (hproper : disk.Proper) (hsource : disk.IsSourceFile place)
    (hnone : ∀ p ∈ readPaths disk o, disk.resolve? p = some place → disk.fileAt? p = none) :
    (((collected disk o).1.failures.filter (disk.resolve? · = some place)).map Path.components).Perm
      (disk.spellings o.roots place).dedup := by
  obtain ⟨hholds, -⟩ := collected_holds hproper o
  refine (List.perm_ext_iff_of_nodup
    (hholds.apart.sublist (List.filter_sublist.map _)) (List.nodup_dedup _)).mpr fun parts => ?_
  rw [List.mem_dedup, mem_spellings_iff hproper hsource]
  constructor
  · intro hparts
    obtain ⟨p, hp, rfl⟩ := List.mem_map.mp hparts
    rw [List.mem_filter, decide_eq_true_iff] at hp
    obtain ⟨root, hroot, hpath⟩ := mem_readPaths.mp (hholds.failures_read p hp.1).1
    exact ⟨root, hroot, p, hpath, hp.2, rfl⟩
  · rintro ⟨root, hroot, p, hp, hresolve, rfl⟩
    have hread := mem_readPaths.mpr ⟨root, hroot, hp⟩
    obtain ⟨q, hq, hsame⟩ := List.mem_map.mp (hholds.unparsed p hread (hnone p hread hresolve))
    refine List.mem_map.mpr ⟨q, List.mem_filter.mpr ⟨hq, decide_eq_true ?_⟩, hsame⟩
    obtain ⟨place', hplace'⟩ :=
      Option.isSome_iff_exists.mp (hholds.resolved q (hholds.failures_read q hq).1)
    rw [hplace', place_eq_of_same (decide_eq_true hsame) hplace' hresolve]

/-- The files of a snapshot are where their paths lead. -/
theorem places_of_load (hproper : disk.Proper) (h : load disk o = .ok s) :
    s.files.map (fun f => disk.resolve? f.path)
      = ((collected disk o).1.files.map Prod.fst).map some := by
  obtain ⟨-, hfiles, -⟩ := load_spec hproper h
  obtain ⟨hholds, -⟩ := collected_holds hproper o
  rw [hfiles, List.map_map, List.map_map]
  exact List.map_congr_left fun e he => hholds.resolve_listed he

/-- The files of a snapshot are the source files that follow the grammar. -/
theorem mem_files_iff (hproper : disk.Proper) (h : load disk o = .ok s)
    (found : Option (List String)) : found ∈ s.files.map (fun f => disk.resolve? f.path)
      ↔ ∃ place, found = some place ∧ disk.SourceBelow o.roots place ∧ disk.ParsesAt place := by
  obtain ⟨hholds, -⟩ := collected_holds hproper o
  rw [places_of_load hproper h, List.mem_map]
  constructor
  · rintro ⟨place, hplace, rfl⟩
    obtain ⟨e, he, rfl⟩ := List.mem_map.mp hplace
    obtain ⟨place, hresolve, hbelow, hparses⟩ :=
      readPaths_spec hproper h (hholds.files_read e he)
    rw [hholds.resolve_listed he, Option.some.injEq] at hresolve
    rw [hholds.listed.holds e he] at hparses
    exact ⟨e.1, rfl, hresolve ▸ hbelow, hresolve ▸ hparses.mp rfl⟩
  · rintro ⟨place, rfl, hbelow, hparses⟩
    obtain ⟨p, hp, hresolve⟩ := exists_mem_readPaths hproper hbelow
    obtain ⟨place', hresolve', -, hiff⟩ := readPaths_spec hproper h hp
    cases hresolve.symm.trans hresolve'
    have hmem := hholds.parsed p hp (hiff.mpr hparses)
    rw [placeOf, hresolve, Option.getD_some] at hmem
    exact ⟨place, hmem, rfl⟩

/-- A source file that does not follow the grammar is a failure for each way to spell it. -/
theorem count_failures (hproper : disk.Proper) (h : load disk o = .ok s)
    (hbelow : disk.SourceBelow o.roots place) (hparses : ¬ disk.ParsesAt place) :
    (s.failures.map disk.resolve?).count (some place)
      = (disk.spellings o.roots place).dedup.length := by
  obtain ⟨-, -, -, -, hfailures, -⟩ := load_spec hproper h
  have hnone : ∀ p ∈ readPaths disk o, disk.resolve? p = some place → disk.fileAt? p = none := by
    intro p hp hresolve
    obtain ⟨place', hresolve', -, hiff⟩ := readPaths_spec hproper h hp
    cases hresolve.symm.trans hresolve'
    rw [← Option.not_isSome_iff_eq_none, hiff]
    exact hparses
  rw [← (perm_spellings hproper hbelow.1 hnone).length_eq, List.length_map, hfailures,
    List.count, List.countP_map, List.countP_eq_length_filter]
  congr 2
  funext p
  exact Bool.eq_iff_iff.mpr (by simp)

/-- The failures of a snapshot are the source files that do not follow the grammar. -/
theorem mem_failures_iff (hproper : disk.Proper) (h : load disk o = .ok s)
    (found : Option (List String)) : found ∈ s.failures.map disk.resolve?
      ↔ ∃ place, found = some place ∧ disk.SourceBelow o.roots place ∧ ¬ disk.ParsesAt place := by
  obtain ⟨-, -, -, -, hfailures, -⟩ := load_spec hproper h
  obtain ⟨hholds, -⟩ := collected_holds hproper o
  constructor
  · intro hfound
    obtain ⟨p, hp, rfl⟩ := List.mem_map.mp hfound
    obtain ⟨hread, hnone⟩ := hholds.failures_read p (hfailures ▸ hp)
    obtain ⟨place, hresolve, hbelow, hiff⟩ := readPaths_spec hproper h hread
    exact ⟨place, hresolve, hbelow, fun hparses => by simp [hnone] at hiff; exact hiff hparses⟩
  · rintro ⟨place, rfl, hbelow, hparses⟩
    obtain ⟨p, hp, hresolve⟩ := exists_mem_readPaths hproper hbelow
    obtain ⟨root, hroot, hp⟩ := mem_readPaths.mp hp
    have hspelling := (mem_spellings_iff hproper hbelow.1).mpr ⟨root, hroot, p, hp, hresolve, rfl⟩
    rw [← List.count_pos_iff, count_failures hproper h hbelow hparses]
    exact List.length_pos_of_mem (List.mem_dedup.mpr hspelling)

/-- There are as many failures as files that do not follow the grammar if and only if each of
these is listed once. -/
theorem length_failures_iff (hproper : disk.Proper) (h : load disk o = .ok s)
    {places : List (List String)} (hnodup : places.Nodup)
    (hplaces : ∀ place, place ∈ places ↔ disk.SourceBelow o.roots place ∧ ¬ disk.ParsesAt place) :
    s.failures.length = places.length
      ↔ ∀ place ∈ places, (disk.spellings o.roots place).dedup.length = 1 := by
  have hperm : (places.map some).Perm (s.failures.map disk.resolve?).dedup := by
    refine (List.perm_ext_iff_of_nodup (hnodup.map fun _ _ => Option.some.inj)
      (List.nodup_dedup _)).mpr fun found => ?_
    rw [List.mem_dedup, mem_failures_iff hproper h, List.mem_map]
    exact exists_congr fun place => by rw [hplaces, and_comm, eq_comm]
  have hcount : ∀ place ∈ places, (s.failures.map disk.resolve?).count (some place)
      = (disk.spellings o.roots place).dedup.length := fun place hplace =>
    count_failures hproper h ((hplaces place).mp hplace).1 ((hplaces place).mp hplace).2
  have hpos : ∀ place ∈ places, 0 < (s.failures.map disk.resolve?).count (some place) := by
    intro place hplace
    rw [List.count_pos_iff, mem_failures_iff hproper h]
    exact ⟨place, rfl, (hplaces place).mp hplace⟩
  -- the failures, one place after the other
  have hlength : (places.map fun place => (s.failures.map disk.resolve?).count (some place)).sum
      = s.failures.length := by
    rw [← List.length_map disk.resolve?, ← List.sum_map_count_dedup_eq_length,
      ← (hperm.map _).sum_eq, List.map_map]
    refine congrArg List.sum (List.map_congr_left fun place _ => ?_)
    exact List.countP_congr fun found _ => by simp
  rw [← hlength, sum_map_eq_length_iff hpos]
  exact forall₂_congr fun place hplace => by rw [hcount place hplace]

/-- Positions that some paths lead to are those of the files below the roots of these paths. -/
theorem mem_positions_iff (hproper : disk.Proper) (h : load disk o = .ok s)
    {positions : List Nat} {paths : List String} (roots : List String)
    (hleads : (collected disk o).1.Leads disk positions paths)
    (hpaths : ∀ p, p ∈ paths ↔ ∃ root ∈ roots, p ∈ disk.sourcePaths root)
    (hroots : ∀ root ∈ roots, root ∈ o.roots) (i : Nat) :
    i ∈ positions ↔ ∃ f place, s.files[i]? = some f ∧ disk.resolve? f.path = some place
      ∧ ∃ root ∈ roots, disk.Beneath root place := by
  obtain ⟨-, hfiles, -⟩ := load_spec hproper h
  obtain ⟨hholds, -⟩ := collected_holds hproper o
  have hread : ∀ p ∈ paths, p ∈ readPaths disk o := by
    intro p hp
    obtain ⟨root, hroot, hp⟩ := (hpaths p).mp hp
    exact mem_readPaths.mpr ⟨root, hroots root hroot, hp⟩
  rw [hleads.mem_iff hholds hread, hfiles]
  constructor
  · rintro ⟨e, he, p, hp, hresolve⟩
    obtain ⟨root, hroot, hp⟩ := (hpaths p).mp hp
    exact ⟨e.2, e.1, by rw [List.getElem?_map, he, Option.map_some],
      hholds.resolve_listed (List.mem_of_getElem? he), root, hroot,
      ((exists_mem_sourcePaths hproper).mp ⟨p, hp, hresolve⟩).1⟩
  · rintro ⟨f, place, hf, hplace, root, hroot, hbeneath⟩
    rw [List.getElem?_map, Option.map_eq_some_iff] at hf
    obtain ⟨e, he, rfl⟩ := hf
    have hmem := List.mem_of_getElem? he
    cases hplace.symm.trans (hholds.resolve_listed hmem)
    -- it is a source file, so that a walk from any root above it meets it
    obtain ⟨place, hresolve, hbelow, -⟩ := readPaths_spec hproper h (hholds.files_read e hmem)
    cases hplace.symm.trans hresolve
    obtain ⟨p, hp, hresolve⟩ := (exists_mem_sourcePaths hproper).mpr ⟨hbeneath, hbelow.1⟩
    exact ⟨e, he, p, (hpaths p).mpr ⟨root, hroot, hp⟩, hresolve⟩

/-- **Every source file below the roots is accounted for.** -/
theorem load_accounts (hproper : disk.Proper) (h : load disk o = .ok s) : Accounts disk o s := by
  obtain ⟨-, hfiles, hproject, hinterfaces, -, -⟩ := load_spec hproper h
  obtain ⟨hholds, hscan, hfound⟩ := collected_holds hproper o
  have hresolve : ∀ p ∈ readPaths disk o, (disk.resolve? p).isSome :=
    fun p hp => (resolve_readPaths hproper p hp).2
  rw [readPaths, List.forall_mem_append] at hresolve
  refine {
    holds := ?_
    files_once := ?_
    files := mem_files_iff hproper h
    failures := mem_failures_iff hproper h
    failures_count := fun place => count_failures hproper h
    failures_length := fun places => length_failures_iff hproper h
    project_once := hproject ▸ hscan.nodup hresolve.1 (nodup_sourcePaths hproper _)
    project := fun i => ?_
    interfaces_once := hinterfaces ▸ hfound.nodup hresolve.2 ?_
    interfaces := fun i => ?_ }
  · rw [hfiles, List.forall_mem_map]
    exact hholds.listed.holds
  · rw [places_of_load hproper h]
    exact hholds.listed.distinct.map fun _ _ => Option.some.inj
  · rw [hproject, mem_positions_iff hproper h [o.scanDir] hscan (by simp) (by simp [Options.roots])]
    simp
  · unfold interfacePaths
    cases o.interfacesDir with
    | none => exact List.nodup_nil
    | some dir => exact nodup_sourcePaths hproper dir
  · rw [hinterfaces, mem_positions_iff hproper h o.interfacesDir.toList hfound
      (by simp [mem_interfacePaths]) fun root hroot => List.mem_cons_of_mem _ hroot]
    simp

/-! ## A file with two spellings -/

/-- A disk with a file that does not follow the grammar. -/
def overlapDisk : Disk where
  root := .folder [
    ("api", .folder [
      ("Bad.java", .file (.text "class \x7b")), ("I.java", .file (.text "interface I{}"))]),
    ("src", .folder [("C.java", .file (.text "class C{}"))])]
  here := []

/-- The root of the interfaces lies below that of the project. -/
def overlapOptions : Options := { scanDir := ".", interfacesDir := some "api" }

theorem proper_overlap : overlapDisk.Proper := by
  have hname : ∀ name ∈ ["api", "src", "Bad.java", "I.java", "C.java"], Path.IsName name := by
    have hall : ∀ name ∈ ["api", "src", "Bad.java", "I.java", "C.java"],
        name ≠ "" ∧ '/' ∉ name.toList ∧ name ≠ "." ∧ name ≠ ".." := by decide
    intro name h
    obtain ⟨hnonempty, hslash, hdot, hup⟩ := hall name h
    exact ⟨hnonempty, hslash, hdot, hup⟩
  refine .folder (by simp [hname]) (by decide) ?_
  rw [List.forall_mem_cons, List.forall_mem_singleton]
  constructor
  · refine .folder (by simp [hname]) (by decide) ?_
    rw [List.forall_mem_cons, List.forall_mem_singleton]
    exact ⟨.file _, .file _⟩
  · refine .folder (by simp [hname]) (List.pairwise_singleton ..) ?_
    rw [List.forall_mem_singleton]
    exact .file _

theorem load_overlap : ∃ s, load overlapDisk overlapOptions = .ok s
    ∧ s.files.map (·.path) = ["./api/I.java", "./src/C.java"] ∧ s.project = [0, 1]
    ∧ s.interfaceSources = [0] ∧ s.failures = ["./api/Bad.java", "api/Bad.java"] := by
  have hload : (load overlapDisk overlapOptions).toOption.map
      (fun s => (s.files.map (·.path), s.project, s.interfaceSources, s.failures))
      = some (["./api/I.java", "./src/C.java"], [0, 1], [0],
          ["./api/Bad.java", "api/Bad.java"]) := by
    decide +kernel
  obtain ⟨s, hs, hfacts⟩ := Option.map_eq_some_iff.mp hload
  simp only [Prod.mk.injEq] at hfacts
  exact ⟨s, toOption_eq_some_iff.mp hs, hfacts⟩

/-- All files below overlapping roots are accounted for, one of them twice. -/
theorem overlap_accounts : overlapDisk.Proper ∧ ∃ s, load overlapDisk overlapOptions = .ok s
    ∧ Accounts overlapDisk overlapOptions s
    ∧ (overlapDisk.spellings overlapOptions.roots ["api", "Bad.java"]).dedup.length = 2 := by
  obtain ⟨s, hload, -⟩ := load_overlap
  exact ⟨proper_overlap, s, hload, load_accounts proper_overlap hload, by decide⟩

/-- One file with a text that does not follow the grammar makes two failures. -/
theorem two_failures_of_one_file : ∃ s, load overlapDisk overlapOptions = .ok s
    ∧ s.failures.map overlapDisk.resolve? = [some ["api", "Bad.java"], some ["api", "Bad.java"]]
    ∧ overlapDisk.SourceBelow overlapOptions.roots ["api", "Bad.java"] := by
  obtain ⟨s, hload, -, -, -, hfailures⟩ := load_overlap
  have hsource : overlapDisk.IsSourceFile ["api", "Bad.java"] :=
    ⟨⟨_, rfl⟩, "Bad.java", rfl, by decide⟩
  have hbeneath : overlapDisk.Beneath "." ["api", "Bad.java"] :=
    ⟨[], by decide, List.nil_prefix⟩
  exact ⟨s, hload, by rw [hfailures]; decide, hsource, ".",
    by simp [Options.roots, overlapOptions], hbeneath⟩

end Snapshot

end Conformance
