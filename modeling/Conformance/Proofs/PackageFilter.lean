import Conformance.Proofs.ClassLookup

/-!
# Which interfaces a filter of packages selects

A filter names a package, with dots behind the name and blanks around it
(`Package.filterName_eq_iff`). Names are compared character by character, with a dot where the
shorter one ends; that is the same as comparing them segment by segment, for all names, those
with empty segments too (`Package.isWithin_iff`).

Classes are listed in the order of their names, since the index keeps each under its own
(`ClasspathIndex.named_of_build`), so the interfaces of a filter are too, and none comes twice.
The interfaces of two filters together are those of the one and those of the other
(`ClasspathIndex.interfacesIn_exact`).
-/

namespace Conformance

/-! ## What is left of a text -/

namespace Text

section

variable {α : Type} {p : α → Bool}

theorem dropWhile_eq_iff {l rest : List α} : l.dropWhile p = rest
    ↔ (∃ dropped, l = dropped ++ rest ∧ ∀ a ∈ dropped, p a = true)
      ∧ ∀ a ∈ rest.head?, p a = false := by
  constructor
  · rintro rfl
    refine ⟨⟨l.takeWhile p, List.takeWhile_append_dropWhile.symm, ?_⟩, ?_⟩
    · exact fun a ha => List.mem_takeWhile_imp ha
    · intro a ha
      have := List.head?_dropWhile_not p l
      rwa [Option.mem_def.mp ha] at this
  · rintro ⟨⟨dropped, rfl, hdropped⟩, hrest⟩
    rw [List.dropWhile_append_of_pos hdropped]
    cases rest with
    | nil => rfl
    | cons a rest => rw [List.dropWhile_cons_of_neg (by simp [hrest a rfl])]

theorem dropEndWhile_eq_iff {l rest : List α} : dropEndWhile p l = rest
    ↔ (∃ dropped, l = rest ++ dropped ∧ ∀ a ∈ dropped, p a = true)
      ∧ ∀ a ∈ rest.getLast?, p a = false := by
  rw [dropEndWhile, List.reverse_eq_iff, dropWhile_eq_iff, List.head?_reverse]
  refine and_congr_left fun _ => ⟨?_, ?_⟩
  · rintro ⟨dropped, hl, hdropped⟩
    refine ⟨dropped.reverse, ?_, by simpa using hdropped⟩
    rw [List.reverse_eq_iff.mp hl, List.reverse_append, List.reverse_reverse]
  · rintro ⟨dropped, rfl, hdropped⟩
    exact ⟨dropped.reverse, List.reverse_append, by simpa using hdropped⟩

end

theorem trimChars_eq_iff {text core : List Char} : trimChars text = core
    ↔ (∃ before after, text = before ++ core ++ after ∧ ∀ c ∈ before ++ after, isBlank c = true)
      ∧ (∀ c ∈ core.head?, isBlank c = false) ∧ ∀ c ∈ core.getLast?, isBlank c = false := by
  constructor
  · intro h
    obtain ⟨⟨before, htext, hbefore⟩, hhead⟩ :=
      dropWhile_eq_iff.mp (Eq.refl (text.dropWhile isBlank))
    obtain ⟨⟨after, hmid, hafter⟩, hlast⟩ := dropEndWhile_eq_iff.mp h
    rw [hmid] at htext hhead
    refine ⟨⟨before, after, by rw [htext, List.append_assoc], ?_⟩, fun c hc => ?_, hlast⟩
    · exact List.forall_mem_append.mpr ⟨hbefore, hafter⟩
    · exact hhead c (by rw [List.head?_append, Option.mem_def.mp hc]; rfl)
  · rintro ⟨⟨before, after, rfl, hblank⟩, hhead, hlast⟩
    rw [trimChars]
    cases core with
    | nil =>
      have hnone : (before ++ [] ++ after).dropWhile isBlank = [] :=
        dropWhile_eq_iff.mpr ⟨⟨before ++ after, by simp, hblank⟩, by simp⟩
      rw [hnone]
      rfl
    | cons c core =>
      rw [List.forall_mem_append] at hblank
      have hfront : (before ++ c :: core ++ after).dropWhile isBlank = c :: core ++ after :=
        dropWhile_eq_iff.mpr ⟨⟨before, List.append_assoc .., hblank.1⟩, hhead⟩
      rw [hfront]
      exact dropEndWhile_eq_iff.mpr ⟨⟨after, rfl, hblank.2⟩, hlast⟩

end Text

namespace Package

/-! ## Names of packages -/

/-- A filter names a package, with dots behind the name and blanks around both. -/
def Names (filter : String) (name : List Char) : Prop :=
  ∃ before dots after, filter.toList = before ++ (name ++ dots) ++ after
    ∧ (∀ c ∈ before ++ after, Text.isBlank c = true)
    ∧ (∀ c ∈ (name ++ dots).head?, Text.isBlank c = false)
    ∧ (∀ c ∈ (name ++ dots).getLast?, Text.isBlank c = false)
    ∧ (∀ c ∈ dots, c = '.') ∧ ∀ c ∈ name.getLast?, c ≠ '.'

theorem filterName_eq_iff {filter : String} {name : List Char} :
    filterName filter = name ↔ Names filter name := by
  rw [filterName, Text.dropEndWhile_eq_iff]
  constructor
  · rintro ⟨⟨dots, hcore, hdots⟩, hlast⟩
    obtain ⟨⟨before, after, hfilter, hblank⟩, hends⟩ := Text.trimChars_eq_iff.mp hcore
    exact ⟨before, dots, after, hfilter, hblank, hends.1, hends.2, by simpa using hdots,
      by simpa using hlast⟩
  · rintro ⟨before, dots, after, hfilter, hblank, hhead, hlast, hdots, hname⟩
    refine ⟨⟨dots, ?_, by simpa using hdots⟩, by simpa using hname⟩
    exact Text.trimChars_eq_iff.mpr ⟨⟨before, after, hfilter, hblank⟩, hhead, hlast⟩

/-- The text of a package within another one: it is the same, or it goes on with a dot. -/
theorem isWithin_iff_append {name package : List Char} : isWithin name package = true
    ↔ package = name ∨ ∃ rest, package = name ++ '.' :: rest := by
  induction name generalizing package with
  | nil => cases package <;> simp [isWithin]
  | cons c name ih =>
    cases package with
    | nil => simp [isWithin]
    | cons d package =>
      rw [isWithin, Bool.and_eq_true, decide_eq_true_iff, ih]
      simp only [List.cons_append, List.cons.injEq, exists_and_left, ← and_or_left, eq_comm]

/-- A package is within another one exactly if it begins with all its segments. -/
theorem isWithin_iff {name package : List Char} : isWithin name package = true
    ↔ Text.splitOnChar '.' name <+: Text.splitOnChar '.' package := by
  rw [isWithin_iff_append, Text.splitOnChar_prefix_iff]

/-- The packages that a filter selects. -/
theorem isSelected_iff {package filter : String} : isSelected package filter = true
    ↔ ∃ name, Names filter name ∧ name ≠ []
      ∧ Text.splitOnChar '.' name <+: Text.splitOnChar '.' package.toList := by
  simp only [isSelected, ← filterName_eq_iff, Bool.and_eq_true, isWithin_iff, exists_eq_left',
    Bool.not_eq_true', List.isEmpty_eq_false_iff]

end Package

namespace ClasspathIndex

open Classpath

/-! ## The order of classes -/

/-- Each class of an index is kept under its own name. -/
def Named (index : ClasspathIndex) : Prop :=
  ∀ name stub, index.find? name = some stub → stub.binaryName = name

theorem named_empty : empty.Named := by
  intro name stub h
  simp [find?, empty] at h

theorem Named.add {index : ClasspathIndex} (h : index.Named) (found : Found) :
    (index.add found).Named := by
  intro name stub hfind
  rw [find?_add, Option.or_eq_some_iff] at hfind
  rcases hfind with hold | ⟨-, hnew⟩
  · exact h name stub hold
  · simpa using List.find?_some hnew

/-- What is built is named, since every entry adds classes under their names only. -/
theorem named_of_build {disk : Disk} {entries : List ClasspathEntry} {index : ClasspathIndex}
    (h : build disk entries = .ok index) : index.Named := by
  have hstart := named_empty
  unfold build at h
  generalize empty = start at h hstart
  induction entries generalizing start with
  | nil =>
    cases h
    exact hstart
  | cons entry entries ih =>
    rw [List.foldlM_cons] at h
    cases hfound : findIn disk entry with
    | error fault => rw [hfound] at h; cases h
    | ok found =>
      rw [hfound] at h
      exact ih _ h (hstart.add found)

/-- The classes of an index stand in the order of their names. -/
theorem Named.pairwise_stubs {index : ClasspathIndex} (h : index.Named) :
    index.stubs.Pairwise fun s t => s.binaryName < t.binaryName := by
  rw [stubs, values_eq_map_snd, List.pairwise_map]
  refine Std.ExtTreeMap.ordered_keys_toList.imp_of_mem fun {a b} ha hb hlt => ?_
  rw [Std.ExtTreeMap.mem_toList_iff_getElem?_eq_some] at ha hb
  rw [h a.1 a.2 ha, h b.1 b.2 hb]
  exact compare_lt_iff_lt.mp hlt

theorem mem_interfacesIn_iff {index : ClasspathIndex} {filters : List String} {stub : ClassStub} :
    stub ∈ index.interfacesIn filters ↔ (∃ name, index.find? name = some stub)
      ∧ (stub.isInterface = true ∧ stub.isAnnotationType = false)
      ∧ ∃ filter ∈ filters, Package.isSelected stub.package filter = true := by
  rw [interfacesIn, List.mem_filter, List.mem_filter, stubs, mem_values_iff, Bool.and_eq_true,
    Bool.not_eq_true', List.any_eq_true, and_assoc]
  rfl

/-- **The interfaces that filters select** are those whose package begins with all segments of the
name of a filter. They are listed by name and once each, and more filters only add to them. -/
theorem interfacesIn_exact (index : ClasspathIndex) (filters : List String) :
    (∀ stub, stub ∈ index.interfacesIn filters ↔ (∃ name, index.find? name = some stub)
      ∧ (stub.isInterface = true ∧ stub.isAnnotationType = false)
      ∧ ∃ filter ∈ filters, ∃ name, Package.Names filter name ∧ name ≠ []
        ∧ Text.splitOnChar '.' name <+: Text.splitOnChar '.' stub.package.toList)
    ∧ (∀ others stub, stub ∈ index.interfacesIn (filters ++ others)
        ↔ stub ∈ index.interfacesIn filters ∨ stub ∈ index.interfacesIn others)
    ∧ (index.Named →
        (index.interfacesIn filters).Pairwise fun s t => s.binaryName < t.binaryName)
    ∧ ∀ disk entries, build disk entries = .ok index → index.Named := by
  refine ⟨fun stub => ?_, fun others stub => ?_, fun hnamed => ?_, fun _ _ => named_of_build⟩
  · rw [mem_interfacesIn_iff]
    simp only [Package.isSelected_iff]
  · simp only [mem_interfacesIn_iff, List.mem_append, or_and_right, exists_or, and_or_left]
  · exact (hnamed.pairwise_stubs.filter _).filter _

/-- A folder with interfaces of three packages. -/
def packagesDisk : Disk where
  root := .folder [("lib", .folder
    (["com/examples/Other", "com/example/api/Api", "com/example/View"].map fun name =>
      (name ++ ".class", .file (.bytes (classBytes name "run")))))]
  here := []

/-- A filter with a dot and blanks around selects a package and what is below it, and no package
whose name only begins with the same characters. -/
theorem packagesDisk_selects : ∃ index,
    build packagesDisk [.folder "lib"] = .ok index
      ∧ index.Named
      ∧ (index.interfacesIn [" com.example. "]).map (·.binaryName)
        = ["com.example.View", "com.example.api.Api"]
      ∧ (index.interfacesIn [" com.example. "]).Pairwise fun s t => s.binaryName < t.binaryName := by
  have hselected : ((build packagesDisk [.folder "lib"]).map fun index =>
      (index.interfacesIn [" com.example. "]).map (·.binaryName))
        = .ok ["com.example.View", "com.example.api.Api"] := by
    decide +kernel
  cases hbuild : build packagesDisk [.folder "lib"] with
  | error fault =>
    rw [hbuild] at hselected
    cases hselected
  | ok index =>
    rw [hbuild] at hselected
    obtain ⟨-, -, hsorted, hbuilt⟩ := interfacesIn_exact index [" com.example. "]
    have hnamed := hbuilt packagesDisk [.folder "lib"] hbuild
    exact ⟨index, rfl, hnamed, Except.ok.inj hselected, hsorted hnamed⟩

end ClasspathIndex

end Conformance
