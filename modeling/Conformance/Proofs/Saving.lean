import Mathlib.Data.List.Nodup
import Conformance.Proofs.Reading

/-!
# What is read after files were saved

Saving overwrites the changed files and nothing else. If reading a saved file gives back what
it said, the interfaces added to it included, then the disk afterwards has the same shape, the
same texts can be read, and under the path of every file there is a file that says the same
(`save_spec`).

What a declaration says does not depend on where its list of interfaces ends in the text, nor
on which entries of the list were written when it was read (`Declaration.settled`).
-/

namespace Conformance

namespace Java

namespace Declaration

mutual

/-- What a declaration says: all interfaces that were added are declared, and the place for
further ones is left open. -/
def settled : Declaration → Declaration
  | { kind, name, typeParams, superclass, declared, added, methods, members, anchor := _ } =>
    { kind, name, typeParams, superclass, declared := declared ++ added, added := [], methods
      members := settledAll members, anchor := ⟨0, false⟩ }

/-- What each of some declarations says. -/
def settledAll : List Declaration → List Declaration
  | [] => []
  | d :: others => d.settled :: settledAll others

end

end Declaration

namespace SourceFile

/-- Two files at the same path say the same. -/
structure SaysSame (f g : SourceFile) : Prop where
  path : g.path = f.path
  package? : g.package? = f.package?
  imports : g.imports = f.imports
  types : g.types.map Declaration.settled = f.types.map Declaration.settled

theorem SaysSame.refl (f : SourceFile) : SaysSame f f := ⟨rfl, rfl, rfl, rfl⟩

/-- Reading the file after it is saved gives back its package, its imports and its
declarations, with the interfaces that were added at the end of their lists. -/
def Rereads (f : SourceFile) : Prop :=
  ∀ text, f.savedText = .ok text → ∃ g, parse? f.path text = some g ∧ f.SaysSame g

theorem path_withText (f : SourceFile) (text : String) : (f.withText text).path = f.path := by
  unfold withText
  cases h : parse? f.path text with
  | none => rfl
  | some g => exact path_of_parse? h

theorem text_withText (f : SourceFile) (text : String) : (f.withText text).text = text := by
  unfold withText
  cases h : parse? f.path text with
  | none => rfl
  | some g => exact text_of_parse? h

end SourceFile

/-- Saving that meets no fault writes the changed files, each with its additions. -/
theorem written_of_saveAll {files : List SourceFile} (h : (saveAll files).fault = none) :
    List.Forall₂ (fun f w => ∃ text, f.savedText = .ok text ∧ w.path = f.path ∧ w.text = text)
      (files.filter SourceFile.isModified) (saveAll files).written := by
  induction files with
  | nil => exact .nil
  | cons f files ih =>
    rw [saveAll] at h ⊢
    cases hsave : f.save with
    | error cause => simp [hsave] at h
    | ok saved =>
      simp only [hsave] at h ⊢
      have hrest := ih h
      by_cases hmod : f.isModified = true
      · rw [List.filter_cons_of_pos hmod, if_pos hmod]
        refine .cons ?_ hrest
        rw [SourceFile.save, if_pos hmod] at hsave
        cases htext : f.savedText with
        | error cause => simp [htext, bind, Except.bind] at hsave
        | ok text =>
          simp only [htext, bind, Except.bind, pure, Except.pure, Except.ok.injEq] at hsave
          subst hsave
          exact ⟨text, rfl, f.path_withText text, f.text_withText text⟩
      · rw [List.filter_cons_of_neg hmod, if_neg hmod]
        exact hrest

end Java

namespace Disk

open Java

variable {disk disk' : Disk}

theorem contents?_congr {p q : String} (h : disk.resolve? p = disk.resolve? q) :
    disk.contents? p = disk.contents? q := by
  rw [contents?, contents?, Disk.find?, Disk.find?, h]

/-- Paths to the same file are taken for the same kind of file. -/
theorem isSource_congr {p q : String} (h : disk.resolve? p = disk.resolve? q)
    (hheld : (disk.contents? q).isSome) : isSource p = isSource q := by
  have hname : Path.fileName? p = Path.fileName? q := by
    cases hq : disk.resolve? q with
    | none => simp [contents?, Disk.find?, hq] at hheld
    | some place =>
      rw [contents?_of_resolve hq] at hheld
      cases hnode : disk.root.find? place with
      | none => simp [hnode] at hheld
      | some node =>
        cases node with
        | folder entries => simp [hnode, Node.contents?] at hheld
        | file contents =>
          rw [fileName?_of_resolve (h.trans hq) hnode, fileName?_of_resolve hq hnode]
  rw [isSource, isSource, Path.extension?_congr hname]

/-- Paths to the same file have the same place. -/
theorem placeOf_congr {p q : String} (h : disk.resolve? p = disk.resolve? q)
    (hheld : (disk.contents? q).isSome) : disk.placeOf p = disk.placeOf q := by
  cases hq : disk.resolve? q with
  | none => simp [contents?, Disk.find?, hq] at hheld
  | some place =>
    rw [placeOf, placeOf, h, hq]
    rfl

/-- Writing files to different places leaves each of them where it was written, and everything
else as it was. -/
theorem writeSources_spec (hproper : disk.Proper) {files : List SourceFile}
    (hplaces : (files.map fun f => disk.placeOf f.path).Nodup)
    (h : disk.writeSources files = (disk', none)) :
    disk'.Proper ∧ SameShape disk disk' ∧ (∀ f ∈ files, (disk.contents? f.path).isSome)
      ∧ (∀ f ∈ files, ∀ path, disk.resolve? path = disk.resolve? f.path →
          disk'.contents? path = some (.text f.text))
      ∧ ∀ path, (∀ f ∈ files, disk.resolve? path ≠ disk.resolve? f.path) →
          disk'.contents? path = disk.contents? path := by
  induction files generalizing disk with
  | nil =>
    cases h
    exact ⟨hproper, .refl _, by simp, by simp, by simp⟩
  | cons f files ih =>
    rw [writeSources] at h
    split at h
    · cases h
    · next disk₁ hwrite =>
      obtain ⟨place, hplace, hheld, hproper₁, hshape₁, hcontents₁⟩ := write?_spec hproper hwrite
      rw [List.map_cons, List.nodup_cons] at hplaces
      have hplaces₁ : (files.map fun f => disk₁.placeOf f.path).Nodup := by
        simpa only [hshape₁.placeOf_eq] using hplaces.2
      obtain ⟨hproper', hshape', hheld', hwritten, hothers⟩ := ih hproper₁ hplaces₁ h
      simp only [hshape₁.resolve] at hwritten hothers
      have hdistinct : ∀ g ∈ files, disk.resolve? f.path ≠ disk.resolve? g.path := by
        intro g hg heq
        refine hplaces.1 (List.mem_map.mpr ⟨g, hg, ?_⟩)
        rw [placeOf, placeOf, ← heq, hplace]
        rfl
      refine ⟨hproper', hshape₁.trans hshape', ?_, ?_, ?_⟩
      · rw [List.forall_mem_cons]
        refine ⟨hheld, fun g hg => ?_⟩
        have := hheld' g hg
        rw [hcontents₁ g.path, if_neg (fun e => hdistinct g hg (hplace.trans e.symm))] at this
        exact this
      · rw [List.forall_mem_cons]
        refine ⟨fun path hpath => ?_, fun g hg path hpath => hwritten g hg path hpath⟩
        rw [hothers path fun g hg => hpath ▸ hdistinct g hg, hcontents₁ path,
          if_pos (hpath.trans hplace)]
      · intro path hpath
        rw [List.forall_mem_cons] at hpath
        rw [hothers path hpath.2, hcontents₁ path, if_neg (fun e => hpath.1 (e.trans hplace.symm))]

/-- A save without a fault has written all changed files. -/
theorem save_eq_ok {files : List SourceFile} {r : List SourceFile × Nat}
    (h : disk.save files = (disk', .ok r)) : (saveAll files).fault = none
      ∧ disk.writeSources (saveAll files).written = (disk', none) := by
  unfold save at h
  dsimp only at h
  split at h
  · cases h
  · cases h
  · next hwrite hfault =>
    cases h
    exact ⟨hfault, hwrite⟩

/-- **What is there after files were saved.** -/
theorem save_spec (hproper : disk.Proper) {files : List SourceFile}
    {r : List SourceFile × Nat} (hplaces : (files.map fun f => disk.placeOf f.path).Nodup)
    (hsource : ∀ f ∈ files, isSource f.path = true)
    (hread : ∀ f ∈ files, (disk.fileAt? f.path).isSome)
    (hsame : ∀ f ∈ files, f.isModified = false → disk.fileAt? f.path = some f)
    (hrereads : ∀ f ∈ files, f.isModified = true → f.Rereads)
    (h : disk.save files = (disk', .ok r)) :
    disk'.Proper ∧ SameShape disk disk'
      ∧ (∀ path, (disk'.fileAt? path).isSome = (disk.fileAt? path).isSome)
      ∧ (∀ path, isSource path = false → disk'.contents? path = disk.contents? path)
      ∧ ∀ f ∈ files, ∃ g, disk'.fileAt? f.path = some g ∧ f.SaysSame g := by
  obtain ⟨hfault, hwrite⟩ := save_eq_ok h
  have hwritten := written_of_saveAll hfault
  generalize (saveAll files).written = written at hwritten hwrite
  have hdistinct : (written.map fun w => disk.placeOf w.path).Nodup := by
    have hmap : written.map (fun w => disk.placeOf w.path)
        = (files.filter SourceFile.isModified).map fun f => disk.placeOf f.path :=
      map_eq_of_forall₂ hwritten fun _ _ ⟨_, _, hpath, _⟩ => by rw [hpath]
    rw [hmap]
    exact hplaces.sublist (List.filter_sublist.map _)
  obtain ⟨hproper', hshape, hheld, hnew, hold⟩ := writeSources_spec hproper hdistinct hwrite
  -- a written file is a changed one with its additions in the text
  have hfrom : ∀ w ∈ written, ∃ f ∈ files, f.isModified = true ∧ w.path = f.path
      ∧ ∃ g, SourceFile.parse? f.path w.text = some g ∧ f.SaysSame g := by
    intro w hw
    obtain ⟨f, hf, text, htext, hpath, rfl⟩ := exists_left_of_mem hwritten hw
    rw [List.mem_filter] at hf
    exact ⟨f, hf.1, hf.2, hpath, hrereads f hf.1 hf.2 _ htext⟩
  have htextAt : ∀ w ∈ written, ∀ path, disk.resolve? path = disk.resolve? w.path →
      disk'.textAt path = w.text := by
    intro w hw path hpath
    rw [textAt, hnew w hw path hpath]
    rfl
  have holdAt : ∀ path, (∀ w ∈ written, disk.resolve? path ≠ disk.resolve? w.path) →
      disk'.fileAt? path = disk.fileAt? path := by
    intro path hpath
    rw [fileAt?, fileAt?, textAt, textAt, hold path hpath]
  -- what can be read, what is no source file, and the files themselves
  refine ⟨hproper', hshape, fun path => ?_, fun path hpath => ?_, fun f hf => ?_⟩
  · by_cases hw : ∃ w ∈ written, disk.resolve? path = disk.resolve? w.path
    · obtain ⟨w, hw, hplace⟩ := hw
      obtain ⟨f, hf, -, hwf, g, hg, -⟩ := hfrom w hw
      have hbefore := hread f hf
      rw [fileAt?, SourceFile.isSome_parse?_path _ path] at hbefore
      rw [fileAt?, fileAt?, htextAt w hw path hplace, SourceFile.isSome_parse?_path path f.path, hg,
        textAt, contents?_congr hplace, hwf]
      exact hbefore.symm
    · rw [holdAt path fun w hw' e => hw ⟨w, hw', e⟩]
  · refine hold path fun w hw hplace => ?_
    obtain ⟨f, hf, -, hwf, -⟩ := hfrom w hw
    have := isSource_congr hplace (hheld w hw)
    rw [hpath, hwf, hsource f hf] at this
    cases this
  · by_cases hmod : f.isModified = true
    · obtain ⟨w, hw, text, htext, hpath, rfl⟩ :=
        exists_right_of_mem hwritten (List.mem_filter.mpr ⟨hf, hmod⟩)
      obtain ⟨g, hg, hsays⟩ := hrereads f hf hmod _ htext
      refine ⟨g, ?_, hsays⟩
      rw [fileAt?, htextAt w hw f.path (by rw [hpath])]
      exact hg
    · rw [Bool.not_eq_true] at hmod
      refine ⟨f, ?_, .refl f⟩
      rw [holdAt f.path, hsame f hf hmod]
      -- a changed file at the same place would be this one
      intro w hw hplace
      obtain ⟨f', hf', hmod', hpath, -⟩ := hfrom w hw
      have hplace' : disk.placeOf f.path = disk.placeOf f'.path := by
        rw [← hpath]
        exact placeOf_congr hplace (hheld w hw)
      have : f = f' := List.inj_on_of_nodup_map hplaces hf hf' hplace'
      rw [this, hmod'] at hmod
      cases hmod

end Disk

end Conformance
