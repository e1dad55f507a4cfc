import Conformance.Proofs.Anchors
import Conformance.Proofs.Saving

/-!
# Saving files that were only added to

After a file has been read, its declarations change in one way only: interfaces are appended to
their lists (`SourceFile.Edited`). The places for these are where they were when the file was
read, so saving inserts one text for each declaration that was added to, and all of them at
different places that increase (`SourceFile.Anchored.savedText`). Hence no save of such files fails
for its edits. What is read afterwards has nothing added to it, also where the text could not be
read any more, and a further save finds nothing to do (`Disk.save_of_edited`).
-/

namespace Conformance

open Java

namespace Java

namespace Declaration

mutual

/-- A declaration without what was added to it. -/
def asRead : Declaration → Declaration
  | { kind, name, typeParams, superclass, declared, added := _, methods, members, anchor } =>
    { kind, name, typeParams, superclass, declared, added := [], methods
      members := asReadAll members, anchor }

def asReadAll : List Declaration → List Declaration
  | [] => []
  | d :: others => d.asRead :: asReadAll others

end

theorem anchor_asRead (d : Declaration) : d.asRead.anchor = d.anchor := by
  cases d
  rw [asRead]

theorem asRead_addInterface (t : WrittenType) (d : Declaration) :
    (d.addInterface t).asRead = d.asRead := by
  cases d
  rw [addInterface, asRead, asRead]

theorem asRead_members {d : Declaration} {members : List Declaration}
    (h : asReadAll members = asReadAll d.members) :
    { d with members := members }.asRead = d.asRead := by
  cases d
  dsimp only at h
  simp only [asRead, h]

mutual

theorem preorder_asRead : (d : Declaration) → d.asRead.preorder = d.preorder.map asRead
  | ⟨_, _, _, _, _, _, _, members, _⟩ => by
    rw [asRead, preorder, preorder, List.map_cons, asRead, preorderAll_asReadAll members]

theorem preorderAll_asReadAll : (ds : List Declaration) →
    preorderAll (asReadAll ds) = (preorderAll ds).map asRead
  | [] => rfl
  | d :: ds => by
    rw [asReadAll, preorderAll, preorderAll, List.map_append, preorder_asRead d,
      preorderAll_asReadAll ds]

end

/-- Adding does not change where further interfaces go. -/
theorem map_anchor_asReadAll (ds : List Declaration) :
    (preorderAll (asReadAll ds)).map anchor = (preorderAll ds).map anchor := by
  rw [preorderAll_asReadAll, List.map_map]
  exact List.map_congr_left fun d _ => anchor_asRead d

/-- An interface that is added anywhere is no part of what was read. -/
theorem asReadAll_modifyAt? {t : WrittenType} {path : List Nat} {ds es : List Declaration}
    {d : Declaration} (h : modifyAt? (addInterface t) path ds = some (d, es)) :
    asReadAll es = asReadAll ds := by
  induction path, ds using modifyAt?.induct generalizing d es with
  | case1 | case2 => simp [modifyAt?] at h
  | case3 first others =>
    rw [modifyAt?] at h
    cases h
    rw [asReadAll, asReadAll, asRead_addInterface]
  | case4 first others path hne ih =>
    rw [modifyAt?, Option.map_eq_some_iff] at h
    · obtain ⟨⟨found, members⟩, hmembers, heq⟩ := h
      cases heq
      rw [asReadAll, asReadAll, asRead_members (ih hmembers)]
    · exact hne
  | case5 n path first others ih =>
    rw [modifyAt?, Option.map_eq_some_iff] at h
    obtain ⟨⟨found, others'⟩, hothers, heq⟩ := h
    cases heq
    rw [asReadAll, asReadAll, ih hothers]

mutual

/-- Nothing has been added to what was read from a tree. -/
theorem added_ofTree : (t : Tree) → ∀ d ∈ preorderAll (ofTree t), d.added = []
  | .leaf _ => by simp [ofTree, preorderAll]
  | .node node children => by
    rw [ofTree]
    split
    · split
      · simp [preorderAll]
      · rw [preorderAll, preorder, preorderAll, List.append_nil, List.forall_mem_cons]
        exact ⟨rfl, added_ofBody children⟩
    · split
      · exact added_ofTrees children
      · simp [preorderAll]

theorem added_ofTrees : (ts : List Tree) → ∀ d ∈ preorderAll (ofTrees ts), d.added = []
  | [] => by simp [ofTrees, preorderAll]
  | t :: ts => by
    rw [ofTrees, preorderAll_append]
    exact List.forall_mem_append.mpr ⟨added_ofTree t, added_ofTrees ts⟩

theorem added_ofBody : (ts : List Tree) → ∀ d ∈ preorderAll (ofBody ts), d.added = []
  | [] => by simp [ofBody, preorderAll]
  | .leaf _ :: ts => by
    rw [ofBody]
    · exact added_ofBody ts
    · simp
  | .node kind children :: ts => by
    by_cases hkind : kind = .body
    · rw [hkind, ofBody]
      exact added_ofTrees children
    · rw [ofBody]
      · exact added_ofBody ts
      · intro children' heq
        cases heq
        exact hkind rfl

end

/-! ## What there is to insert -/

/-- The text with the interfaces that were added to a declaration. -/
def clauseText (d : Declaration) : String :=
  let list := ", ".intercalate (d.added.map WrittenType.text)
  if d.anchor.hasClause then ", " ++ list else " " ++ clauseKeyword d.kind ++ " " ++ list

/-- Whether anything was added to the declaration itself. -/
def isExtended (d : Declaration) : Bool := !d.added.isEmpty

/-- The declarations that were added to, in the order of the text. -/
def extendedOf (ds : List Declaration) : List Declaration := (preorderAll ds).filter isExtended

/-- The insertion of what was added to a declaration. -/
def clauseEdit (d : Declaration) : TextEdit := .insert d.anchor.offset d.clauseText

theorem insertion?_eq (d : Declaration) :
    insertion? d.kind d.anchor d.added = if d.isExtended then some d.clauseEdit else none := by
  rw [insertion?, isExtended]
  cases d.added.isEmpty <;> rfl

theorem extendedOf_cons (d : Declaration) (ds : List Declaration) :
    extendedOf (d :: ds) = extendedOf [d] ++ extendedOf ds := by
  simp only [extendedOf, preorderAll, List.append_nil, List.filter_append]

mutual

/-- There is one insertion for each declaration that was added to. -/
theorem insertions_eq : (d : Declaration) → d.insertions = (extendedOf [d]).map clauseEdit
  | ⟨kind, name, typeParams, superclass, declared, added, methods, members, anchor⟩ => by
    have hown := insertion?_eq
      ⟨kind, name, typeParams, superclass, declared, added, methods, members, anchor⟩
    dsimp only at hown
    rw [insertions, insertionsOf_eq members, hown, extendedOf, extendedOf, preorderAll, preorder,
      preorderAll, List.append_nil]
    split
    · next h =>
      rw [List.filter_cons_of_pos h, Option.toList_some, List.map_cons, List.singleton_append]
    · next h => rw [List.filter_cons_of_neg h, Option.toList_none, List.nil_append]

theorem insertionsOf_eq : (ds : List Declaration) →
    insertionsOf ds = (extendedOf ds).map clauseEdit
  | [] => rfl
  | d :: ds => by
    rw [insertionsOf, extendedOf_cons, List.map_append, insertions_eq d, insertionsOf_eq ds]

end

mutual

theorem isModified_eq : (d : Declaration) → d.isModified = d.preorder.any isExtended
  | ⟨_, _, _, _, _, added, _, members, _⟩ => by
    rw [isModified, preorder, List.any_cons, anyModified_eq members]
    rfl

theorem anyModified_eq : (ds : List Declaration) →
    anyModified ds = (preorderAll ds).any isExtended
  | [] => rfl
  | d :: ds => by
    rw [anyModified, preorderAll, List.any_append, isModified_eq d, anyModified_eq ds]

end

end Declaration

/-! ## One file -/

namespace SourceFile

open Declaration TextEdit

/-- A file that was read, and to whose declarations, at any depth, interfaces were then added. -/
inductive Edited : SourceFile → Prop
  | read {path text : String} {f : SourceFile} (h : parse? path text = some f) : Edited f
  | add {f : SourceFile} {t : WrittenType} {position : List Nat} {d : Declaration}
      {types : List Declaration} (hf : Edited f)
      (h : modifyAt? (addInterface t) position f.types = some (d, types)) :
      Edited { f with types }

/-- Adding leaves the text and what was read from it. -/
theorem Edited.parsed {f : SourceFile} (h : f.Edited) :
    ∃ g, parse? f.path f.text = some g ∧ asReadAll f.types = asReadAll g.types := by
  induction h with
  | @read path text f h =>
    refine ⟨f, ?_, rfl⟩
    rw [path_of_parse? h, text_of_parse? h, h]
  | add _ h ih =>
    obtain ⟨g, hg, hsame⟩ := ih
    exact ⟨g, hg, (asReadAll_modifyAt? h).trans hsame⟩

/-- The places for further interfaces in a file: they increase from declaration to declaration, so
no two of them are the same, and each is between two characters of the text. -/
structure Anchored (f : SourceFile) : Prop where
  increasing :
    (preorderAll f.types).Pairwise fun d e => d.anchor.offset < e.anchor.offset
  boundary : ∀ d ∈ preorderAll f.types, Text.isBoundary f.text.toList d.anchor.offset = true

/-- What was added to declarations leaves their places. -/
theorem anchored_of_parse? {f g : SourceFile} (hg : parse? f.path f.text = some g)
    (hsame : asReadAll f.types = asReadAll g.types) : f.Anchored := by
  obtain ⟨hincreasing, hboundary⟩ := anchors_of_parse? hg
  have hanchors : (preorderAll f.types).map anchor = (preorderAll g.types).map anchor := by
    rw [← map_anchor_asReadAll, hsame, map_anchor_asReadAll]
  constructor
  · rw [← List.pairwise_map (f := anchor) (R := fun a b => a.offset < b.offset), hanchors]
    exact List.pairwise_map.mpr hincreasing
  · intro d hd
    have hmem : d.anchor ∈ (preorderAll g.types).map anchor :=
      hanchors ▸ List.mem_map_of_mem hd
    obtain ⟨e, he, heq⟩ := List.mem_map.mp hmem
    rw [← heq]
    exact hboundary e he

theorem Edited.anchored {f : SourceFile} (h : f.Edited) : f.Anchored := by
  obtain ⟨g, hg, hsame⟩ := h.parsed
  exact anchored_of_parse? hg hsame

/-- The file that is written for a file: its text has one insertion for each declaration that was
added to, at the place for further interfaces and in the order of the text. -/
structure SavedAs (f w : SourceFile) : Prop where
  path : w.path = f.path
  increasing : (extendedOf f.types).Pairwise fun d e => d.anchor.offset < e.anchor.offset
  inserted :
    Spliced 0 f.text.toList ((extendedOf f.types).map clauseEdit) w.text.toList
  /-- Deleting the inserted texts gives back the text that was read. -/
  undone : applyAll w.text (removals 0 ((extendedOf f.types).map clauseEdit)) = .ok f.text

/-- **Saving inserts what was added and nothing else.** -/
theorem Anchored.savedText {f : SourceFile} (h : f.Anchored) :
    ∃ text, f.savedText = .ok text ∧ ∀ w : SourceFile, w.path = f.path → w.text = text →
      f.SavedAs w := by
  obtain ⟨hincreasing, hboundary⟩ := h
  have hordered : (extendedOf f.types).Pairwise fun d e => d.anchor.offset < e.anchor.offset :=
    hincreasing.sublist List.filter_sublist
  have hsep : Separated ((extendedOf f.types).map clauseEdit) := List.pairwise_map.mpr hordered
  have hfits : ∀ e ∈ (extendedOf f.types).map clauseEdit, e.Fits f.text.toList := by
    intro e he
    obtain ⟨d, hd, rfl⟩ := List.mem_map.mp he
    exact fits_insert (hboundary d (List.mem_of_mem_filter hd)) _
  have hinsert : ∀ e ∈ (extendedOf f.types).map clauseEdit, e.stop = e.start := by
    intro e he
    obtain ⟨d, -, rfl⟩ := List.mem_map.mp he
    rfl
  obtain ⟨result, hresult⟩ := exists_spliced hsep.inOrder hfits
  refine ⟨String.ofList result, ?_, fun w hpath htext => ⟨hpath, hordered, ?_, ?_⟩⟩
  · rw [SourceFile.savedText, insertionsOf_eq]
    exact applyAll_of_spliced hsep hresult
  · rw [htext, String.toList_ofList]
    exact hresult
  · rw [htext]
    exact applyAll_removals hsep hinsert hresult

/-- Nothing has been added to what was just read. -/
theorem isModified_of_parse? {path text : String} {f : SourceFile} (h : parse? path text = some f) :
    f.isModified = false := by
  simp only [parse?, Option.bind_eq_bind, Option.bind_eq_some_iff, Option.pure_def,
    Option.some.injEq] at h
  obtain ⟨tokens, -, trees, -, rfl⟩ := h
  rw [isModified, anyModified_eq, List.any_eq_false]
  intro d hd
  rw [isExtended, added_ofTrees trees d hd]
  decide

theorem isModified_withText (f : SourceFile) (text : String) :
    (f.withText text).isModified = false := by
  unfold withText
  cases h : parse? f.path text with
  | none => rfl
  | some g => exact isModified_of_parse? h

/-- What saving a file gives: the file, if nothing was added to it, and else what is read anew. -/
theorem Edited.exists_save {f : SourceFile} (h : f.Edited) :
    ∃ g, f.save = .ok g ∧ g.path = f.path ∧ g.isModified = false
      ∧ (f.isModified = false → g = f) := by
  obtain ⟨text, htext, -⟩ := h.anchored.savedText
  rw [save]
  by_cases hmodified : f.isModified = true
  · refine ⟨f.withText text, ?_, f.path_withText text, f.isModified_withText text, fun hnot => ?_⟩
    · rw [if_pos hmodified, htext]
      rfl
    · rw [hmodified] at hnot
      cases hnot
  · rw [if_neg hmodified]
    exact ⟨f, rfl, rfl, eq_false_of_ne_true hmodified, fun _ => rfl⟩

end SourceFile

/-! ## All files -/

variable {files : List SourceFile}

/-- Saving files that were only added to meets no fault, and nothing is added to what it leaves. -/
theorem saveAll_of_edited (h : ∀ f ∈ files, f.Edited) :
    (saveAll files).fault = none
      ∧ List.Forall₂ (fun f g => g.path = f.path ∧ g.isModified = false
          ∧ (f.isModified = false → g = f)) files (saveAll files).files := by
  induction files with
  | nil => exact ⟨rfl, .nil⟩
  | cons f files ih =>
    rw [List.forall_mem_cons] at h
    obtain ⟨g, hsave, hg⟩ := h.1.exists_save
    obtain ⟨hfault, hfiles⟩ := ih h.2
    rw [saveAll, hsave]
    exact ⟨hfault, .cons hg hfiles⟩

/-- Files that nothing was added to are left alone. -/
theorem saveAll_of_unmodified (h : ∀ f ∈ files, f.isModified = false) :
    saveAll files = ⟨files, [], none⟩ := by
  induction files with
  | nil => rfl
  | cons f files ih =>
    rw [List.forall_mem_cons] at h
    have hsave : f.save = .ok f := by
      rw [SourceFile.save, if_neg (by rw [h.1]; exact Bool.false_ne_true)]
      rfl
    rw [saveAll, hsave, ih h.2]
    dsimp only
    rw [h.1, if_neg Bool.false_ne_true]

/-- Each file that was added to is written once, with what was added. -/
theorem written_of_edited (h : ∀ f ∈ files, f.Edited) :
    List.Forall₂ SourceFile.SavedAs (files.filter SourceFile.isModified) (saveAll files).written := by
  have hedited : ∀ f ∈ files.filter SourceFile.isModified, f.Edited := fun f hf =>
    h f (List.mem_of_mem_filter hf)
  have hwritten := written_of_saveAll (saveAll_of_edited h).1
  refine ((List.forall₂_and_left _ _).mpr ⟨hedited, hwritten⟩).imp ?_
  rintro f w ⟨hf, text, htext, hpath, hw⟩
  obtain ⟨text', htext', hsaved⟩ := hf.anchored.savedText
  rw [htext] at htext'
  cases htext'
  exact hsaved w hpath hw

end Java

namespace Disk

open Java

/-- The only fault of writing is that a file cannot be written. -/
theorem fault_of_writeSources {disk disk' : Disk} {files : List SourceFile} {fault : SourceFault}
    (h : disk.writeSources files = (disk', some fault)) : ∃ path, fault = .unwritable path := by
  induction files generalizing disk with
  | nil => cases h
  | cons f files ih =>
    rw [writeSources] at h
    split at h
    · cases h
      exact ⟨f.path, rfl⟩
    · exact ih h

/-- **Saving files that were only added to.** Whatever the disk, no edit is refused: the places for
further interfaces are apart from each other and between characters. What is written is, for each
file that was added to, its text with what was added. If the writes succeed, their number is
reported, and the files read anew have nothing to save. -/
theorem save_of_edited {disk : Disk} {files : List SourceFile} (h : ∀ f ∈ files, f.Edited) :
    (∀ f ∈ files, f.Anchored)
      ∧ (∀ path cause, (disk.save files).2 ≠ .error (.edits path cause))
      ∧ List.Forall₂ SourceFile.SavedAs (files.filter SourceFile.isModified)
          (saveAll files).written
      ∧ ∀ disk', disk.writeSources (saveAll files).written = (disk', none) →
        ∃ saved, disk.save files
            = (disk', .ok (saved, (files.filter SourceFile.isModified).length))
          ∧ List.Forall₂ (fun f g => g.path = f.path ∧ g.isModified = false
              ∧ (f.isModified = false → g = f)) files saved
          ∧ (saveAll saved).written = []
          ∧ ∀ later : Disk, later.save saved = (later, .ok (saved, 0)) := by
  obtain ⟨hfault, hfiles⟩ := saveAll_of_edited h
  have hwritten := written_of_edited h
  refine ⟨fun f hf => (h f hf).anchored, fun path cause => ?_, hwritten, fun disk' hwrites => ?_⟩
  · unfold save
    dsimp only
    rw [hfault]
    split
    · next disk' fault _ hwrites =>
      obtain ⟨path', rfl⟩ := fault_of_writeSources hwrites
      nofun
    · next hnone => cases hnone
    · nofun
  · have hagain : saveAll (saveAll files).files = ⟨(saveAll files).files, [], none⟩ := by
      refine saveAll_of_unmodified fun g hg => ?_
      obtain ⟨f, -, -, hunmodified, -⟩ := exists_left_of_mem hfiles hg
      exact hunmodified
    refine ⟨(saveAll files).files, ?_, hfiles, by rw [hagain], fun later => ?_⟩
    · rw [save, hwrites, hfault, hwritten.length_eq]
    · rw [save, hagain]
      rfl

/-- A class with an enum in it and a record in that; only the enum has a list of interfaces. -/
def layeredText (clauseA clauseB clauseD : String) : String :=
  "class A" ++ clauseA ++ " \x7b enum B implements C" ++ clauseB
    ++ " \x7b X; record D(int e)" ++ clauseD ++ " \x7b \x7d \x7d \x7d\n"

def layeredType (kind : ClassKind) (name : String) (declared added : List WrittenType)
    (anchor : ClauseAnchor) (members : List Declaration) : Declaration where
  kind := kind
  name := name
  typeParams := []
  superclass := none
  declared := declared
  added := added
  methods := []
  members := members
  anchor := anchor

/-- The file, with interfaces added to each of the three types. -/
def layeredFile (addedA addedB addedD : List WrittenType) : SourceFile where
  path := "/A.java"
  text := layeredText "" "" ""
  package? := none
  imports := []
  types := [
    layeredType .plainClass "A" [] addedA ⟨7, false⟩ [
      layeredType .enum "B" [.named "C" []] addedB ⟨29, true⟩ [
        layeredType .record "D" [] addedD ⟨50, false⟩ []]]]

/-- The file after the interfaces were written. -/
def layeredSaved : SourceFile where
  path := "/A.java"
  text := layeredText " implements I" ", I, J" " implements I"
  package? := none
  imports := []
  types := [
    layeredType .plainClass "A" [.named "I" []] [] ⟨20, true⟩ [
      layeredType .enum "B" [.named "C" [], .named "I" [], .named "J" []] [] ⟨48, true⟩ [
        layeredType .record "D" [.named "I" []] [] ⟨82, true⟩ []]]]

def layeredDisk (text : String) : Disk where
  root := .folder [("A.java", .file (.text text))]
  here := []

/-- Interfaces for all three types. -/
def layeredAdded : SourceFile :=
  layeredFile [.named "I" []] [.named "I" [], .named "J" []] [.named "I" []]

theorem modifyAt?_layered (t : WrittenType) (a b d : List WrittenType) :
    (Declaration.modifyAt? (.addInterface t) [0] (layeredFile a b d).types).map Prod.snd
        = some (layeredFile (a ++ [t]) b d).types
      ∧ (Declaration.modifyAt? (.addInterface t) [0, 0] (layeredFile a b d).types).map Prod.snd
        = some (layeredFile a (b ++ [t]) d).types
      ∧ (Declaration.modifyAt? (.addInterface t) [0, 0, 0] (layeredFile a b d).types).map Prod.snd
        = some (layeredFile a b (d ++ [t])).types := by
  simp [layeredFile, layeredType, Declaration.modifyAt?, Declaration.addInterface]

/-- The innermost type gets its interface first. -/
theorem edited_layered : layeredAdded.Edited := by
  have hread : SourceFile.parse? "/A.java" (layeredFile [] [] []).text
      = some (layeredFile [] [] []) := by decide +kernel
  have hadd : ∀ {f : SourceFile} {types : List Declaration} {t : WrittenType}
      {position : List Nat}, f.Edited →
      (Declaration.modifyAt? (.addInterface t) position f.types).map Prod.snd = some types →
      SourceFile.Edited { f with types } := by
    intro f types t position hf h
    obtain ⟨⟨d, types'⟩, hmodify, rfl⟩ := Option.map_eq_some_iff.mp h
    exact .add hf hmodify
  have hD := hadd (.read hread) (modifyAt?_layered (.named "I" []) [] [] []).2.2
  have hA := hadd hD (modifyAt?_layered (.named "I" []) [] [] [.named "I" []]).1
  have hB := hadd hA (modifyAt?_layered (.named "I" []) [.named "I" []] [] [.named "I" []]).2.1
  exact hadd hB
    (modifyAt?_layered (.named "J" []) [.named "I" []] [.named "I" []] [.named "I" []]).2.1

theorem saveAll_layered : saveAll [layeredAdded] = ⟨[layeredSaved], [layeredSaved], none⟩ := by
  obtain ⟨text, htext, hsavedAs⟩ := edited_layered.anchored.savedText
  have hsplice := (hsavedAs { layeredAdded with text } rfl rfl).inserted.splice_eq
  have hresult : TextEdit.splice 0 layeredAdded.text.toList
      ((Declaration.extendedOf layeredAdded.types).map Declaration.clauseEdit)
      = layeredSaved.text.toList := by
    decide
  obtain rfl : text = layeredSaved.text := String.toList_inj.mp (hsplice.symm.trans hresult)
  have hparse : SourceFile.parse? layeredAdded.path layeredSaved.text = some layeredSaved := by
    decide +kernel
  have hmodified : layeredAdded.isModified = true := rfl
  have hsave : layeredAdded.save = .ok layeredSaved := by
    rw [SourceFile.save, if_pos hmodified, htext]
    dsimp only [bind, Except.bind, pure, Except.pure]
    rw [SourceFile.withText, hparse]
    rfl
  rw [saveAll, hsave]
  rfl

theorem save_layered :
    (∀ f ∈ [layeredAdded], f.Edited)
      ∧ ∃ saved, (layeredDisk layeredAdded.text).save [layeredAdded]
          = (layeredDisk layeredSaved.text, .ok (saved, 1)) ∧ (saveAll saved).written = [] := by
  have hedited := List.forall_mem_singleton.mpr edited_layered
  have hwrites : (layeredDisk layeredAdded.text).writeSources (saveAll [layeredAdded]).written
      = (layeredDisk layeredSaved.text, none) := by
    rw [saveAll_layered]
    rfl
  obtain ⟨saved, hsave, -, hnone, -⟩ := (save_of_edited hedited).2.2.2 _ hwrites
  exact ⟨hedited, saved, hsave, hnone⟩

end Disk

end Conformance
