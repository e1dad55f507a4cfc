import Conformance.Disk.Basic
import Conformance.Proofs.Tree

/-!
# Overwriting a file on a disk

A walk lists files under paths made by joining names, and such a path leads back to the file
(`contents?_of_walk`); so what a walk finds is known from its paths and from what each of them
holds. Overwriting a file keeps the shape of the disk: every path leads where it led, and every
walk meets the same paths (`SameShape`). What changes is what the paths to that one file hold
(`write?_spec`). All of these paths end in the same name, so they agree in what kind of file
they are taken for (`fileName?_of_resolve`).
-/

namespace Conformance

open Conformance.Path

namespace Disk

/-- The folders of the disk are what they are on a disk. -/
def Proper (disk : Disk) : Prop := disk.root.Proper

variable {disk disk' disk'' : Disk}

/-! ## Following a path -/

theorem resolve?_eq_some {path : String} {place : List String} :
    disk.resolve? path = some place ↔ path ≠ ""
      ∧ (Text.split '/' path).foldlM (follow disk.root)
          (if isAbsolute path then [] else disk.here) = some place
      ∧ (disk.root.find? place).isSome := by
  unfold resolve?
  by_cases hempty : path.isEmpty = true
  · simp [String.isEmpty_iff.mp hempty]
  · have hne : path ≠ "" := fun e => hempty (String.isEmpty_iff.mpr e)
    simp only [hempty, Bool.false_eq_true, if_false, Option.bind_eq_bind, Option.bind_eq_some_iff]
    constructor
    · rintro ⟨found, hfold, h⟩
      split at h
      · next hsome =>
        cases h
        exact ⟨hne, hfold, hsome⟩
      · cases h
    · rintro ⟨-, hfold, hsome⟩
      exact ⟨place, hfold, by rw [if_pos hsome]⟩

theorem follow_name {root : Node} {place : List String} {entries : List (String × Node)}
    {name : String} (h : root.find? place = some (.folder entries)) (hname : IsName name) :
    follow root place name = some (place ++ [name]) := by
  rw [follow, h]
  simp [Node.isFolder, hname.not_filler, hname.notUp]

/-- A name joined to a path to a folder leads to the entry of that name. -/
theorem resolve?_join {base name : String} {place : List String}
    {entries : List (String × Node)} {child : Node} (h : disk.resolve? base = some place)
    (hfolder : disk.root.find? place = some (.folder entries)) (hname : IsName name)
    (hchild : entries.lookup name = some child) :
    disk.resolve? (join base name) = some (place ++ [name])
      ∧ disk.root.find? (place ++ [name]) = some child := by
  obtain ⟨hbase, hfold, -⟩ := resolve?_eq_some.mp h
  obtain ⟨habsolute, parts, hjoin, hparts⟩ := split_join hbase hname
  have hfind : disk.root.find? (place ++ [name]) = some child := by
    rw [Node.find?_append, hfolder, Option.bind_some, Node.find?, Node.child?, hchild]
    rfl
  refine ⟨resolve?_eq_some.mpr ⟨?_, ?_, by rw [hfind]; rfl⟩, hfind⟩
  · -- an empty path has no part that is a name
    intro he
    rw [he] at hjoin
    rcases parts with _ | ⟨part, parts⟩
    · simp [Text.split, Text.splitOnChar] at hjoin
      exact hname.nonempty hjoin
    · simp [Text.split, Text.splitOnChar] at hjoin
  · -- the parts before the name lead where the base leads
    rw [habsolute, hjoin, List.foldlM_append]
    have hfront : parts.foldlM (follow disk.root)
        (if isAbsolute base then [] else disk.here) = some place := by
      rcases hparts with hparts | hparts
      · rw [← hparts]
        exact hfold
      · -- the empty part after the last slash leads nowhere else
        rw [hparts, List.foldlM_append, Option.bind_eq_bind, Option.bind_eq_some_iff] at hfold
        obtain ⟨before, hbefore, hlast⟩ := hfold
        rw [List.foldlM_cons, Option.bind_eq_bind, Option.bind_eq_some_iff] at hlast
        obtain ⟨after, hfollow, hlast⟩ := hlast
        rw [follow] at hfollow
        split at hfollow
        · rw [if_pos (by simp [isFiller])] at hfollow
          cases hfollow
          cases hlast
          exact hbefore
        · cases hfollow
    rw [hfront, Option.bind_eq_bind, Option.bind_some, List.foldlM_cons, follow_name hfolder hname]
    rfl

/-- What lies above something is a folder. -/
theorem isFolder_dropLast {root : Node} {place : List String} {entries : List (String × Node)}
    (h : root.find? place = some (.folder entries)) :
    ∃ entries, root.find? place.dropLast = some (.folder entries) := by
  rcases List.eq_nil_or_concat place with rfl | ⟨front, name, rfl⟩
  · exact ⟨entries, h⟩
  · rw [List.concat_eq_append] at h ⊢
    rw [List.dropLast_concat]
    rw [Node.find?_append, Option.bind_eq_some_iff] at h
    obtain ⟨node, hnode, h⟩ := h
    obtain ⟨entries, rfl⟩ := Node.isFolder_of_find? h
    exact ⟨entries, hnode⟩

/-- A path to a file ends in the name of the file. -/
theorem fileName?_of_resolve {path : String} {place : List String} {contents : Contents}
    (h : disk.resolve? path = some place) (hfile : disk.root.find? place = some (.file contents)) :
    fileName? path = place.getLast? := by
  obtain ⟨-, hfold, -⟩ := resolve?_eq_some.mp h
  rcases List.eq_nil_or_concat (Text.split '/' path) with hnil | ⟨parts, part, hsplit⟩
  · simp [Text.split, Text.splitOnChar_ne_nil] at hnil
  rw [List.concat_eq_append] at hsplit
  rw [hsplit, List.foldlM_append, Option.bind_eq_bind, Option.bind_eq_some_iff] at hfold
  obtain ⟨before, -, hlast⟩ := hfold
  rw [List.foldlM_cons, Option.bind_eq_bind, Option.bind_eq_some_iff] at hlast
  obtain ⟨after, hfollow, hlast⟩ := hlast
  cases hlast
  -- a part that is no name leads to a folder, and a file is none
  unfold follow at hfollow
  split at hfollow
  · next hfolder =>
    obtain ⟨entries, hbefore⟩ : ∃ entries, disk.root.find? before = some (.folder entries) := by
      cases hb : disk.root.find? before with
      | none => simp [hb] at hfolder
      | some node => cases node <;> simp_all [Node.isFolder]
    split at hfollow
    · cases hfollow
      rw [hbefore] at hfile
      cases hfile
    · next hfiller =>
      split at hfollow
      · cases hfollow
        obtain ⟨entries, habove⟩ := isFolder_dropLast hbefore
        rw [habove] at hfile
        cases hfile
      · next hup =>
        cases hfollow
        have hname : IsName part := by
          simp only [isFiller, Bool.or_eq_true, decide_eq_true_iff, not_or, String.isEmpty_iff] at hfiller
          refine ⟨hfiller.1, ?_, hfiller.2, hup⟩
          have hmem : part ∈ Text.split '/' path := by simp [hsplit]
          obtain ⟨chars, hchars, rfl⟩ := List.mem_map.mp hmem
          rw [String.toList_ofList]
          exact Text.not_mem_of_mem_splitOnChar hchars
        rw [fileName?_of_split hsplit hname, List.getLast?_append]
        rfl
  · cases hfollow

/-! ## Walks -/

theorem proper_of_find? {node found : Node} {place : List String} (hproper : node.Proper)
    (h : node.find? place = some found) : found.Proper := by
  induction place generalizing node with
  | nil =>
    cases h
    exact hproper
  | cons name place ih =>
    obtain ⟨entries, rfl⟩ := Node.isFolder_of_find? h
    rw [Node.find?, Option.bind_eq_some_iff] at h
    obtain ⟨child, hchild, h⟩ := h
    cases hproper with
    | folder _ _ hentries => exact ih (hentries _ (Node.mem_of_lookup hchild)) h

/-- Each path of a walk leads to the file that is met under it. -/
theorem resolve?_of_mem_walk {node : Node} (hproper : node.Proper) {base : String}
    {place : List String} (hbase : disk.resolve? base = some place)
    (hnode : disk.root.find? place = some node) :
    ∀ e ∈ node.walk base, ∃ q, disk.resolve? e.1 = some q
      ∧ disk.root.find? q = some (.file e.2) := by
  induction hproper generalizing base place with
  | file contents =>
    intro e he
    rw [Node.walk, List.mem_singleton] at he
    subst he
    exact ⟨place, hbase, hnode⟩
  | @folder entries hnames hsorted _ ih =>
    intro e he
    rw [Node.walk, Node.walkEntries_eq_flatMap, List.mem_flatMap] at he
    obtain ⟨entry, hentry, he⟩ := he
    obtain ⟨hjoin, hfind⟩ := resolve?_join hbase hnode (hnames entry hentry)
      (Node.lookup_of_mem hsorted hentry)
    exact ih entry hentry hjoin hfind e he

theorem contents?_of_resolve {path : String} {place : List String}
    (h : disk.resolve? path = some place) :
    disk.contents? path = (disk.root.find? place).bind Node.contents? := by
  rw [contents?, Disk.find?, h, Option.bind_some]

/-- What a walk finds under a path is what the path holds. -/
theorem contents?_of_walk (hproper : disk.Proper) {path : String}
    {files : List (String × Contents)} (h : disk.walk? path = some files) :
    ∀ e ∈ files, disk.contents? e.1 = some e.2 := by
  intro e he
  rw [walk?, Option.map_eq_some_iff] at h
  obtain ⟨node, hfind, rfl⟩ := h
  rw [Disk.find?, Option.bind_eq_some_iff] at hfind
  obtain ⟨place, hplace, hnode⟩ := hfind
  obtain ⟨q, hq, hfile⟩ := resolve?_of_mem_walk (proper_of_find? hproper hnode) hplace hnode e he
  rw [contents?_of_resolve hq, hfile]
  rfl

/-! ## Writing -/

/-- Every path leads where it led before, and every walk meets the same paths. -/
structure SameShape (disk disk' : Disk) : Prop where
  resolve : ∀ path, disk'.resolve? path = disk.resolve? path
  paths : ∀ path, (disk'.walk? path).map (List.map Prod.fst)
    = (disk.walk? path).map (List.map Prod.fst)

theorem SameShape.refl (disk : Disk) : SameShape disk disk := ⟨fun _ => rfl, fun _ => rfl⟩

theorem SameShape.trans (h : SameShape disk disk') (h' : SameShape disk' disk'') :
    SameShape disk disk'' :=
  ⟨fun path => (h'.resolve path).trans (h.resolve path),
    fun path => (h'.paths path).trans (h.paths path)⟩

/-- Overwriting a file keeps the shape of the disk, and only the paths to that file hold
something else. -/
theorem write?_spec (hproper : disk.Proper) {path text : String}
    (h : disk.write? path text = some disk') :
    ∃ place, disk.resolve? path = some place ∧ (disk.contents? path).isSome ∧ disk'.Proper
      ∧ SameShape disk disk' ∧ ∀ q, disk'.contents? q
          = if disk.resolve? q = some place then some (.text text) else disk.contents? q := by
  simp only [write?, Option.bind_eq_bind, Option.bind_eq_some_iff] at h
  obtain ⟨place, hplace, node, hnode, h⟩ := h
  cases node with
  | folder entries => cases h
  | file old =>
    cases h
    -- following a path asks for folders only, and these are the same
    have hfolder : ∀ q : List String,
        ((Node.put (.file (.text text)) place disk.root).find? q).map Node.isFolder
          = (disk.root.find? q).map Node.isFolder := Node.isFolder_find?_put hnode
    have hsome : ∀ q : List String,
        ((Node.put (.file (.text text)) place disk.root).find? q).isSome
          = (disk.root.find? q).isSome := by
      intro q
      rw [← Option.isSome_map (f := Node.isFolder), hfolder q, Option.isSome_map]
    have hfollow : follow (Node.put (.file (.text text)) place disk.root) = follow disk.root := by
      funext q part
      rw [follow, follow, hfolder q]
    have hresolve : ∀ path, Disk.resolve? ⟨Node.put (.file (.text text)) place disk.root, disk.here⟩
        path = disk.resolve? path := by
      intro path
      unfold resolve?
      simp only [hfollow, hsome]
    have hheld : (disk.contents? path).isSome := by
      rw [contents?_of_resolve hplace, hnode]
      rfl
    refine ⟨place, hplace, hheld, Node.proper_put hproper hnode, ⟨hresolve, fun q => ?_⟩,
      fun q => ?_⟩
    · rw [walk?, walk?, Disk.find?, Disk.find?, hresolve q]
      cases hq : disk.resolve? q with
      | none => rfl
      | some r =>
        rw [Option.bind_some, Option.bind_some, Option.map_map, Option.map_map]
        -- a walk meets the file, or begins elsewhere
        rcases Node.find?_put (.text text) hnode r with
          ⟨rest, found, -, hr, hrest, heq⟩ | ⟨-, heq⟩
        · rw [heq, hr, Option.map_some, Option.map_some, Function.comp_apply, Function.comp_apply,
            Node.walk_put (proper_of_find? hproper hr) hrest]
        · rw [heq]
    · cases hq : disk.resolve? q with
      | none => simp [contents?, Disk.find?, hresolve q, hq]
      | some r =>
        rw [contents?_of_resolve ((hresolve q).trans hq), contents?_of_resolve hq,
          Node.contents?_find?_put hnode r]
        simp

end Disk

end Conformance
