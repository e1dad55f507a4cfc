import Mathlib.Data.String.Basic
import Conformance.Disk.Basic
import Conformance.Proofs.Path

/-!
# Overwriting a file in a tree

Putting a new file in the place of one that is there leaves the tree as it is everywhere else:
what was a folder stays one, the same paths are met on a walk in the same order, and every other
file holds what it held. This needs folders to be what they are on a disk, with names that are
names and each of them once (`Node.Proper`); a folder that had a name twice would have one of
its entries hidden by the other.
-/

namespace Conformance

namespace Node

/-- All folders list their entries by name, each name once, and the names are names. -/
inductive Proper : Node → Prop where
  | file (contents : Contents) : Proper (.file contents)
  | folder {entries : List (String × Node)} (names : ∀ e ∈ entries, Path.IsName e.1)
      (sorted : entries.Pairwise fun a b => a.1 < b.1) (proper : ∀ e ∈ entries, Proper e.2) :
      Proper (.folder entries)

/-! ## Entries of a folder -/

theorem lookup_cons_eq (e : String × Node) (entries : List (String × Node)) (n : String) :
    (e :: entries).lookup n = if n = e.1 then some e.2 else entries.lookup n := by
  rw [List.lookup_cons]
  by_cases h : n = e.1
  · simp [h]
  · simp [h, beq_eq_false_iff_ne.mpr h]

theorem mem_of_lookup {entries : List (String × Node)} {name : String} {node : Node}
    (h : entries.lookup name = some node) : (name, node) ∈ entries := by
  induction entries with
  | nil => cases h
  | cons e entries ih =>
    rw [lookup_cons_eq] at h
    split at h
    · next he =>
      cases h
      rw [he]
      exact List.mem_cons_self ..
    · exact List.mem_cons_of_mem _ (ih h)

/-- In a proper folder every entry is found under its name. -/
theorem lookup_of_mem {entries : List (String × Node)}
    (hsorted : entries.Pairwise fun a b => a.1 < b.1) {e : String × Node} (h : e ∈ entries) :
    entries.lookup e.1 = some e.2 := by
  induction entries with
  | nil => cases h
  | cons first entries ih =>
    rw [List.pairwise_cons] at hsorted
    rw [lookup_cons_eq]
    rcases List.mem_cons.mp h with rfl | h
    · rw [if_pos rfl]
    · rw [if_neg (ne_of_lt (hsorted.1 e h)).symm]
      exact ih hsorted.2 h

theorem lookup_insertEntry (name : String) (node : Node) (entries : List (String × Node))
    (n : String) : (insertEntry name node entries).lookup n
      = if n = name then some node else entries.lookup n := by
  induction entries with
  | nil =>
    rw [insertEntry, lookup_cons_eq]
  | cons e entries ih =>
    obtain ⟨other, found⟩ := e
    rw [insertEntry]
    split
    · next heq =>
      subst heq
      rw [lookup_cons_eq, lookup_cons_eq]
      split <;> rfl
    · next hne =>
      split
      · rw [lookup_cons_eq]
      · rw [lookup_cons_eq, lookup_cons_eq, ih]
        by_cases h : n = other
        · rw [if_pos h, if_pos h, if_neg (fun e => hne (e.symm.trans h))]
        · rw [if_neg h, if_neg h]

/-- An entry of a proper folder is replaced where it stands. -/
theorem insertEntry_eq_map {name : String} {old node : Node} {entries : List (String × Node)}
    (hsorted : entries.Pairwise fun a b => a.1 < b.1) (h : entries.lookup name = some old) :
    insertEntry name node entries
      = entries.map fun e => if e.1 = name then (name, node) else e := by
  induction entries with
  | nil => cases h
  | cons e entries ih =>
    obtain ⟨other, found⟩ := e
    rw [List.pairwise_cons] at hsorted
    rw [insertEntry]
    split
    · next heq =>
      subst heq
      have hrest : ∀ e ∈ entries, (if e.1 = name then (name, node) else e) = e := by
        intro e he
        rw [if_neg (ne_of_lt (hsorted.1 e he)).symm]
      rw [List.map_cons, if_pos rfl, List.map_congr_left hrest, List.map_id']
    · next hne =>
      rw [lookup_cons_eq, if_neg hne] at h
      have hlt : other < name := hsorted.1 _ (mem_of_lookup h)
      rw [if_neg (lt_asymm hlt), List.map_cons, if_neg (Ne.symm hne), ih hsorted.2 h]

/-! ## What a path leads to -/

theorem find?_append (front rest : List String) (node : Node) :
    node.find? (front ++ rest) = (node.find? front).bind (find? rest) := by
  induction front generalizing node with
  | nil => rfl
  | cons name front ih =>
    rw [List.cons_append, find?, find?, Option.bind_assoc]
    congr 1
    funext child
    exact ih child

/-- Whatever something lies below is a folder. -/
theorem isFolder_of_find? {name : String} {rest : List String} {node found : Node}
    (h : node.find? (name :: rest) = some found) : ∃ entries, node = .folder entries := by
  cases node with
  | file contents => cases h
  | folder entries => exact ⟨entries, rfl⟩

/-- What is found after a file was overwritten: on the way to the file the folders with the new
file in them, and elsewhere what was there. -/
theorem find?_put {old : Contents} (new : Contents) {place : List String} {node : Node}
    (h : node.find? place = some (.file old)) (q : List String) :
    (∃ rest found, place = q ++ rest ∧ node.find? q = some found
      ∧ found.find? rest = some (.file old)
      ∧ (put (.file new) place node).find? q = some (put (.file new) rest found))
    ∨ (q ≠ place ∧ (put (.file new) place node).find? q = node.find? q) := by
  induction place generalizing node q with
  | nil =>
    cases h
    cases q with
    | nil => exact .inl ⟨[], _, rfl, rfl, rfl, rfl⟩
    | cons name q => exact .inr ⟨by simp, rfl⟩
  | cons name place ih =>
    obtain ⟨entries, rfl⟩ := isFolder_of_find? h
    cases q with
    | nil => exact .inl ⟨name :: place, _, rfl, rfl, h, rfl⟩
    | cons n q =>
      rw [find?, Option.bind_eq_some_iff] at h
      obtain ⟨child, hchild, h⟩ := h
      have hput : (put (.file new) (name :: place) (folder entries)).find? (n :: q)
          = if n = name then (put (.file new) place child).find? q
            else (folder entries).find? (n :: q) := by
        rw [put, hchild, Option.getD_some, find?, find?, child?, Node.entries, lookup_insertEntry]
        split <;> rfl
      rw [hput]
      by_cases hn : n = name
      · -- one step further on the way to the file, or beside it
        subst hn
        rw [if_pos rfl]
        have hfind : (folder entries).find? (n :: q) = child.find? q := by
          rw [find?, hchild, Option.bind_some]
        rw [hfind]
        rcases ih h q with ⟨rest, found, rfl, hq, hrest, heq⟩ | ⟨hne, heq⟩
        · exact .inl ⟨rest, found, rfl, hq, hrest, heq⟩
        · exact .inr ⟨by simpa using hne, heq⟩
      · rw [if_neg hn]
        exact .inr ⟨by simp [hn], rfl⟩

theorem isFolder_put {old new : Contents} {place : List String} {node : Node}
    (h : node.find? place = some (.file old)) :
    (put (.file new) place node).isFolder = node.isFolder := by
  cases place with
  | nil =>
    cases h
    rfl
  | cons name place =>
    obtain ⟨entries, rfl⟩ := isFolder_of_find? h
    rfl

/-- Folders stay folders and files stay files. -/
theorem isFolder_find?_put {old new : Contents} {place : List String} {node : Node}
    (h : node.find? place = some (.file old)) (q : List String) :
    ((put (.file new) place node).find? q).map isFolder = (node.find? q).map isFolder := by
  rcases find?_put new h q with ⟨rest, found, -, hq, hrest, heq⟩ | ⟨-, heq⟩
  · rw [heq, hq, Option.map_some, Option.map_some, isFolder_put hrest]
  · rw [heq]

/-- Only the file that is overwritten holds something else. -/
theorem contents?_find?_put {old new : Contents} {place : List String} {node : Node}
    (h : node.find? place = some (.file old)) (q : List String) :
    ((put (.file new) place node).find? q).bind contents?
      = if q = place then some new else (node.find? q).bind contents? := by
  rcases find?_put new h q with ⟨rest, found, rfl, hq, hrest, heq⟩ | ⟨hne, heq⟩
  · rw [heq, hq, Option.bind_some, Option.bind_some]
    cases rest with
    | nil => simp [put, contents?]
    | cons name rest =>
      obtain ⟨entries, rfl⟩ := isFolder_of_find? hrest
      simp [put, contents?]
  · rw [heq, if_neg hne]

/-! ## Walks -/

theorem walkEntries_eq_flatMap (base : String) (entries : List (String × Node)) :
    walkEntries base entries = entries.flatMap fun e => e.2.walk (Path.join base e.1) := by
  induction entries with
  | nil => rfl
  | cons e entries ih => rw [walkEntries, ih, List.flatMap_cons]

/-- Overwriting a file of a folder changes one entry of it. -/
theorem put_folder {name : String} {place : List String} {entries : List (String × Node)}
    {child : Node} (new : Node) (hsorted : entries.Pairwise fun a b => a.1 < b.1)
    (hchild : entries.lookup name = some child) :
    put new (name :: place) (folder entries)
      = folder (entries.map fun e => if e.1 = name then (e.1, put new place e.2) else e) := by
  rw [put, child?, hchild, Option.getD_some, Node.entries, insertEntry_eq_map hsorted hchild]
  congr 1
  refine List.map_congr_left fun e he => ?_
  by_cases hname : e.1 = name
  · have hlookup := lookup_of_mem hsorted he
    rw [hname, hchild] at hlookup
    rw [if_pos hname, if_pos hname, hname, Option.some.inj hlookup]
  · rw [if_neg hname, if_neg hname]

/-- Overwriting a file does not change which paths a walk meets. -/
theorem walk_put {old new : Contents} {place : List String} {node : Node} (hproper : node.Proper)
    (h : node.find? place = some (.file old)) (base : String) :
    ((put (.file new) place node).walk base).map Prod.fst = (node.walk base).map Prod.fst := by
  induction place generalizing node base with
  | nil =>
    cases h
    rfl
  | cons name place ih =>
    obtain ⟨entries, rfl⟩ := isFolder_of_find? h
    cases hproper with
    | folder _ hsorted hentries =>
      rw [find?, Option.bind_eq_some_iff] at h
      obtain ⟨child, hchild, h⟩ := h
      rw [put_folder _ hsorted hchild, walk, walk, walkEntries_eq_flatMap, walkEntries_eq_flatMap,
        List.flatMap_map, List.map_flatMap, List.map_flatMap]
      refine List.flatMap_congr fun e he => ?_
      split
      · next hname =>
        have hlookup := lookup_of_mem hsorted he
        rw [hname, show entries.lookup name = some child from hchild] at hlookup
        have hchild' : e.2 = child := (Option.some.inj hlookup).symm
        exact ih (hentries e he) (hchild' ▸ h) _
      · rfl

theorem proper_put {old new : Contents} {place : List String} {node : Node} (hproper : node.Proper)
    (h : node.find? place = some (.file old)) : (put (.file new) place node).Proper := by
  induction place generalizing node with
  | nil => exact .file new
  | cons name place ih =>
    obtain ⟨entries, rfl⟩ := isFolder_of_find? h
    cases hproper with
    | folder hnames hsorted hentries =>
      rw [find?, Option.bind_eq_some_iff] at h
      obtain ⟨child, hchild, h⟩ := h
      rw [put_folder _ hsorted hchild]
      -- names stay, so what is said of names stays
      have hfst : ∀ e : String × Node,
          (if e.1 = name then (e.1, put (.file new) place e.2) else e).1 = e.1 := by
        intro e
        split <;> rfl
      refine .folder ?_ ?_ ?_
      · rw [List.forall_mem_map]
        exact fun e he => (hfst e).symm ▸ hnames e he
      · rw [List.pairwise_map]
        exact hsorted.imp fun {a b} hab => by rw [hfst a, hfst b]; exact hab
      · rw [List.forall_mem_map]
        intro e he
        split
        · next hname =>
          have hlookup := lookup_of_mem hsorted he
          rw [hname, show entries.lookup name = some child from hchild] at hlookup
          have hchild' : e.2 = child := (Option.some.inj hlookup).symm
          exact ih (hentries e he) (hchild' ▸ h)
        · exact hentries e he

end Node

end Conformance
