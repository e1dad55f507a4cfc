import Mathlib.Data.List.Nodup
import Mathlib.Data.List.Flatten
import Conformance.Proofs.Reading

/-!
# Where source files are

A file is told apart from others by the place where it is, and a walk lists paths. The two fit
together: a walk from a path meets every file at or below the place that the path leads to, each
of them under one path (`exists_mem_walk`, `nodup_walk`), and that path has the parts of the
first one with the names below that place behind them (`mem_walk_spec`).

Two paths with the same parts lead to the same place (`place_eq_of_same`). The other way round
this is false, since two dots lead back up, a leading dot counts as a part, and a path may be
absolute; so a place has one spelling for each way to write the path that a walk began with.
-/

namespace Conformance

open Conformance.Path

namespace Disk

variable {disk : Disk} {path root : String} {place : List String}

/-! ## Paths with the same parts -/

theorem follow_filler {node : Node} {place next : List String} {part : String}
    (h : follow node place part = some next) (hfiller : isFiller part = true) : next = place := by
  rw [follow, if_pos hfiller] at h
  split at h
  · exact (Option.some.inj h).symm
  · cases h

/-- Parts that do not count are passed over. -/
theorem foldlM_follow_filter {node : Node} {parts : List String} {start place : List String}
    (h : parts.foldlM (follow node) start = some place) :
    (parts.filter (!isFiller ·)).foldlM (follow node) start = some place := by
  induction parts generalizing start with
  | nil => exact h
  | cons part parts ih =>
    rw [List.foldlM_cons, Option.bind_eq_bind, Option.bind_eq_some_iff] at h
    obtain ⟨next, hnext, h⟩ := h
    rw [List.filter_cons]
    by_cases hfiller : isFiller part = true
    · rw [follow_filler hnext hfiller] at h
      simpa [hfiller] using ih h
    · rw [if_pos (by simpa using hfiller), List.foldlM_cons, hnext]
      exact ih h

/-- Where a path leads is a matter of the parts that count. -/
theorem place_eq_of_same {p q : String} {place place' : List String} (hsame : same p q = true)
    (hp : disk.resolve? p = some place) (hq : disk.resolve? q = some place') : place = place' := by
  have hcomponents : components p = components q := of_decide_eq_true hsame
  have habsolute : isAbsolute p = isAbsolute q := by
    rw [Bool.eq_iff_iff, isAbsolute_iff_mem, isAbsolute_iff_mem, hcomponents]
  have hfoldp := foldlM_follow_filter (resolve?_eq_some.mp hp).2.1
  have hfoldq := foldlM_follow_filter (resolve?_eq_some.mp hq).2.1
  rw [filter_split, hcomponents, habsolute, ← filter_split] at hfoldp
  exact Option.some.inj (hfoldp.symm.trans hfoldq)

/-! ## What a walk meets -/

/-- Each path of a walk leads below where the walk began, along the names that it ends in. -/
theorem mem_walk_spec {node : Node} (hproper : node.Proper) {base : String}
    (hbase : disk.resolve? base = some place) (hnode : disk.root.find? place = some node) :
    ∀ e ∈ node.walk base, ∃ names, disk.resolve? e.1 = some (place ++ names)
      ∧ disk.root.find? (place ++ names) = some (.file e.2)
      ∧ components e.1 = components base ++ names := by
  induction hproper generalizing base place with
  | file contents =>
    intro e he
    rw [Node.walk, List.mem_singleton] at he
    subst he
    exact ⟨[], by simpa using hbase, by simpa using hnode, by simp⟩
  | @folder entries hnames hsorted _ ih =>
    intro e he
    rw [Node.walk, Node.walkEntries_eq_flatMap, List.mem_flatMap] at he
    obtain ⟨entry, hentry, he⟩ := he
    obtain ⟨hjoin, hfind⟩ := resolve?_join hbase hnode (hnames entry hentry)
      (Node.lookup_of_mem hsorted hentry)
    obtain ⟨names, hresolve, hfile, hcomponents⟩ := ih entry hentry hjoin hfind e he
    rw [components_join (resolve?_eq_some.mp hbase).1 (hnames entry hentry)] at hcomponents
    exact ⟨entry.1 :: names, by simpa using hresolve, by simpa using hfile,
      by simpa using hcomponents⟩

/-- A walk meets no place twice. -/
theorem nodup_walk {node : Node} (hproper : node.Proper) {base : String}
    (hbase : disk.resolve? base = some place) (hnode : disk.root.find? place = some node) :
    ((node.walk base).map fun e => disk.resolve? e.1).Nodup := by
  induction hproper generalizing base place with
  | file contents =>
    rw [Node.walk, List.map_singleton]
    exact List.nodup_singleton _
  | @folder entries hnames hsorted hproper ih =>
    have hjoin : ∀ entry ∈ entries, disk.resolve? (join base entry.1) = some (place ++ [entry.1])
        ∧ disk.root.find? (place ++ [entry.1]) = some entry.2 := fun entry hentry =>
      resolve?_join hbase hnode (hnames entry hentry) (Node.lookup_of_mem hsorted hentry)
    rw [Node.walk, Node.walkEntries_eq_flatMap, List.map_flatMap, List.nodup_flatMap]
    refine ⟨fun entry hentry => ih entry hentry (hjoin entry hentry).1 (hjoin entry hentry).2, ?_⟩
    -- what lies below one entry does not lie below another
    refine hsorted.imp_of_mem fun {a b} ha hb hlt => ?_
    refine List.disjoint_left.mpr fun found hfound hfound' => ?_
    obtain ⟨e, he, rfl⟩ := List.mem_map.mp hfound
    obtain ⟨e', he', heq⟩ := List.mem_map.mp hfound'
    obtain ⟨names, hresolve, -⟩ := mem_walk_spec (hproper a ha) (hjoin a ha).1 (hjoin a ha).2 e he
    obtain ⟨names', hresolve', -⟩ :=
      mem_walk_spec (hproper b hb) (hjoin b hb).1 (hjoin b hb).2 e' he'
    rw [hresolve, hresolve', Option.some.injEq, List.append_assoc, List.append_assoc,
      List.append_cancel_left_eq, List.singleton_append, List.singleton_append,
      List.cons.injEq] at heq
    exact absurd heq.1.symm (ne_of_lt hlt)

/-- A walk meets every file at or below where it began. -/
theorem exists_mem_walk {node : Node} (hproper : node.Proper) {base : String}
    (hbase : disk.resolve? base = some place) (hnode : disk.root.find? place = some node)
    {names : List String} {contents : Contents} (h : node.find? names = some (.file contents)) :
    ∃ e ∈ node.walk base, disk.resolve? e.1 = some (place ++ names) := by
  induction names generalizing node base place with
  | nil =>
    cases h
    refine ⟨(base, contents), ?_, by simpa using hbase⟩
    rw [Node.walk]
    exact List.mem_singleton_self _
  | cons name names ih =>
    obtain ⟨entries, rfl⟩ := Node.isFolder_of_find? h
    rw [Node.find?, Option.bind_eq_some_iff] at h
    obtain ⟨child, hchild, h⟩ := h
    cases hproper with
    | folder hnames hsorted hproper =>
      have hentry := Node.mem_of_lookup hchild
      obtain ⟨hjoin, hfind⟩ := resolve?_join hbase hnode (hnames _ hentry) hchild
      obtain ⟨e, he, hresolve⟩ := ih (hproper _ hentry) hjoin hfind h
      refine ⟨e, ?_, by simpa using hresolve⟩
      rw [Node.walk, Node.walkEntries_eq_flatMap, List.mem_flatMap]
      exact ⟨_, hentry, he⟩

/-! ## Source files -/

/-- A place where a source file is: a file whose name ends in `.java`. -/
structure IsSourceFile (disk : Disk) (place : List String) : Prop where
  file : ∃ contents, disk.root.find? place = some (.file contents)
  source : ∃ name, place.getLast? = some name ∧ isSource name = true

/-- A place at or below the one that a path leads to. -/
def Beneath (disk : Disk) (root : String) (place : List String) : Prop :=
  ∃ base, disk.resolve? root = some base ∧ base <+: place

/-- The names on the way to something are names. -/
theorem isName_of_find? {node found : Node} (hproper : node.Proper) {names : List String}
    (h : node.find? names = some found) : ∀ name ∈ names, IsName name := by
  induction names generalizing node with
  | nil => simp
  | cons name names ih =>
    obtain ⟨entries, rfl⟩ := Node.isFolder_of_find? h
    rw [Node.find?, Option.bind_eq_some_iff] at h
    obtain ⟨child, hchild, h⟩ := h
    cases hproper with
    | folder hnames _ hproper =>
      have hentry := Node.mem_of_lookup hchild
      rw [List.forall_mem_cons]
      exact ⟨hnames _ hentry, ih (hproper _ hentry) h⟩

/-- Whether a path is that of a source file is a matter of where it leads. -/
theorem isSource_iff (hproper : disk.Proper) {contents : Contents}
    (h : disk.resolve? path = some place) (hfile : disk.root.find? place = some (.file contents)) :
    isSource path = true ↔ disk.IsSourceFile place := by
  have hname := fileName?_of_resolve h hfile
  rcases List.eq_nil_or_concat place with rfl | ⟨front, name, rfl⟩
  · have hnone : fileName? path = none := hname
    constructor
    · intro hsource
      simp [isSource, extension?, hnone] at hsource
    · rintro ⟨-, name, hlast, -⟩
      cases hlast
  · rw [List.concat_eq_append] at hfile hname ⊢
    have hisName : IsName name := isName_of_find? hproper hfile name (by simp)
    have hlast : (front ++ [name]).getLast? = some name := by simp
    have hself : fileName? name = some name := by
      have hsplit : Text.split '/' name = [] ++ [name] := by
        rw [Text.split, Text.splitOnChar_eq_singleton hisName.noSlash]
        simp
      exact fileName?_of_split hsplit hisName
    have hextension : isSource path = isSource name := by
      rw [isSource, isSource, extension?_congr (hname.trans (hlast.trans hself.symm))]
    rw [hextension]
    constructor
    · exact fun hsource => ⟨⟨_, hfile⟩, name, hlast, hsource⟩
    · rintro ⟨-, other, hother, hsource⟩
      rw [hlast, Option.some.injEq] at hother
      exact hother ▸ hsource

/-- Where the source paths below a path lead, and what their parts are. -/
theorem mem_sourcePaths_spec (hproper : disk.Proper) (h : path ∈ disk.sourcePaths root) :
    ∃ base names, disk.resolve? root = some base ∧ disk.resolve? path = some (base ++ names)
      ∧ disk.IsSourceFile (base ++ names) ∧ components path = components root ++ names := by
  rw [sourcePaths, List.mem_filter] at h
  obtain ⟨h, hsource⟩ := h
  obtain ⟨e, he, rfl⟩ := List.mem_map.mp h
  cases hwalk : disk.walk? root with
  | none => simp [hwalk] at he
  | some files =>
    rw [hwalk, Option.getD_some] at he
    rw [walk?, Option.map_eq_some_iff] at hwalk
    obtain ⟨node, hfind, rfl⟩ := hwalk
    rw [Disk.find?, Option.bind_eq_some_iff] at hfind
    obtain ⟨base, hbase, hnode⟩ := hfind
    obtain ⟨names, hresolve, hfile, hcomponents⟩ :=
      mem_walk_spec (proper_of_find? hproper hnode) hbase hnode e he
    exact ⟨base, names, hbase, hresolve, (isSource_iff hproper hresolve hfile).mp hsource,
      hcomponents⟩

/-- The source paths below a path lead to the source files below where it leads. -/
theorem exists_mem_sourcePaths (hproper : disk.Proper) :
    (∃ path ∈ disk.sourcePaths root, disk.resolve? path = some place)
      ↔ disk.Beneath root place ∧ disk.IsSourceFile place := by
  constructor
  · rintro ⟨path, hpath, hresolve⟩
    obtain ⟨base, names, hbase, hresolve', hsource, -⟩ := mem_sourcePaths_spec hproper hpath
    cases hresolve.symm.trans hresolve'
    exact ⟨⟨base, hbase, List.prefix_append ..⟩, hsource⟩
  · rintro ⟨⟨base, hbase, names, rfl⟩, hsource⟩
    obtain ⟨contents, hfile⟩ := hsource.file
    have hbelow := hfile
    rw [Node.find?_append, Option.bind_eq_some_iff] at hbelow
    obtain ⟨node, hnode, hnames⟩ := hbelow
    obtain ⟨e, he, hresolve⟩ :=
      exists_mem_walk (proper_of_find? hproper hnode) hbase hnode hnames
    refine ⟨e.1, ?_, hresolve⟩
    have hwalk : disk.walk? root = some (node.walk root) := by
      rw [walk?, Disk.find?, hbase, Option.bind_some, hnode, Option.map_some]
    rw [sourcePaths, hwalk, Option.getD_some, List.mem_filter]
    exact ⟨List.mem_map_of_mem he, (isSource_iff hproper hresolve hfile).mpr hsource⟩

/-- No two source paths below a path lead to one place. -/
theorem nodup_sourcePaths (hproper : disk.Proper) (root : String) :
    ((disk.sourcePaths root).map disk.resolve?).Nodup := by
  rw [sourcePaths]
  refine List.Nodup.sublist (List.filter_sublist.map _) ?_
  cases hwalk : disk.walk? root with
  | none => exact List.nodup_nil
  | some files =>
    rw [walk?, Option.map_eq_some_iff] at hwalk
    obtain ⟨node, hfind, rfl⟩ := hwalk
    rw [Disk.find?, Option.bind_eq_some_iff] at hfind
    obtain ⟨base, hbase, hnode⟩ := hfind
    rw [Option.getD_some, List.map_map]
    exact nodup_walk (proper_of_find? hproper hnode) hbase hnode

end Disk

end Conformance
