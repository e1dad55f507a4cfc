import Conformance.Disk.Path

/-!
# Paths and their last part

Following a path down a tree adds names at its end, and what a file is taken for is decided by
the last of them. Both directions are needed: the parts of a path with a name joined to it
(`split_join`), and the extension as a matter of the last part alone (`extension?_congr`).

A text is known by its parts (`Text.eq_of_splitOnChar`), and one text begins with all parts of
another exactly if it is the same or goes on with a separator (`Text.splitOnChar_prefix_iff`).
-/

namespace Conformance

namespace Text

theorem splitOnChar_ne_nil (sep : Char) (text : List Char) : splitOnChar sep text ≠ [] := by
  cases text with
  | nil => simp [splitOnChar]
  | cons c text =>
    rw [splitOnChar]
    split
    · simp
    · split <;> simp

theorem splitOnChar_append_cons (sep : Char) (before after : List Char) :
    splitOnChar sep (before ++ sep :: after) = splitOnChar sep before ++ splitOnChar sep after := by
  induction before with
  | nil => simp [splitOnChar]
  | cons c before ih =>
    rw [List.cons_append, splitOnChar, splitOnChar, ih]
    split
    · rfl
    · cases h : splitOnChar sep before with
      | nil => exact absurd h (splitOnChar_ne_nil sep before)
      | cons part parts => rfl

/-- No part holds the separator. -/
theorem not_mem_of_mem_splitOnChar {sep : Char} {text part : List Char}
    (h : part ∈ splitOnChar sep text) : sep ∉ part := by
  induction text generalizing part with
  | nil =>
    rw [splitOnChar, List.mem_singleton] at h
    simp [h]
  | cons c text ih =>
    rw [splitOnChar] at h
    split at h
    · rcases List.mem_cons.mp h with rfl | h
      · simp
      · exact ih h
    · next hc =>
      cases hs : splitOnChar sep text with
      | nil =>
        rw [hs] at h
        simp only [List.mem_singleton] at h
        simp [h, Ne.symm hc]
      | cons first others =>
        rw [hs] at h
        rcases List.mem_cons.mp h with rfl | h
        · have := ih (hs ▸ List.mem_cons_self ..)
          simp [Ne.symm hc, this]
        · exact ih (hs ▸ List.mem_cons_of_mem _ h)

/-- A text without the separator is one part. -/
theorem splitOnChar_eq_singleton {sep : Char} {text : List Char} (h : sep ∉ text) :
    splitOnChar sep text = [text] := by
  induction text with
  | nil => rfl
  | cons c text ih =>
    rw [List.mem_cons, not_or] at h
    rw [splitOnChar, if_neg (Ne.symm h.1), ih h.2]

/-- A text is its parts with the separator between. -/
theorem eq_of_splitOnChar {sep : Char} {text first : List Char} {others : List (List Char)}
    (h : splitOnChar sep text = first :: others) :
    text = first ++ others.flatMap (sep :: ·) := by
  induction text generalizing first others with
  | nil =>
    rw [splitOnChar, List.cons.injEq] at h
    obtain ⟨rfl, rfl⟩ := h
    rfl
  | cons c text ih =>
    rw [splitOnChar] at h
    split at h
    · next hc =>
      rw [List.cons.injEq] at h
      obtain ⟨rfl, rfl⟩ := h
      cases hsplit : splitOnChar sep text with
      | nil => exact absurd hsplit (splitOnChar_ne_nil sep text)
      | cons part parts => rw [hc, List.flatMap_cons, ih hsplit, List.nil_append, List.cons_append]
    · split at h
      · next hnil => exact absurd hnil (splitOnChar_ne_nil sep text)
      · next part parts hsplit =>
        rw [List.cons.injEq] at h
        obtain ⟨rfl, rfl⟩ := h
        rw [List.cons_append, ← ih hsplit]

/-- The parts of one text come first among those of another one exactly if the other one goes on
with the separator where the one ends, if it goes on at all. -/
theorem splitOnChar_prefix_iff {sep : Char} {text longer : List Char} :
    splitOnChar sep text <+: splitOnChar sep longer
      ↔ longer = text ∨ ∃ rest, longer = text ++ sep :: rest := by
  constructor
  · rintro ⟨more, hparts⟩
    obtain ⟨first, others, htext⟩ := List.exists_cons_of_ne_nil (splitOnChar_ne_nil sep text)
    rw [htext, List.cons_append] at hparts
    rw [eq_of_splitOnChar htext, eq_of_splitOnChar hparts.symm, List.flatMap_append]
    cases more with
    | nil => simp
    | cons next more => exact .inr ⟨next ++ more.flatMap (sep :: ·), by simp⟩
  · rintro (rfl | ⟨rest, rfl⟩)
    · exact List.prefix_rfl
    · exact ⟨splitOnChar sep rest, (splitOnChar_append_cons ..).symm⟩

end Text

namespace Path

open Text

/-- What the entry of a folder can be called. -/
structure IsName (name : String) : Prop where
  nonempty : name ≠ ""
  noSlash : '/' ∉ name.toList
  notDot : name ≠ "."
  notUp : name ≠ ".."

theorem IsName.not_filler {name : String} (h : IsName name) : isFiller name = false := by
  simp [isFiller, h.nonempty, h.notDot]

theorem IsName.not_absolute {name : String} (h : IsName name) : isAbsolute name = false := by
  rw [isAbsolute, decide_eq_false_iff_not]
  intro hhead
  exact h.noSlash (List.mem_of_head? hhead)

/-- A name joined to a path comes after the parts of the path; where the path ends in a slash,
it takes the place of the empty part after that. -/
theorem split_join {base name : String} (hbase : base ≠ "") (h : IsName name) :
    isAbsolute (join base name) = isAbsolute base ∧
      ∃ parts, split '/' (join base name) = parts ++ [name]
        ∧ (split '/' base = parts ∨ split '/' base = parts ++ [""]) := by
  have hlist : base.toList ≠ [] := fun e => hbase (String.toList_eq_nil_iff.mp e)
  have hhead : ∀ rest : String, isAbsolute (base ++ rest) = isAbsolute base := by
    intro rest
    rw [isAbsolute, isAbsolute, String.toList_append, List.head?_append]
    cases hl : base.toList with
    | nil => exact absurd hl hlist
    | cons c chars => rfl
  rw [join, if_neg (by simp [h.not_absolute])]
  split
  · next hslash =>
    refine ⟨hhead name, ?_⟩
    have hlast : base.toList.getLast? = some '/' := by
      simpa [hbase] using hslash
    obtain ⟨front, hfront⟩ := List.getLast?_eq_some_iff.mp hlast
    refine ⟨(splitOnChar '/' front).map String.ofList, ?_, .inr ?_⟩
    · rw [split, String.toList_append, hfront, List.append_assoc, List.singleton_append,
        splitOnChar_append_cons, splitOnChar_eq_singleton h.noSlash]
      simp
    · -- the last slash leaves an empty part behind
      rw [split, hfront, splitOnChar_append_cons]
      simp [splitOnChar]
  · refine ⟨by rw [String.append_assoc]; exact hhead _, split '/' base, ?_, .inl rfl⟩
    have : ("/" ++ name).toList = '/' :: name.toList := by simp
    rw [split, split, String.append_assoc, String.toList_append, this, splitOnChar_append_cons,
      splitOnChar_eq_singleton h.noSlash]
    simp

/-- The parts that count come one after the other. -/
theorem components_join {base name : String} (hbase : base ≠ "") (h : IsName name) :
    components (join base name) = components base ++ [name] := by
  obtain ⟨habsolute, parts, hjoin, hparts⟩ := split_join hbase h
  have hne : parts ≠ [] := by
    rintro rfl
    rcases hparts with hparts | hparts
    · simp [split, splitOnChar_ne_nil] at hparts
    · -- a path of one empty part is empty
      have hone : splitOnChar '/' base.toList = [[]] := by
        simpa [split, List.map_eq_singleton_iff] using hparts
      cases hlist : base.toList with
      | nil => exact hbase (String.toList_eq_nil_iff.mp hlist)
      | cons c chars =>
        rw [hlist, splitOnChar] at hone
        split at hone
        · simp [splitOnChar_ne_nil] at hone
        · split at hone <;> simp at hone
  have hhead : (split '/' (join base name)).head? = (split '/' base).head? := by
    obtain ⟨part, others, rfl⟩ := List.exists_cons_of_ne_nil hne
    rcases hparts with hparts | hparts <;> simp [hjoin, hparts]
  have hfilter : (split '/' (join base name)).filter (!isFiller ·)
      = (split '/' base).filter (!isFiller ·) ++ [name] := by
    rcases hparts with hparts | hparts
    · simp [hjoin, hparts, h.not_filler]
    · -- what follows the last slash counts for nothing
      simp [hjoin, hparts, isFiller, h.nonempty, h.notDot]
  rw [components, components, habsolute, hhead, hfilter, List.append_assoc]

theorem ne_slash_of_mem_split {path part : String} (h : part ∈ split '/' path) : part ≠ "/" := by
  rintro rfl
  obtain ⟨chars, hchars, heq⟩ := List.mem_map.mp h
  rw [← String.toList_inj, String.toList_ofList] at heq
  exact not_mem_of_mem_splitOnChar hchars (by simp [heq])

/-- Whether a path is absolute shows in the parts that count. -/
theorem isAbsolute_iff_mem (path : String) : isAbsolute path = true ↔ "/" ∈ components path := by
  rw [components]
  split
  · next habsolute => simp [habsolute]
  · next hrelative =>
    have hparts : "/" ∉ split '/' path := fun h => ne_slash_of_mem_split h rfl
    split <;> simp [hrelative, hparts]

/-- What says where a path leads, apart from where it starts, shows in the parts that count. -/
theorem filter_split (path : String) : (split '/' path).filter (!isFiller ·)
    = (components path).filter fun part => part ≠ "/" && !isFiller part := by
  have hparts : ∀ part ∈ split '/' path,
      (!isFiller part) = ((part ≠ "/" && !isFiller part) && !isFiller part) := by
    intro part hpart
    simp [ne_slash_of_mem_split hpart]
  rw [components, List.filter_append, List.filter_filter, ← List.filter_congr hparts]
  split
  · rfl
  · split <;> rfl

/-- The last part of a path is its file name, if it is a name. -/
theorem fileName?_of_split {path name : String} {parts : List String}
    (hsplit : split '/' path = parts ++ [name]) (h : IsName name) : fileName? path = some name := by
  have hlast : (components path).getLast? = some name := by
    simp [components, hsplit, h.not_filler, List.getLast?_append]
  rw [fileName?, hlast]
  have hslash : name ≠ "/" := by
    rintro rfl
    exact h.noSlash (by simp)
  split
  · next he => exact absurd (Option.some.inj he) hslash
  · next he => exact absurd (Option.some.inj he) h.notDot
  · next he => exact absurd (Option.some.inj he) h.notUp
  · next he => cases he
  · next he => exact he.symm

/-- Paths with the same file name have the same extension. -/
theorem extension?_congr {p q : String} (h : fileName? p = fileName? q) :
    extension? p = extension? q := by
  unfold extension?
  rw [h]

end Path

end Conformance
