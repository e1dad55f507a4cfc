import Mathlib.Data.List.MinMax
import Conformance.Classpath.Index
import Conformance.Proofs.Path

/-!
# Classes for different releases

What release a member of an archive is for is read off the parts of its name, and comes down to
two folders (`releaseOf?_eq_some_iff`). Of two classes of a name the later one takes the place of
the earlier one only if it counts more, which is a comparison of ranks (`takesPlace_iff`); so what
is left after a number of them is the first one with the greatest rank (`getElem?_foldl_add`),
and where that one stands is told by what stands before and behind it
(`argmax_eq_some_iff_append`).
-/

namespace Conformance

namespace Text

/-- A text with a separator falls into what stands in front of it and the parts behind it. -/
theorem splitOnChar_eq_cons_iff {sep : Char} {text first : List Char} {others : List (List Char)}
    (hne : others ≠ []) : splitOnChar sep text = first :: others
      ↔ sep ∉ first ∧ ∃ rest, text = first ++ sep :: rest ∧ splitOnChar sep rest = others := by
  constructor
  · intro h
    refine ⟨not_mem_of_mem_splitOnChar (h ▸ List.mem_cons_self ..), ?_⟩
    by_cases hsep : sep ∈ text
    · obtain ⟨before, rest, rfl, hbefore⟩ := List.eq_append_cons_of_mem hsep
      rw [splitOnChar_append_cons, splitOnChar_eq_singleton hbefore, List.singleton_append,
        List.cons.injEq] at h
      exact ⟨rest, by rw [h.1], h.2⟩
    · rw [splitOnChar_eq_singleton hsep, List.cons.injEq] at h
      exact absurd h.2.symm hne
  · rintro ⟨hfirst, rest, rfl, rfl⟩
    rw [splitOnChar_append_cons, splitOnChar_eq_singleton hfirst, List.singleton_append]

end Text

namespace Classpath

open Text

/-! ## Names of members -/

/-- A name in the folder where an archive says something about itself. -/
def InMetaInf (name : String) : Prop := "META-INF/".toList <+: name.toList

instance (name : String) : Decidable (InMetaInf name) := inferInstanceAs (Decidable (_ <+: _))

/-- A name in the folder with the versions for one release. -/
def InVersions (name : String) (release : Nat) : Prop :=
  ∃ number rest, name.toList = "META-INF/versions/".toList ++ (number ++ '/' :: rest)
    ∧ '/' ∉ number ∧ releaseNumber? (String.ofList number) = some release

theorem split_eq_cons_iff {name first : String} {others : List String} (hne : others ≠ []) :
    split '/' name = first :: others ↔ '/' ∉ first.toList
      ∧ ∃ rest, name.toList = first.toList ++ '/' :: rest
        ∧ split '/' (String.ofList rest) = others := by
  rw [split, List.map_eq_cons_iff]
  constructor
  · rintro ⟨part, parts, hsplit, rfl, rfl⟩
    obtain ⟨hpart, rest, hname, hrest⟩ :=
      (splitOnChar_eq_cons_iff fun h => hne (by rw [h, List.map_nil])).mp hsplit
    exact ⟨by simpa using hpart, rest, by simpa using hname, by simp [split, hrest]⟩
  · rintro ⟨hfirst, rest, hname, rfl⟩
    refine ⟨first.toList, splitOnChar '/' rest, ?_, String.ofList_toList, by simp [split]⟩
    exact (splitOnChar_eq_cons_iff (splitOnChar_ne_nil '/' rest)).mpr ⟨hfirst, rest, hname, rfl⟩

theorem split_ne_nil (sep : Char) (name : String) : split sep name ≠ [] := by
  simp [split, splitOnChar_ne_nil]

theorem inMetaInf_iff {name : String} :
    InMetaInf name ↔ ∃ part parts, split '/' name = "META-INF" :: part :: parts := by
  have hslash : '/' ∉ "META-INF".toList := by decide
  have hfolder : "META-INF/".toList = "META-INF".toList ++ ['/'] := by decide
  constructor
  · rintro ⟨rest, hname⟩
    obtain ⟨part, parts, hparts⟩ :=
      List.exists_cons_of_ne_nil (split_ne_nil '/' (String.ofList rest))
    refine ⟨part, parts, (split_eq_cons_iff (by simp)).mpr ⟨hslash, rest, ?_, hparts⟩⟩
    rw [← hname, hfolder, List.append_assoc, List.singleton_append]
  · rintro ⟨part, parts, hsplit⟩
    obtain ⟨-, rest, hname, -⟩ := (split_eq_cons_iff (by simp)).mp hsplit
    exact ⟨rest, by rw [hname, hfolder, List.append_assoc, List.singleton_append]⟩

theorem inVersions_iff {name : String} {release : Nat} :
    InVersions name release ↔ ∃ number part parts,
      split '/' name = "META-INF" :: "versions" :: number :: part :: parts
        ∧ releaseNumber? number = some release := by
  have hslash : '/' ∉ "META-INF".toList := by decide
  have hslash' : '/' ∉ "versions".toList := by decide
  have hfolder : "META-INF/versions/".toList
      = "META-INF".toList ++ ('/' :: ("versions".toList ++ ['/'])) := by decide
  constructor
  · rintro ⟨number, rest, hname, hnumber, hrelease⟩
    obtain ⟨part, parts, hparts⟩ :=
      List.exists_cons_of_ne_nil (split_ne_nil '/' (String.ofList rest))
    refine ⟨String.ofList number, part, parts, ?_, hrelease⟩
    refine (split_eq_cons_iff (by simp)).mpr
      ⟨hslash, "versions".toList ++ '/' :: (number ++ '/' :: rest), by simp [hname, hfolder], ?_⟩
    refine (split_eq_cons_iff (by simp)).mpr ⟨hslash', number ++ '/' :: rest, by simp, ?_⟩
    exact (split_eq_cons_iff (by simp)).mpr ⟨by simpa using hnumber, rest, by simp, hparts⟩
  · rintro ⟨number, part, parts, hsplit, hrelease⟩
    obtain ⟨-, rest, hname, hsplit⟩ := (split_eq_cons_iff (by simp)).mp hsplit
    obtain ⟨-, rest', hname', hsplit⟩ := (split_eq_cons_iff (by simp)).mp hsplit
    obtain ⟨hnumber, rest'', hname'', -⟩ := (split_eq_cons_iff (by simp)).mp hsplit
    rw [String.toList_ofList] at hname' hname''
    exact ⟨number.toList, rest'', by simp [hname, hname', hname'', hfolder], hnumber,
      by simpa using hrelease⟩

theorem InVersions.inMetaInf {name : String} {release : Nat} (h : InVersions name release) :
    InMetaInf name := by
  obtain ⟨number, part, parts, hsplit, -⟩ := inVersions_iff.mp h
  exact inMetaInf_iff.mpr ⟨_, _, hsplit⟩

theorem releaseOf?_of_not_inMetaInf {multiRelease : Bool} {name : String} (h : ¬ InMetaInf name) :
    releaseOf? multiRelease name = some 0 := by
  rw [inMetaInf_iff] at h
  unfold releaseOf?
  split
  · next part parts hsplit => exact absurd ⟨part, parts, hsplit⟩ h
  · rfl

theorem releaseOf?_of_inMetaInf {multiRelease : Bool} {name : String} (h : InMetaInf name)
    {release : Nat} : releaseOf? multiRelease name = some release
      ↔ multiRelease = true ∧ InVersions name release := by
  obtain ⟨part, parts, hsplit⟩ := inMetaInf_iff.mp h
  rw [inVersions_iff, hsplit]
  by_cases hversions : ∃ number last others, part :: parts = "versions" :: number :: last :: others
  · obtain ⟨number, last, others, heq⟩ := hversions
    cases heq
    simp [releaseOf?, hsplit]
  · have hnone : releaseOf? multiRelease name = none := by
      simp only [releaseOf?, hsplit]
      split
      · next number last others _ heq _ => exact absurd ⟨number, last, others, heq⟩ hversions
      · rfl
    rw [hnone]
    constructor
    · intro hrelease
      cases hrelease
    · rintro ⟨-, number, last, others, heq, -⟩
      exact absurd ⟨number, last, others, (List.cons.inj heq).2⟩ hversions

/-- What release a member is for is a matter of the folder that it is in. -/
theorem releaseOf?_eq_some_iff {multiRelease : Bool} {name : String} {release : Nat} :
    releaseOf? multiRelease name = some release
      ↔ ¬ InMetaInf name ∧ release = 0 ∨ multiRelease = true ∧ InVersions name release := by
  by_cases h : InMetaInf name
  · rw [releaseOf?_of_inMetaInf h]
    simp [h]
  · have hversions : ¬ InVersions name release := fun hin => h hin.inMetaInf
    rw [releaseOf?_of_not_inMetaInf h]
    simp [h, hversions, eq_comm]

theorem inVersions_iff_releaseOf? {name : String} {release : Nat} :
    InVersions name release ↔ InMetaInf name ∧ releaseOf? true name = some release := by
  constructor
  · exact fun h => ⟨h.inMetaInf, releaseOf?_eq_some_iff.mpr (.inr ⟨rfl, h⟩)⟩
  · rintro ⟨hin, h⟩
    exact ((releaseOf?_of_inMetaInf hin).mp h).2

instance (name : String) (release : Nat) : Decidable (InVersions name release) :=
  decidable_of_iff _ inVersions_iff_releaseOf?.symm

/-! ## Which class counts -/

/-- How much a class for a release counts; one outside `META-INF` counts more than all others. -/
def rank (release : Nat) : WithTop Nat := if release = 0 then ⊤ else WithTop.some release

theorem takesPlace_iff {release other : Nat} :
    takesPlace release other = true ↔ rank other < rank release := by
  unfold takesPlace rank
  by_cases hother : other = 0
  · simp [hother]
  · by_cases hrelease : release = 0
    · simp [hother, hrelease]
    · rw [if_neg hother, if_neg hrelease, WithTop.coe_lt_coe]
      simp [hother, hrelease]

theorem rank_le_rank_zero (release : Nat) : rank release ≤ rank 0 := by
  rw [rank, rank, if_pos rfl]
  exact le_top

theorem rank_lt_rank_zero {release : Nat} (h : release ≠ 0) : rank release < rank 0 :=
  takesPlace_iff.mp (by simp [takesPlace, h])

theorem rank_lt_rank {release other : Nat} (h : other ≠ 0) (h' : release ≠ 0) :
    rank other < rank release ↔ other < release := by
  rw [← takesPlace_iff]
  simp [takesPlace, h, h']

theorem rank_le_rank {release other : Nat} (h : other ≠ 0) (h' : release ≠ 0) :
    rank other ≤ rank release ↔ other ≤ release := by
  rw [← not_lt, rank_lt_rank h' h, not_lt]

/-- A class with the release it is for. -/
abbrev Candidate := Nat × ClassStub

theorem getElem?_add (best : Best) (c : Candidate) (name : String) :
    (best.add c.1 c.2)[name]? = if c.2.binaryName = name
      then List.argAux (fun b c : Candidate => rank c.1 < rank b.1) best[name]? c
      else best[name]? := by
  unfold Best.add
  by_cases hname : c.2.binaryName = name
  · subst hname
    rw [if_pos rfl]
    cases hbest : best[c.2.binaryName]? with
    | none => simp [List.argAux]
    | some other =>
      by_cases htakes : takesPlace c.1 other.1 = true
      · simp [htakes, List.argAux, takesPlace_iff.mp htakes]
      · have hrank := takesPlace_iff.not.mp htakes
        simp [htakes, List.argAux, hrank, hbest]
  · rw [if_neg hname]
    have hinsert : (best.insert c.2.binaryName c)[name]? = best[name]? := by
      rw [Std.ExtTreeMap.getElem?_insert, if_neg]
      simpa using hname
    split
    · exact hinsert
    · split
      · exact hinsert
      · rfl

/-- Of the classes of a name the first one that counts most is kept. -/
theorem getElem?_foldl_add (candidates : List Candidate) (name : String) :
    (candidates.foldl (fun best c => best.add c.1 c.2) (∅ : Best))[name]?
      = (candidates.filter (·.2.binaryName = name)).argmax fun c => rank c.1 := by
  induction candidates using List.reverseRecOn with
  | nil => simp
  | append_singleton candidates c ih =>
    rw [List.foldl_concat, getElem?_add, ih, List.filter_append, List.filter_singleton]
    by_cases hname : c.2.binaryName = name
    · simp [hname, List.argmax, List.foldl_append]
    · simp [hname]

/-- The first of the greatest elements stands between smaller ones and ones that are not
greater. -/
theorem argmax_eq_some_iff_append {α β : Type*} [LinearOrder β] {f : α → β} {l : List α} {a : α} :
    l.argmax f = some a ↔ ∃ before after, l = before ++ a :: after
      ∧ (∀ b ∈ before, f b < f a) ∧ ∀ b ∈ after, f b ≤ f a := by
  constructor
  · intro h
    induction l generalizing a with
    | nil => cases h
    | cons x l ih =>
      rw [List.argmax_cons] at h
      cases hl : l.argmax f with
      | none =>
        rw [hl] at h
        cases h
        rw [List.argmax_eq_none.mp hl]
        exact ⟨[], [], rfl, by simp, by simp⟩
      | some c =>
        rw [hl] at h
        dsimp only at h
        split at h
        · next hlt =>
          cases h
          obtain ⟨before, after, rfl, hbefore, hafter⟩ := ih hl
          exact ⟨x :: before, after, rfl, List.forall_mem_cons.mpr ⟨hlt, hbefore⟩, hafter⟩
        · next hle =>
          cases h
          exact ⟨[], l, rfl, by simp,
            fun b hb => (List.le_of_mem_argmax hb hl).trans (not_lt.mp hle)⟩
  · rintro ⟨before, after, rfl, hbefore, hafter⟩
    induction before with
    | nil =>
      rw [List.nil_append, List.argmax_cons]
      cases hl : after.argmax f with
      | none => rfl
      | some c =>
        dsimp only
        rw [if_neg (not_lt.mpr (hafter c (List.argmax_mem hl)))]
    | cons x before ih =>
      rw [List.forall_mem_cons] at hbefore
      rw [List.cons_append, List.argmax_cons, ih hbefore.2]
      dsimp only
      rw [if_pos hbefore.1]

end Classpath

end Conformance
