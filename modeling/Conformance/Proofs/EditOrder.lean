import Mathlib.Data.List.Pairwise
import Mathlib.Data.List.Nodup
import Conformance.Proofs.Aligned
import Conformance.Proofs.TextEdits

/-!
# Several edits at once

Edits come as a list but mean what they make of one text all at once, so their order must not
matter. Which edits can be made together is said without an order (`TextEdit.Clash`), while the
check sorts them and looks at neighbours. That this is enough rests on one relation: of edits that
do not clash one comes `Before` the other, and coming before is transitive.

The result is said by `TextEdit.Spliced`, for the edits put in order; touching edits are allowed
there, and an insertion at the start of a range can only stand in front of it. Merging edits that
touch keeps what they make of a text (`Spliced.mergeOnto`) and leaves something between the edits
(`separated_merge`), so edits that were normalized are normal (`applyAll_exact`).
-/

namespace Conformance

open Text

namespace TextEdit

variable {text result : List Char} {edits : List TextEdit} {a b c e : TextEdit}

/-! ## Ranges of a text -/

theorem check_eq_ok_iff : e.check text = .ok () ↔ e.start ≤ e.stop ∧ e.stop ≤ byteSize text
    ∧ isBoundary text e.start = true ∧ isBoundary text e.stop = true := by
  unfold check
  split
  · simp only [reduceCtorEq, false_iff]
    omega
  · next hbounds =>
    have hle : e.start ≤ e.stop ∧ e.stop ≤ byteSize text := by omega
    cases isBoundary text e.start <;> cases isBoundary text e.stop <;> simp [hle]

/-- A range whose ends lie between characters is what some part of the text takes up. -/
theorem fits_iff : e.Fits text ↔ e.start ≤ e.stop ∧ e.stop ≤ byteSize text
    ∧ isBoundary text e.start = true ∧ isBoundary text e.stop = true := by
  rw [← check_eq_ok_iff]
  refine ⟨Fits.check_eq, fun h => ?_⟩
  obtain ⟨hle, -, hstart, hstop⟩ := check_eq_ok_iff.mp h
  obtain ⟨before, rest, htext, hbefore⟩ := isBoundary_iff.mp hstart
  obtain ⟨passed, after, rfl, hpassed⟩ := isBoundary_iff.mp hstop
  obtain ⟨old, rfl⟩ : before <+: passed :=
    prefix_of_byteSize_le ⟨rest, htext.symm⟩ ⟨after, rfl⟩ (by omega)
  rw [byteSize_append] at hpassed
  exact ⟨before, old, after, rfl, hbefore.symm, by omega⟩

theorem forM_check_eq_ok_iff :
    edits.forM (check text) = .ok () ↔ ∀ e ∈ edits, e.Fits text := by
  refine ⟨fun h => ?_, forM_check_eq⟩
  induction edits with
  | nil => simp
  | cons e edits ih =>
    rw [List.forM_eq_forM, List.forM_cons] at h
    cases hcheck : e.check text with
    | error fault =>
      rw [hcheck] at h
      cases h
    | ok =>
      rw [hcheck] at h
      exact List.forall_mem_cons.mpr ⟨fits_iff.mpr (check_eq_ok_iff.mp hcheck), ih h⟩

/-! ## The order of ranges -/

/-- Which of two ranges comes first: the one that begins first, or else the one that ends first. -/
def NotAfter (r r' : ByteRange) : Prop :=
  r.start < r'.start ∨ (r.start = r'.start ∧ r.stop ≤ r'.stop)

theorem startsBefore_iff : a.startsBefore b = true ↔ NotAfter a.range b.range := by
  simp only [startsBefore, Bool.or_eq_true, Bool.and_eq_true, decide_eq_true_eq, NotAfter, range]

theorem notAfter_antisymm {r r' : ByteRange} (h : NotAfter r r') (h' : NotAfter r' r) : r = r' := by
  obtain ⟨start, stop⟩ := r
  obtain ⟨start', stop'⟩ := r'
  simp only [NotAfter] at h h'
  rw [ByteRange.mk.injEq]
  omega

/-- The edits sorted by their ranges. -/
def sorted (edits : List TextEdit) : List TextEdit := edits.mergeSort startsBefore

theorem sorted_perm (edits : List TextEdit) : (sorted edits).Perm edits := List.mergeSort_perm ..

theorem pairwise_sorted (edits : List TextEdit) :
    (sorted edits).Pairwise fun a b => NotAfter a.range b.range := by
  refine (List.pairwise_mergeSort (fun a b c hab hbc => ?_) (fun a b => ?_) edits).imp
    startsBefore_iff.mp
  · rw [startsBefore_iff] at *
    unfold NotAfter at *
    omega
  · rw [Bool.or_eq_true, startsBefore_iff, startsBefore_iff]
    unfold NotAfter
    omega

/-! ## Edits that get in each other's way -/

/-- Two edits get in each other's way if a part of the text belongs to both ranges, if one of them
inserts strictly inside the range of the other, or if both insert at one place. -/
def Clash (a b : TextEdit) : Prop :=
  (a.start < b.stop ∧ b.start < a.stop)
    ∨ (a.start = a.stop ∧ b.start = b.stop ∧ a.start = b.start)

/-- The first edit ends where the second one begins or before that, and they are not two insertions
at one place. -/
def Before (a b : TextEdit) : Prop := a.stop ≤ b.start ∧ a.start < b.stop

theorem Clash.symm (h : a.Clash b) : b.Clash a := by
  unfold Clash at *
  omega

theorem Before.trans (hb : b.start ≤ b.stop) (hc : c.start ≤ c.stop) (h : a.Before b)
    (h' : b.Before c) : a.Before c := by
  unfold Before at *
  omega

theorem Before.not_clash (h : a.Before b) : ¬ a.Clash b := by
  unfold Before at h
  unfold Clash
  omega

/-- Edits that do not clash stand in the order of their ranges. -/
theorem before_of_not_clash (ha : a.start ≤ a.stop) (hb : b.start ≤ b.stop)
    (h : NotAfter a.range b.range) (hclash : ¬ a.Clash b) : a.Before b := by
  simp only [NotAfter, range] at h
  unfold Clash at hclash
  unfold Before
  omega

theorem overlaps_eq_false_iff (ha : a.start ≤ a.stop) (hb : b.start ≤ b.stop) :
    a.overlaps b = false ↔ a.Before b := by
  simp only [overlaps, Bool.or_eq_false_iff, Bool.and_eq_false_iff, decide_eq_false_iff_not]
  unfold Before
  omega

/-- Edits of one range clash. -/
theorem clash_of_range_eq (ha : a.start ≤ a.stop) (h : a.range = b.range) : a.Clash b := by
  simp only [range, ByteRange.mk.injEq] at h
  unfold Clash
  omega

/-- **It is enough to look at neighbours.** -/
theorem checkNeighbours_eq_ok_iff (hle : ∀ e ∈ edits, e.start ≤ e.stop) :
    checkNeighbours edits = .ok () ↔ edits.Pairwise Before := by
  induction edits with
  | nil => simp [checkNeighbours]
  | cons a edits ih =>
    rw [List.forall_mem_cons] at hle
    cases edits with
    | nil => simp [checkNeighbours]
    | cons b edits =>
      have hb := (List.forall_mem_cons.mp hle.2).1
      rw [checkNeighbours, List.pairwise_cons, ← ih hle.2]
      cases hoverlaps : a.overlaps b with
      | false =>
        have hab := (overlaps_eq_false_iff hle.1 hb).mp hoverlaps
        simp only [Bool.false_eq_true, if_false]
        refine ⟨fun h => ⟨fun c hc => ?_, h⟩, And.right⟩
        rcases List.mem_cons.mp hc with rfl | hc
        · exact hab
        · -- what comes after the neighbour comes after this edit as well
          have hbc := (List.pairwise_cons.mp ((ih hle.2).mp h)).1 c hc
          exact hab.trans hb (hle.2 c (List.mem_cons_of_mem _ hc)) hbc
      | true =>
        simp only [if_true, reduceCtorEq, false_iff]
        rintro ⟨hfirst, -⟩
        rw [(overlaps_eq_false_iff hle.1 hb).mpr (hfirst b (List.mem_cons_self ..))] at hoverlaps
        cases hoverlaps

/-! ## Edits that can be made together -/

/-- The edits can all be made at once. -/
structure Applicable (text : List Char) (edits : List TextEdit) : Prop where
  /-- Every range is a range of the text, with both ends between characters, -/
  ranges : ∀ e ∈ edits, e.start ≤ e.stop ∧ e.stop ≤ byteSize text
    ∧ isBoundary text e.start = true ∧ isBoundary text e.stop = true
  /-- and no two edits get in each other's way. -/
  apart : edits.Pairwise fun a b => ¬ a.Clash b

theorem Applicable.perm {other : List TextEdit} (h : Applicable text edits)
    (hperm : other.Perm edits) : Applicable text other where
  ranges e he := h.ranges e (hperm.mem_iff.mp he)
  apart := h.apart.perm hperm.symm fun hab hba => hab hba.symm

theorem Applicable.fits (h : Applicable text edits) : ∀ e ∈ edits, e.Fits text :=
  fun e he => fits_iff.mpr (h.ranges e he)

/-- Such edits can be put in order in one way only. -/
theorem Applicable.eq_of_sorted {ordered : List TextEdit} (h : Applicable text edits)
    (hperm : ordered.Perm edits) (hordered : ordered.Pairwise fun a b => NotAfter a.range b.range) :
    ordered = sorted edits := by
  refine (hperm.trans (sorted_perm edits).symm).eq_of_pairwise (fun a b ha hb hab hba => ?_)
    hordered (pairwise_sorted edits)
  have ha := hperm.mem_iff.mp ha
  by_contra hne
  have : Std.Symm fun a b : TextEdit => ¬ a.Clash b := ⟨fun _ _ hab hba => hab hba.symm⟩
  exact h.apart.forall ha ((sorted_perm edits).mem_iff.mp hb) hne
    (clash_of_range_eq (h.ranges a ha).1 (notAfter_antisymm hab hba))

theorem Applicable.pairwise_before (h : Applicable text edits) :
    (sorted edits).Pairwise Before := by
  have hsorted := h.perm (sorted_perm edits)
  refine ((pairwise_sorted edits).and hsorted.apart).imp_of_mem fun {a b} ha hb hab => ?_
  exact before_of_not_clash (hsorted.ranges a ha).1 (hsorted.ranges b hb).1 hab.1 hab.2

theorem normalize_def (text : String) (edits : List TextEdit) : normalize text edits = (do
    (sorted edits).forM (check text.toList)
    checkNeighbours (sorted edits)
    return merge (sorted edits)) := rfl

theorem normalize_eq_ok_iff {text : String} {normal : List TextEdit} :
    normalize text edits = .ok normal
      ↔ Applicable text.toList edits ∧ normal = merge (sorted edits) := by
  constructor
  · intro h
    rw [normalize_def] at h
    cases hforM : (sorted edits).forM (check text.toList) with
    | error fault =>
      rw [hforM] at h
      cases h
    | ok =>
      cases hneighbours : checkNeighbours (sorted edits) with
      | error fault =>
        rw [hforM, hneighbours] at h
        cases h
      | ok =>
        rw [hforM, hneighbours] at h
        cases h
        have hfits := forM_check_eq_ok_iff.mp hforM
        have hbefore := (checkNeighbours_eq_ok_iff fun e he => (hfits e he).start_le_stop).mp
          hneighbours
        have happlicable : Applicable text.toList (sorted edits) :=
          ⟨fun e he => fits_iff.mp (hfits e he), hbefore.imp Before.not_clash⟩
        exact ⟨happlicable.perm (sorted_perm edits).symm, rfl⟩
  · rintro ⟨h, rfl⟩
    have hsorted := h.perm (sorted_perm edits)
    rw [normalize_def, forM_check_eq_ok_iff.mpr hsorted.fits,
      (checkNeighbours_eq_ok_iff fun e he => (hsorted.ranges e he).1).mpr h.pairwise_before]
    rfl

/-! ## The order of the list -/

theorem forM_check_congr {others : List TextEdit}
    (h : List.Forall₂ (fun a b => b.range = a.range) edits others) :
    others.forM (check text) = edits.forM (check text) := by
  induction h with
  | nil => rfl
  | @cons a b _ _ hab _ ih =>
    have hcheck : b.check text = a.check text := by
      simp only [range, ByteRange.mk.injEq] at hab
      rw [check, check, hab.1, hab.2]
    simp only [List.forM_eq_forM] at ih ⊢
    rw [List.forM_cons, List.forM_cons, hcheck, ih]

theorem checkNeighbours_congr {others : List TextEdit}
    (h : List.Forall₂ (fun a b => b.range = a.range) edits others) :
    checkNeighbours others = checkNeighbours edits := by
  induction h with
  | nil => rfl
  | @cons a a' _ _ ha hrest ih =>
    cases hrest with
    | nil => rfl
    | @cons b b' _ _ hb _ =>
      have hoverlaps : a'.overlaps b' = a.overlaps b := by
        simp only [range, ByteRange.mk.injEq] at ha hb
        rw [overlaps, overlaps, ha.1, ha.2, hb.1, hb.2]
      rw [checkNeighbours, checkNeighbours, hoverlaps, ha, hb, ih]

/-- **The order in which edits are listed does not matter**, whether they can be made or not. -/
theorem normalize_perm {text : String} {others : List TextEdit} (hperm : others.Perm edits) :
    normalize text others = normalize text edits := by
  -- edits of one range may stand in either order, but what is checked are the ranges
  have hranges : (sorted others).map range = (sorted edits).map range :=
    (((sorted_perm others).trans (hperm.trans (sorted_perm edits).symm)).map range).eq_of_pairwise
      (fun _ _ _ _ => notAfter_antisymm) (List.pairwise_map.mpr (pairwise_sorted others))
      (List.pairwise_map.mpr (pairwise_sorted edits))
  have hsame := forall₂_of_map_eq hranges
  rw [normalize_def text others, forM_check_congr hsame, checkNeighbours_congr hsame]
  cases hforM : (sorted edits).forM (check text.toList) with
  | error fault => rw [normalize_def, hforM]; rfl
  | ok =>
    cases hneighbours : checkNeighbours (sorted edits) with
    | error fault => rw [normalize_def, hforM, hneighbours]; rfl
    | ok =>
      have hnormal : normalize text edits = .ok (merge (sorted edits)) := by
        rw [normalize_def, hforM, hneighbours]
        rfl
      have happlicable := (normalize_eq_ok_iff.mp hnormal).1
      rw [hnormal, happlicable.eq_of_sorted ((sorted_perm others).trans hperm) (pairwise_sorted others)]
      rfl

/-! ## Merging -/

/-- Merging edits that touch does not change what they make of a text. -/
theorem Spliced.mergeOnto {position : Nat} (h : Spliced position text (e :: edits) result) :
    Spliced position text (mergeOnto e edits) result := by
  induction edits generalizing e position text result with
  | nil => exact h
  | cons e' edits ih =>
    rw [TextEdit.mergeOnto]
    obtain ⟨⟩ | @⟨_, before, old, _, _, _, _, hstart, hstop, hrest⟩ := h
    split
    · next htouch =>
      obtain ⟨⟩ | @⟨_, before', old', after, result', _, _, hstart', hstop', hrest⟩ := hrest
      obtain rfl : before' = [] := eq_nil_of_byteSize_eq_zero (by omega)
      -- the two ranges are one, and so are the two replacements
      have hmerged : Spliced position (before ++ (old ++ old') ++ after)
          (⟨e.start, e'.stop, e.replacement ++ e'.replacement⟩ :: edits)
          (before ++ (e.replacement ++ e'.replacement).toList ++ result') :=
        .next hstart (by rw [byteSize_append]; dsimp only; omega) hrest
      rw [String.toList_append] at hmerged
      simpa only [List.append_assoc, List.nil_append] using ih hmerged
    · exact .next hstart hstop (ih hrest)

theorem Spliced.merge {position : Nat} (h : Spliced position text edits result) :
    Spliced position text (merge edits) result := by
  cases edits with
  | nil => exact h
  | cons e edits => exact h.mergeOnto

/-- Merged edits begin where the first of them does, or after that, and leave something between
them. -/
theorem separated_mergeOnto (hle : ∀ x ∈ e :: edits, x.start ≤ x.stop) (hord : InOrder (e :: edits)) :
    (∀ x ∈ mergeOnto e edits, e.start ≤ x.start) ∧ Separated (mergeOnto e edits) := by
  induction edits generalizing e with
  | nil => exact ⟨by simp [mergeOnto], List.pairwise_singleton ..⟩
  | cons e' edits ih =>
    simp only [InOrder, List.pairwise_cons, List.forall_mem_cons] at hle hord ih
    rw [mergeOnto]
    split
    · next htouch =>
      exact ih ⟨by dsimp only; omega, hle.2.2⟩ hord.2
    · next hgap =>
      obtain ⟨hbegin, hsep⟩ := ih hle.2 hord.2
      rw [List.forall_mem_cons]
      refine ⟨⟨Nat.le_refl _, fun x hx => ?_⟩, List.pairwise_cons.mpr ⟨fun x hx => ?_, hsep⟩⟩
      · have := hbegin x hx
        omega
      · have := hbegin x hx
        omega

theorem separated_merge (hle : ∀ x ∈ edits, x.start ≤ x.stop) (hord : InOrder edits) :
    Separated (merge edits) := by
  cases edits with
  | nil => exact .nil
  | cons e edits => exact (separated_mergeOnto hle hord).2

/-! ## One after the other -/

/-- The text with one edit made. -/
def replaceIn (e : TextEdit) (text : List Char) : List Char :=
  takeBytes e.start text ++ e.replacement.toList ++ dropBytes e.stop text

/-- Making edits one after the other, the last one first, makes them all at once: an edit does not
move what comes before it. -/
theorem Spliced.foldr_replaceIn {position : Nat} (h : Spliced position text edits result)
    {passed : List Char} (hpassed : byteSize passed = position) :
    edits.foldr replaceIn (passed ++ text) = passed ++ result := by
  induction h generalizing passed with
  | rest => rfl
  | @next position before old text result e edits hstart hstop _ ih =>
    have hbefore : byteSize (passed ++ before) = e.start := by
      rw [byteSize_append, hpassed, hstart]
    have hold : byteSize (passed ++ before ++ old) = e.stop := by
      rw [byteSize_append, hbefore, hstop]
    have hrest := ih hold
    simp only [← List.append_assoc] at hrest ⊢
    rw [List.foldr_cons, hrest, replaceIn, ← hold, dropBytes_append, ← hbefore,
      List.append_assoc (passed ++ before), takeBytes_append]

theorem Spliced.inOrder {position : Nat} (h : Spliced position text edits result) :
    (∀ e ∈ edits, position ≤ e.start) ∧ InOrder edits := by
  induction h with
  | rest => simp [InOrder]
  | @next position before old text result e edits hstart hstop _ ih =>
    rw [List.forall_mem_cons]
    refine ⟨⟨by omega, fun e' he' => ?_⟩, List.pairwise_cons.mpr ih⟩
    have := ih.1 e' he'
    omega

/-! ## What edits come to -/

theorem Applicable.exists_spliced (h : Applicable text edits) :
    ∃ result, Spliced 0 text (sorted edits) result :=
  TextEdit.exists_spliced (h.pairwise_before.imp And.left) (h.perm (sorted_perm edits)).fits

/-- The edits are put in order and merged, and what is left of them is made. -/
theorem Applicable.applyAll_eq {text : String} (h : Applicable text.toList edits)
    (hresult : Spliced 0 text.toList (sorted edits) result) :
    applyAll text edits = .ok (String.ofList result) := by
  rw [applyAll, normalize_eq_ok_iff.mpr ⟨h, rfl⟩]
  change Except.ok (String.ofList (splice 0 text.toList (merge (sorted edits)))) = _
  rw [hresult.merge.splice_eq]

/-- Edits in whatever order they make a text in are the sorted ones. -/
theorem Applicable.eq_of_spliced {ordered : List TextEdit} (h : Applicable text edits)
    (hperm : ordered.Perm edits) (hspliced : Spliced 0 text ordered result) :
    ordered = sorted edits := by
  have hordered := h.perm hperm
  refine h.eq_of_sorted hperm (hspliced.inOrder.2.imp_of_mem fun {a b} ha hb hab => ?_)
  have := (hordered.ranges a ha).1
  have := (hordered.ranges b hb).1
  simp only [NotAfter, range]
  omega

theorem separated_merge_sorted (h : Applicable text edits) : Separated (merge (sorted edits)) := by
  have hsorted := h.perm (sorted_perm edits)
  exact separated_merge (fun e he => (hsorted.ranges e he).1) (h.pairwise_before.imp And.left)

/-- **Edits are made all at once, whatever their order.** They are made exactly if every range is a
range of the text and no two edits get in each other's way. The result is then the text with the
replacements in the place of the ranges, put together by position, and nothing but that. Listing
the edits in another order changes neither result nor fault. Normal edits leave something between
them, are normal when they are normalized again, and make the same text, all at once or one after
the other from the last. -/
theorem applyAll_exact (text : String) (edits : List TextEdit) :
    ((∃ result, applyAll text edits = .ok result) ↔ Applicable text.toList edits)
      ∧ (∀ result, applyAll text edits = .ok result ↔ Applicable text.toList edits
          ∧ ∃ ordered, ordered.Perm edits ∧ Spliced 0 text.toList ordered result.toList)
      ∧ (∀ others, others.Perm edits → applyAll text others = applyAll text edits
          ∧ normalize text others = normalize text edits)
      ∧ ∀ result, applyAll text edits = .ok result → ∃ normal, normalize text edits = .ok normal
          ∧ Separated normal ∧ normalize text normal = .ok normal
          ∧ applyAll text normal = .ok result
          ∧ normal.foldr replaceIn text.toList = result.toList := by
  have hmade : ∀ {result}, applyAll text edits = .ok result → Applicable text.toList edits
      ∧ Spliced 0 text.toList (sorted edits) result.toList := by
    intro result h
    cases hnormal : normalize text edits with
    | error fault =>
      rw [applyAll, hnormal] at h
      cases h
    | ok normal =>
      have happlicable := (normalize_eq_ok_iff.mp hnormal).1
      obtain ⟨made, hspliced⟩ := happlicable.exists_spliced
      rw [happlicable.applyAll_eq hspliced, Except.ok.injEq] at h
      rw [← h, String.toList_ofList]
      exact ⟨happlicable, hspliced⟩
  refine ⟨⟨fun h => h.elim fun _ h => (hmade h).1, fun h => ?_⟩, fun result => ⟨fun h => ?_, ?_⟩,
    fun others hperm => ?_, fun result h => ?_⟩
  · obtain ⟨made, hspliced⟩ := h.exists_spliced
    exact ⟨_, h.applyAll_eq hspliced⟩
  · exact ⟨(hmade h).1, sorted edits, sorted_perm edits, (hmade h).2⟩
  · rintro ⟨happlicable, ordered, hperm, hspliced⟩
    rw [happlicable.eq_of_spliced hperm hspliced] at hspliced
    rw [happlicable.applyAll_eq hspliced, String.ofList_toList]
  · have hnormalize := @normalize_perm edits text others hperm
    exact ⟨by rw [applyAll, applyAll, hnormalize], hnormalize⟩
  · obtain ⟨happlicable, hspliced⟩ := hmade h
    have hmerged := hspliced.merge
    have hsep := separated_merge_sorted happlicable
    have hfits : ∀ e ∈ merge (sorted edits), e.Fits ([] ++ text.toList) := hmerged.fits rfl
    refine ⟨_, normalize_eq_ok_iff.mpr ⟨happlicable, rfl⟩, hsep, normalize_eq hfits hsep, ?_, ?_⟩
    · rw [applyAll_of_spliced hsep hmerged, String.ofList_toList]
    · exact @Spliced.foldr_replaceIn _ _ _ 0 hmerged [] rfl

-- Four edits of `héllo` that touch one another, the insertions at either end of a range.
example : applyAll "héllo" [⟨3, 4, "L"⟩, .insert 4 "y", .insert 3 "x", ⟨1, 3, "e"⟩] = .ok "hexLylo" := by
  cbv

end TextEdit

end Conformance
