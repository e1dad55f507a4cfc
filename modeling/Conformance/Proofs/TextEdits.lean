import Mathlib.Data.List.Infix
import Conformance.Text.Edit

/-!
# Edits that leave something between them

`TextEdit.splice` walks along a text and takes it apart with functions that look at offsets only.
What it comes to is said by `TextEdit.Spliced`: the text falls into what stays and what is
replaced, and the result is the same with the replacements in the text. Edits whose ranges are
ranges of the text, each beginning after the one before has ended, are accepted as they are, and
the result is of this form (`applyAll_of_spliced`, `exists_spliced`).

From the form of the result it can be read off how insertions are undone: the inserted texts are
again ranges with something between them, and deleting these gives back the text
(`applyAll_removals`).
-/

namespace Conformance

namespace Text

theorem byteSize_cons (c : Char) (text : List Char) :
    byteSize (c :: text) = c.utf8Size + byteSize text := rfl

theorem byteSize_append (s t : List Char) : byteSize (s ++ t) = byteSize s + byteSize t := by
  induction s with
  | nil => exact (Nat.zero_add _).symm
  | cons c s ih => rw [List.cons_append, byteSize_cons, byteSize_cons, ih, Nat.add_assoc]

theorem eq_nil_of_byteSize_eq_zero {text : List Char} (h : byteSize text = 0) : text = [] := by
  cases text with
  | nil => rfl
  | cons c text =>
    have := c.utf8Size_pos
    rw [byteSize_cons] at h
    omega

/-! ## Offsets between characters -/

theorem splitBytes?_append (s t : List Char) : splitBytes? (byteSize s) (s ++ t) = some (s, t) := by
  induction s with
  | nil =>
    cases t <;> rfl
  | cons c s ih =>
    have hpos := c.utf8Size_pos
    obtain ⟨n, hn⟩ : ∃ n, c.utf8Size + byteSize s = n + 1 :=
      Nat.exists_eq_succ_of_ne_zero (by omega)
    have hrest : n + 1 - c.utf8Size = byteSize s := by omega
    rw [byteSize_cons, hn, List.cons_append, splitBytes?, if_pos (by omega), hrest, ih]
    rfl

theorem splitBytes?_eq_some {n : Nat} {text s t : List Char}
    (h : splitBytes? n text = some (s, t)) : text = s ++ t ∧ byteSize s = n := by
  induction n using Nat.strongRecOn generalizing text s t with
  | ind n ih =>
    match n, text with
    | 0, text =>
      rw [splitBytes?] at h
      cases h
      exact ⟨rfl, rfl⟩
    | n + 1, [] => cases h
    | n + 1, c :: text =>
      rw [splitBytes?] at h
      split at h
      · next hle =>
        have hpos := c.utf8Size_pos
        obtain ⟨⟨taken, left⟩, hsplit, heq⟩ := Option.map_eq_some_iff.mp h
        cases heq
        obtain ⟨rfl, hsize⟩ := ih _ (by omega) hsplit
        refine ⟨rfl, ?_⟩
        rw [byteSize_cons, hsize]
        omega
      · cases h

theorem isBoundary_iff {text : List Char} {n : Nat} :
    isBoundary text n = true ↔ ∃ s t, text = s ++ t ∧ byteSize s = n := by
  rw [isBoundary, Option.isSome_iff_exists]
  constructor
  · rintro ⟨⟨s, t⟩, h⟩
    exact ⟨s, t, splitBytes?_eq_some h⟩
  · rintro ⟨s, t, rfl, rfl⟩
    exact ⟨(s, t), splitBytes?_append s t⟩

theorem dropBytes_append (s t : List Char) : dropBytes (byteSize s) (s ++ t) = t := by
  rw [dropBytes, splitBytes?_append]
  rfl

theorem takeBytes_append (s t : List Char) : takeBytes (byteSize s) (s ++ t) = s := by
  rw [takeBytes, splitBytes?_append]
  rfl

/-- Of two beginnings of a text the one with fewer bytes begins the other one. -/
theorem prefix_of_byteSize_le {s t text : List Char} (hs : s <+: text) (ht : t <+: text)
    (hsize : byteSize s ≤ byteSize t) : s <+: t := by
  rcases List.prefix_or_prefix_of_prefix hs ht with h | h
  · exact h
  · obtain ⟨more, rfl⟩ := h
    rw [byteSize_append] at hsize
    have hmore : more = [] := eq_nil_of_byteSize_eq_zero (by omega)
    rw [hmore, List.append_nil]

end Text

namespace TextEdit

open Text

/-! ## Edits that can be made -/

/-- Whether the range of an edit is a range of the text. -/
def Fits (text : List Char) (e : TextEdit) : Prop :=
  ∃ before old after, text = before ++ old ++ after ∧ e.start = byteSize before
    ∧ e.stop = e.start + byteSize old

/-- Whether every edit begins after the ones before it have ended. -/
def Separated (edits : List TextEdit) : Prop := edits.Pairwise fun a b => a.stop < b.start

/-- Whether every edit begins where the ones before it have ended, or after that. -/
def InOrder (edits : List TextEdit) : Prop := edits.Pairwise fun a b => a.stop ≤ b.start

variable {text result : List Char} {edits : List TextEdit}

theorem Separated.inOrder (h : Separated edits) : InOrder edits := h.imp Nat.le_of_lt

theorem Fits.start_le_stop {e : TextEdit} (h : e.Fits text) : e.start ≤ e.stop := by
  obtain ⟨_, _, _, -, -, hstop⟩ := h
  omega

theorem fits_insert {offset : Nat} (h : isBoundary text offset = true) (new : String) :
    (insert offset new).Fits text := by
  obtain ⟨s, t, rfl, rfl⟩ := isBoundary_iff.mp h
  exact ⟨s, [], t, by rw [List.append_nil], rfl, rfl⟩

theorem Fits.check_eq {e : TextEdit} (h : e.Fits text) : e.check text = .ok () := by
  obtain ⟨before, old, after, rfl, hstart, hstop⟩ := h
  have hsize : byteSize (before ++ old ++ after) = e.stop + byteSize after := by
    rw [byteSize_append, byteSize_append, ← hstart, ← hstop]
  have hfirst : isBoundary (before ++ old ++ after) e.start = true :=
    isBoundary_iff.mpr ⟨before, old ++ after, List.append_assoc .., hstart.symm⟩
  have hlast : isBoundary (before ++ old ++ after) e.stop = true :=
    isBoundary_iff.mpr ⟨before ++ old, after, rfl, by rw [byteSize_append, ← hstart, hstop]⟩
  rw [check, if_neg (by omega), hfirst, hlast]
  rfl

theorem forM_check_eq (h : ∀ e ∈ edits, e.Fits text) : edits.forM (check text) = .ok () := by
  induction edits with
  | nil => rfl
  | cons e edits ih =>
    rw [List.forall_mem_cons] at h
    have hfirst := h.1.check_eq
    have hrest := ih h.2
    rw [List.forM_eq_forM] at hrest ⊢
    rw [List.forM_cons, hfirst]
    exact hrest

theorem checkNeighbours_eq (hfits : ∀ e ∈ edits, e.start ≤ e.stop) (h : Separated edits) :
    checkNeighbours edits = .ok () := by
  induction edits with
  | nil => rfl
  | cons a edits ih =>
    cases edits with
    | nil => rfl
    | cons b edits =>
      rw [List.forall_mem_cons] at hfits
      obtain ⟨hfirst, hrest⟩ := List.pairwise_cons.mp h
      have hlt := hfirst b (List.mem_cons_self ..)
      have hle := hfits.1
      have hoverlaps : a.overlaps b = false := by
        rw [overlaps, Bool.or_eq_false_iff, Bool.and_eq_false_iff]
        simp only [decide_eq_false_iff_not]
        omega
      rw [checkNeighbours, hoverlaps]
      exact ih hfits.2 hrest

theorem merge_eq (h : Separated edits) : merge edits = edits := by
  cases edits with
  | nil => rfl
  | cons e edits =>
    rw [merge]
    induction edits generalizing e with
    | nil => rfl
    | cons e' edits ih =>
      obtain ⟨hfirst, hrest⟩ := List.pairwise_cons.mp h
      rw [mergeOnto, if_neg (Nat.ne_of_lt (hfirst e' (List.mem_cons_self ..))), ih e' hrest]

/-- Such edits are in order and do not touch. -/
theorem normalize_eq {text : String} (hfits : ∀ e ∈ edits, e.Fits text.toList)
    (h : Separated edits) : normalize text edits = .ok edits := by
  have hle : ∀ e ∈ edits, e.start ≤ e.stop := fun e he => (hfits e he).start_le_stop
  have hsorted : edits.Pairwise fun a b => a.startsBefore b = true := by
    refine h.imp_of_mem fun {a b} ha _ hlt => ?_
    have := hle a ha
    rw [startsBefore, Bool.or_eq_true]
    exact .inl (decide_eq_true (by omega))
  rw [normalize, List.mergeSort_of_pairwise hsorted]
  rw [forM_check_eq hfits, checkNeighbours_eq hle h, merge_eq h]
  rfl

/-! ## What they make of a text -/

/-- A text that begins at a position falls into what stays and what edits replace, and the result
is the same with the replacements. -/
inductive Spliced : Nat → List Char → List TextEdit → List Char → Prop
  | rest (position : Nat) (text : List Char) : Spliced position text [] text
  | next {position : Nat} {before old text result : List Char} {e : TextEdit}
      {edits : List TextEdit} (hstart : e.start = position + byteSize before)
      (hstop : e.stop = e.start + byteSize old) (h : Spliced e.stop text edits result) :
      Spliced position (before ++ old ++ text) (e :: edits)
        (before ++ e.replacement.toList ++ result)

theorem Spliced.splice_eq {position : Nat} (h : Spliced position text edits result) :
    splice position text edits = result := by
  induction h with
  | rest => rfl
  | @next position before old text result e edits hstart hstop _ ih =>
    have hbefore : e.start - position = byteSize before := by omega
    have hold : e.stop - e.start = byteSize old := by omega
    rw [splice, hbefore, hold, List.append_assoc before old text, takeBytes_append,
      dropBytes_append, dropBytes_append, ih]

/-- The edits have ranges of the text. -/
theorem Spliced.fits {position : Nat} (h : Spliced position text edits result)
    {passed : List Char} (hpassed : byteSize passed = position) :
    ∀ e ∈ edits, e.Fits (passed ++ text) := by
  induction h generalizing passed with
  | rest => simp
  | @next position before old text result e edits hstart hstop _ ih =>
    rw [List.forall_mem_cons]
    have hsize : byteSize (passed ++ before) = e.start := by rw [byteSize_append, hpassed, hstart]
    constructor
    · exact ⟨passed ++ before, old, text, by simp only [List.append_assoc], hsize.symm, hstop⟩
    · have hnext : byteSize (passed ++ before ++ old) = e.stop := by
        rw [byteSize_append, hsize, hstop]
      simpa only [List.append_assoc] using ih hnext

/-- **Edits that leave something between them are all made, and nothing else is.** -/
theorem applyAll_of_spliced {text : String} (hsep : Separated edits)
    (h : Spliced 0 text.toList edits result) : applyAll text edits = .ok (String.ofList result) := by
  have hfits : ∀ e ∈ edits, e.Fits ([] ++ text.toList) := h.fits rfl
  rw [List.nil_append] at hfits
  rw [applyAll, normalize_eq hfits hsep]
  change Except.ok (String.ofList (splice 0 text.toList edits)) = _
  rw [h.splice_eq]

theorem exists_spliced_from {passed : List Char} (hord : InOrder edits)
    (hfits : ∀ e ∈ edits, e.Fits (passed ++ text))
    (hbegin : ∀ e ∈ edits, byteSize passed ≤ e.start) :
    ∃ result, Spliced (byteSize passed) text edits result := by
  induction edits generalizing passed text with
  | nil => exact ⟨text, .rest _ _⟩
  | cons e edits ih =>
    rw [List.forall_mem_cons] at hfits hbegin
    obtain ⟨hfirst, hrest⟩ := List.pairwise_cons.mp hord
    obtain ⟨before, old, after, htext, hstart, hstop⟩ := hfits.1
    -- what has been passed already is part of what comes before the edit
    obtain ⟨between, rfl⟩ : passed <+: before := by
      refine prefix_of_byteSize_le (List.prefix_append passed text) ?_ (hstart ▸ hbegin.1)
      rw [htext, List.append_assoc]
      exact List.prefix_append ..
    obtain rfl : text = between ++ old ++ after := by
      rw [List.append_assoc, List.append_assoc, List.append_cancel_left_eq] at htext
      rw [htext, List.append_assoc]
    have hsize : byteSize (passed ++ between ++ old) = e.stop := by
      rw [byteSize_append, ← hstart, hstop]
    have hfitsAfter : ∀ e ∈ edits, e.Fits ((passed ++ between ++ old) ++ after) := by
      simpa only [List.append_assoc] using hfits.2
    obtain ⟨result, hresult⟩ := ih hrest hfitsAfter fun e' he' => by
      rw [hsize]
      exact hfirst e' he'
    rw [hsize] at hresult
    exact ⟨_, .next (by rw [hstart, byteSize_append]) hstop hresult⟩

theorem exists_spliced (hord : InOrder edits) (hfits : ∀ e ∈ edits, e.Fits text) :
    ∃ result, Spliced 0 text edits result := by
  have hfits' : ∀ e ∈ edits, e.Fits ([] ++ text) := hfits
  exact exists_spliced_from hord hfits' fun _ _ => Nat.zero_le _

/-! ## Insertions undone -/

/-- The ranges of inserted texts, to be deleted; `shift` is how much was inserted before them. -/
def removals (shift : Nat) : List TextEdit → List TextEdit
  | [] => []
  | e :: others =>
    let size := byteSize e.replacement.toList
    ⟨e.start + shift, e.start + shift + size, ""⟩ :: removals (shift + size) others

theorem Spliced.undone {position : Nat} (h : Spliced position text edits result)
    (hinsert : ∀ e ∈ edits, e.stop = e.start) (shift : Nat) :
    Spliced (position + shift) result (removals shift edits) text := by
  induction h generalizing shift with
  | rest position text => exact .rest _ _
  | @next position before old text result e edits hstart hstop _ ih =>
    rw [List.forall_mem_cons] at hinsert
    obtain rfl : old = [] := eq_nil_of_byteSize_eq_zero (by omega)
    rw [List.append_nil, removals]
    have hrest := ih hinsert.2 (shift + byteSize e.replacement.toList)
    rw [hinsert.1, ← Nat.add_assoc] at hrest
    -- what the edit inserted is what its removal replaces, by nothing
    have hnext : Spliced (position + shift) (before ++ e.replacement.toList ++ result)
        (⟨e.start + shift, e.start + shift + byteSize e.replacement.toList, ""⟩ ::
          removals (shift + byteSize e.replacement.toList) edits)
        (before ++ "".toList ++ text) :=
      .next (by rw [hstart]; exact Nat.add_right_comm ..) rfl hrest
    rwa [String.toList_empty, List.append_nil] at hnext

theorem start_of_mem_removals {shift bound : Nat} (h : ∀ e ∈ edits, bound < e.start) :
    ∀ e ∈ removals shift edits, bound + shift < e.start := by
  induction edits generalizing shift with
  | nil => simp [removals]
  | cons e edits ih =>
    rw [List.forall_mem_cons] at h
    rw [removals, List.forall_mem_cons]
    refine ⟨Nat.add_lt_add_right h.1 shift, fun e' he' => ?_⟩
    have := ih h.2 e' he'
    omega

theorem separated_removals (hsep : Separated edits) (hinsert : ∀ e ∈ edits, e.stop = e.start)
    (shift : Nat) : Separated (removals shift edits) := by
  induction edits generalizing shift with
  | nil => exact .nil
  | cons e edits ih =>
    rw [List.forall_mem_cons] at hinsert
    obtain ⟨hfirst, hrest⟩ := List.pairwise_cons.mp hsep
    rw [hinsert.1] at hfirst
    refine List.pairwise_cons.mpr ⟨fun e' he' => ?_, ih hrest hinsert.2 _⟩
    have := start_of_mem_removals hfirst e' he'
    dsimp only
    omega

/-- **Deleting what was inserted gives back the text.** -/
theorem applyAll_removals {text : String} (hsep : Separated edits)
    (hinsert : ∀ e ∈ edits, e.stop = e.start) (h : Spliced 0 text.toList edits result) :
    applyAll (String.ofList result) (removals 0 edits) = .ok text := by
  have hundone := h.undone hinsert 0
  rw [Nat.add_zero, ← String.toList_ofList (l := result)] at hundone
  rw [applyAll_of_spliced (separated_removals hsep hinsert 0) hundone, String.ofList_toList]

end TextEdit

end Conformance
