import Conformance.Proofs.Lexing
import Conformance.Proofs.TokenPlaces

/-!
# Gaps in the text

A token is as long as it can be, so what it is depends on the text behind it. Nothing goes on with a
token where a blank, a comma, a brace or a comment comes next. Up to such a gap a number is the same
whatever stands behind the gap; a text in quotes and a comment have an end of their own and do not
even need one.
-/

namespace Conformance.Java

/-- The characters of a gap. A slash is one of them only behind a token that is no slash. -/
def gaps : List Char := [' ', '\t', '\r', '\n', ',', '\x7b', '/']

/-- Whether a text begins with a gap. -/
def opensGap (rest : List Char) : Bool := rest.head?.any gaps.contains

variable {w text rest after : List Char} {p : Char → Bool}

theorem exists_gap (h : opensGap rest = true) : ∃ c ∈ gaps, ∃ others, rest = c :: others := by
  cases rest with
  | nil => cases h
  | cons c others => exact ⟨c, List.contains_iff_mem.mp h, others, rfl⟩

theorem ne_cons_of_opensGap {c : Char} {others : List Char} (hrest : opensGap rest = true)
    (hc : c ∉ gaps) : rest ≠ c :: others := by
  rintro rfl
  exact hc (List.contains_iff_mem.mp hrest)

/-- What is in front of a gap begins with what comes next, if that is no gap itself. -/
theorem exists_cons_of_append {c : Char} {others : List Char} (hrest : opensGap rest = true)
    (hc : c ∉ gaps) (h : w ++ rest = c :: others) : ∃ w', w = c :: w' ∧ w' ++ rest = others := by
  cases w with
  | nil => exact absurd h (ne_cons_of_opensGap hrest hc)
  | cons d w =>
    obtain ⟨rfl, rfl⟩ := List.cons.inj h
    exact ⟨w, rfl, rfl⟩

/-! ## Numbers -/

theorem dropWhile_gap (hp : gaps.any p = false) (hrest : opensGap rest = true) :
    (w ++ rest).dropWhile p = w.dropWhile p ++ rest := by
  obtain ⟨c, hc, others, rfl⟩ := exists_gap hrest
  have hneg : ¬p c = true := List.any_eq_false.mp hp c hc
  rw [List.dropWhile_append]
  split
  · next hempty => rw [List.isEmpty_iff.mp hempty, List.dropWhile_cons_of_neg hneg, List.nil_append]
  · rfl

theorem afterOneOf_gap {set : List Char} (hset : gaps.any set.contains = false)
    (hrest : opensGap rest = true) : afterOneOf set (w ++ rest) = afterOneOf set w ++ rest := by
  obtain ⟨c, hc, others, rfl⟩ := exists_gap hrest
  cases w with
  | nil =>
    rw [List.nil_append]
    exact if_neg (List.any_eq_false.mp hset c hc)
  | cons d w =>
    rw [List.cons_append, afterOneOf, afterOneOf]
    split <;> rfl

theorem afterDigits?_gap (hp : gaps.any p = false) (hrest : opensGap rest = true) :
    afterDigits? p (w ++ rest) = (afterDigits? p w).map (· ++ rest) := by
  have hunderscore : gaps.any (fun c => decide (c = '_')) = false := by decide
  induction w using afterDigits?.induct p with
  | case1 =>
    obtain ⟨c, hc, others, rfl⟩ := exists_gap hrest
    rw [List.nil_append, afterDigits?, afterDigits?, if_neg (List.any_eq_false.mp hp c hc)]
    rfl
  | case2 c w hc found hfound ih =>
    rw [List.cons_append, afterDigits?, afterDigits?, if_pos hc, if_pos hc,
      dropWhile_gap hunderscore hrest, ih, hfound]
    rfl
  | case3 c w hc hnone ih =>
    rw [List.cons_append, afterDigits?, afterDigits?, if_pos hc, if_pos hc,
      dropWhile_gap hunderscore hrest, ih, hnone]
    rfl
  | case4 c w hc =>
    rw [List.cons_append, afterDigits?, afterDigits?, if_neg hc, if_neg hc]
    rfl

theorem afterOptionalDigits_gap (hp : gaps.any p = false) (hrest : opensGap rest = true) :
    afterOptionalDigits p (w ++ rest) = afterOptionalDigits p w ++ rest := by
  rw [afterOptionalDigits, afterOptionalDigits, afterDigits?_gap hp hrest]
  cases afterDigits? p w <;> rfl

theorem afterExponent?_gap {letters : List Char} (hletters : gaps.any letters.contains = false)
    (hrest : opensGap rest = true) :
    afterExponent? letters (w ++ rest) = (afterExponent? letters w).map (· ++ rest) := by
  cases w with
  | nil =>
    obtain ⟨c, hc, others, rfl⟩ := exists_gap hrest
    rw [List.nil_append, afterExponent?, afterExponent?,
      if_neg (List.any_eq_false.mp hletters c hc)]
    rfl
  | cons c w =>
    rw [List.cons_append, afterExponent?, afterExponent?]
    split
    · rw [afterOneOf_gap (by decide) hrest, afterDigits?_gap (by decide) hrest]
    · rfl

theorem afterBased?_gap (hp : gaps.any p = false) (hrest : opensGap rest = true) :
    afterBased? p (w ++ rest) = (afterBased? p w).map (· ++ rest) := by
  rw [afterBased?, afterBased?, afterDigits?_gap hp hrest]
  cases afterDigits? p w with
  | none => rfl
  | some found =>
    rw [Option.map_some, Option.map_some, Option.map_some,
      afterOneOf_gap (by decide) hrest]
    rfl

/-- What a number is taken for where its digits end does not depend on what stands behind a gap. -/
theorem head_gap (found : List Char) (hrest : opensGap rest = true) :
    (∃ others, found = '.' :: others)
      ∨ (∀ others, found ≠ '.' :: others) ∧ ∀ others, found ++ rest ≠ '.' :: others := by
  cases found with
  | nil =>
    obtain ⟨c, hc, tail, rfl⟩ := exists_gap hrest
    refine .inr ⟨by simp, fun others h => ?_⟩
    rw [List.nil_append, List.cons.injEq] at h
    rw [h.1] at hc
    exact absurd hc (by decide)
  | cons d found =>
    by_cases hd : d = '.'
    · exact .inl ⟨found, by rw [hd]⟩
    · exact .inr ⟨fun others h => hd (List.cons.inj h).1, fun others h => hd (List.cons.inj h).1⟩

theorem afterHex?_gap (hrest : opensGap rest = true) :
    afterHex? (w ++ rest) = (afterHex? w).map (· ++ rest) := by
  have hexponent : ∀ w, afterExponent? ['e', 'E', 'p', 'P'] (w ++ rest)
      = (afterExponent? ['e', 'E', 'p', 'P'] w).map (· ++ rest) := fun w =>
    afterExponent?_gap (by decide) hrest
  have hfloat : ∀ w, afterOneOf floatSuffix (w ++ rest) = afterOneOf floatSuffix w ++ rest :=
    fun w => afterOneOf_gap (by decide) hrest
  have hinteger : ∀ w, afterOneOf integerSuffix (w ++ rest) = afterOneOf integerSuffix w ++ rest :=
    fun w => afterOneOf_gap (by decide) hrest
  have hdigits : ∀ w, afterDigits? isHexDigit (w ++ rest)
      = (afterDigits? isHexDigit w).map (· ++ rest) := fun w => afterDigits?_gap (by decide) hrest
  have hoptional : ∀ w, afterOptionalDigits isHexDigit (w ++ rest)
      = afterOptionalDigits isHexDigit w ++ rest := fun w => afterOptionalDigits_gap (by decide) hrest
  unfold afterHex?
  rw [hdigits]
  cases afterDigits? isHexDigit w with
  | none =>
    rcases head_gap w hrest with ⟨others, rfl⟩ | ⟨hw, hboth⟩
    · simp only [Option.map_none, List.cons_append, hdigits]
      cases afterDigits? isHexDigit others with
      | none => rfl
      | some found =>
        simp only [Option.map_some, hexponent]
        cases afterExponent? ['e', 'E', 'p', 'P'] found <;> simp [hfloat]
    · simp
  | some found =>
    rcases head_gap found hrest with ⟨others, rfl⟩ | ⟨hfound, hboth⟩
    · simp only [Option.map_some, List.cons_append, hoptional, hexponent]
      cases afterExponent? ['e', 'E', 'p', 'P'] (afterOptionalDigits isHexDigit others) <;> simp [hfloat]
    · simp only [Option.map_some, hexponent]
      cases afterExponent? ['e', 'E', 'p', 'P'] found <;> simp [hfloat, hinteger]

theorem afterDecimal?_gap (hrest : opensGap rest = true) :
    afterDecimal? (w ++ rest) = (afterDecimal? w).map (· ++ rest) := by
  have hexponent : ∀ w, afterExponent? ['e', 'E', 'p', 'P'] (w ++ rest)
      = (afterExponent? ['e', 'E', 'p', 'P'] w).map (· ++ rest) := fun w =>
    afterExponent?_gap (by decide) hrest
  have hshort : ∀ w, afterExponent? ['e', 'E'] (w ++ rest)
      = (afterExponent? ['e', 'E'] w).map (· ++ rest) := fun w =>
    afterExponent?_gap (by decide) hrest
  have hfloat : ∀ w, afterOneOf floatSuffix (w ++ rest) = afterOneOf floatSuffix w ++ rest :=
    fun w => afterOneOf_gap (by decide) hrest
  have hsuffix : ∀ w, afterOneOf (integerSuffix ++ floatSuffix) (w ++ rest)
      = afterOneOf (integerSuffix ++ floatSuffix) w ++ rest :=
    fun w => afterOneOf_gap (by decide) hrest
  have hdigits : ∀ w, afterDigits? Char.isDigit (w ++ rest)
      = (afterDigits? Char.isDigit w).map (· ++ rest) := fun w => afterDigits?_gap (by decide) hrest
  have hoptional : ∀ w, afterOptionalDigits Char.isDigit (w ++ rest)
      = afterOptionalDigits Char.isDigit w ++ rest := fun w =>
    afterOptionalDigits_gap (by decide) hrest
  have hgetD : ∀ w, (afterExponent? ['e', 'E'] (w ++ rest)).getD (w ++ rest)
      = (afterExponent? ['e', 'E'] w).getD w ++ rest := by
    intro w
    rw [hshort]
    cases afterExponent? ['e', 'E'] w <;> rfl
  unfold afterDecimal?
  rw [hdigits]
  cases afterDigits? Char.isDigit w with
  | none =>
    rcases head_gap w hrest with ⟨others, rfl⟩ | ⟨hw, hboth⟩
    · simp only [Option.map_none, List.cons_append, hdigits]
      cases afterDigits? Char.isDigit others with
      | none => rfl
      | some found => simp only [Option.map_some, hgetD, hfloat]
    · simp
  | some found =>
    rcases head_gap found hrest with ⟨others, rfl⟩ | ⟨hfound, hboth⟩
    · simp only [Option.map_some, List.cons_append, hoptional, hgetD, hfloat]
    · simp only [Option.map_some, hexponent]
      cases afterExponent? ['e', 'E', 'p', 'P'] found <;> simp [hfloat, hsuffix]

/-- **A number ends in front of a gap,** whatever stands behind it. -/
theorem afterNumber?_gap (hrest : opensGap rest = true) :
    afterNumber? (w ++ rest) = (afterNumber? w).map (· ++ rest) := by
  have hdecimal : ∀ w, afterDecimal? (w ++ rest) = (afterDecimal? w).map (· ++ rest) := fun w =>
    afterDecimal?_gap hrest
  have hplain : ∀ {d : Char} (w : List Char), d ≠ '0' → afterNumber? (d :: w) = afterDecimal? (d :: w) := by
    intro d w hd
    unfold afterNumber?
    split
    · next heq => exact absurd (List.cons.inj heq).1 hd
    · rfl
  -- the letter behind the zero tells the base
  have hbased : ∀ e, ∃ based : List Char → Option (List Char),
      (∀ w, based (w ++ rest) = (based w).map (· ++ rest))
        ∧ ∀ w, afterNumber? ('0' :: e :: w) = (based w).orElse fun _ => afterDecimal? ('0' :: e :: w) := by
    intro e
    refine ⟨_, fun w => ?_, fun w => rfl⟩
    split
    · exact afterHex?_gap hrest
    · exact afterHex?_gap hrest
    · exact afterBased?_gap (by decide) hrest
    · exact afterBased?_gap (by decide) hrest
    · exact afterBased?_gap (by decide) hrest
    · exact afterBased?_gap (by decide) hrest
    · rfl
  have horElse : ∀ found whole : Option (List Char),
      ((found.map (· ++ rest)).orElse fun _ => whole.map (· ++ rest))
        = (found.orElse fun _ => whole).map (· ++ rest) := by
    intro found whole
    cases found <;> rfl
  cases w with
  | nil =>
    obtain ⟨c, hc, others, rfl⟩ := exists_gap hrest
    rw [List.nil_append, hplain others (by rintro rfl; revert hc; decide)]
    exact hdecimal []
  | cons d w =>
    by_cases hd : d = '0'
    · subst hd
      cases w with
      | nil =>
        obtain ⟨c, hc, others, rfl⟩ := exists_gap hrest
        rw [List.singleton_append]
        simp only [gaps, List.mem_cons, List.not_mem_nil, or_false] at hc
        rcases hc with rfl | rfl | rfl | rfl | rfl | rfl | rfl <;> exact hdecimal ['0']
      | cons e w =>
        have hwhole := hdecimal ('0' :: e :: w)
        rw [List.cons_append, List.cons_append] at hwhole ⊢
        obtain ⟨based, hbased, hnumber⟩ := hbased e
        rw [hnumber, hnumber, hwhole, hbased]
        exact horElse ..
    · rw [List.cons_append, hplain _ hd, hplain _ hd]
      exact hdecimal (d :: w)

/-! ## Texts with an end of their own -/

/-- Whether a function takes a text off the front, whatever stands behind it. -/
def TakesOff (f : List Char → Option (List Char)) (taken : List Char) : Prop :=
  ∀ others, f (taken ++ others) = some others

/-- Where the text ends in front of a gap it is taken off whatever stands behind the gap. -/
theorem TakesOff.gap {f : List Char → Option (List Char)} {taken front w' : List Char}
    (htakes : TakesOff f taken) (heq : front ++ rest = taken ++ (w' ++ rest)) (others : List Char) :
    f (front ++ others) = some (w' ++ others) := by
  obtain rfl : front = taken ++ w' :=
    List.append_cancel_right (heq.trans (List.append_assoc ..).symm)
  rw [List.append_assoc, htakes]

/-- Whether a text comes next depends on as many characters as it has. -/
theorem afterText?_append {lexeme front : List Char} (hlength : lexeme.length ≤ front.length)
    (rest : List Char) :
    afterText? lexeme (front ++ rest) = (afterText? lexeme front).map (· ++ rest) := by
  induction lexeme generalizing front with
  | nil => simp [afterText?]
  | cons c lexeme ih =>
    cases front with
    | nil => simp at hlength
    | cons d front =>
      rw [List.length_cons, List.length_cons, Nat.add_le_add_iff_right] at hlength
      rw [List.cons_append, afterText?, afterText?]
      split
      · exact ih hlength
      · rfl

theorem takesOff_afterText? (lexeme : List Char) : TakesOff (afterText? lexeme) lexeme := by
  intro others
  induction lexeme with
  | nil => rfl
  | cons c lexeme ih => rw [List.cons_append, afterText?, if_pos rfl, ih]

/-- Where a text did not come next, it does not come next in front of something else. -/
theorem afterText?_none {lexeme front others : List Char} (hlength : lexeme.length ≤ front.length)
    (h : afterText? lexeme (front ++ rest) = none) : afterText? lexeme (front ++ others) = none := by
  rw [afterText?_append hlength, Option.map_eq_none_iff] at h ⊢
  exact h

theorem exists_of_afterFirst? {lexeme : List Char} (hne : lexeme ≠ [])
    (h : afterFirst? lexeme text = some after) :
    ∃ taken, text = taken ++ after ∧ lexeme.length ≤ taken.length
      ∧ TakesOff (afterFirst? lexeme) taken := by
  induction text with
  | nil =>
    rw [afterFirst?, if_neg (by simpa using hne)] at h
    cases h
  | cons c text ih =>
    rw [afterFirst?] at h
    split at h
    · next found hfound =>
      cases h
      refine ⟨lexeme, eq_append_of_afterText? hfound, Nat.le_refl _, fun others => ?_⟩
      obtain ⟨d, lexeme, rfl⟩ := List.exists_cons_of_ne_nil hne
      rw [List.cons_append, afterFirst?, ← List.cons_append, takesOff_afterText?]
    · next hnone =>
      obtain ⟨taken, rfl, hlength, htakes⟩ := ih h
      refine ⟨c :: taken, rfl, Nat.le_succ_of_le hlength, fun others => ?_⟩
      rw [List.cons_append, afterFirst?, ← List.cons_append,
        afterText?_none (Nat.le_succ_of_le hlength) hnone, htakes]

theorem exists_of_afterEscape? (h : afterEscape? text = some after) :
    ∃ taken, text = taken ++ after ∧ TakesOff afterEscape? taken := by
  unfold afterEscape? at h
  split at h
  · next a b rest =>
    split at h
    · next hhex =>
      cases h
      exact ⟨['x', a, b], rfl, fun others => if_pos hhex⟩
    · cases h
  · next rest =>
    split at h
    · next found hfound =>
      split at h
      · next hhead =>
        cases h
        have hsplit := List.takeWhile_append_dropWhile (p := isHexDigit) (l := rest)
        rw [hfound] at hsplit
        refine ⟨'u' :: '\x7b' :: (rest.takeWhile isHexDigit ++ ['\x7d']), ?_, fun others => ?_⟩
        · simp [hsplit]
        · have hdrop : (rest.takeWhile isHexDigit ++ '\x7d' :: others).dropWhile isHexDigit
              = '\x7d' :: others := by
            rw [List.dropWhile_append_of_pos fun c hc => List.mem_takeWhile_imp hc]
            exact List.dropWhile_cons_of_neg (by decide)
          have hhead' : (rest.takeWhile isHexDigit ++ '\x7d' :: others).head?.any isHexDigit = true := by
            cases rest with
            | nil => cases hhead
            | cons c rest =>
              have hc : isHexDigit c = true := hhead
              simp [hc]
          simp only [List.cons_append, List.append_assoc, List.nil_append, afterEscape?]
          rw [hdrop]
          exact if_pos hhead'
      · cases h
    · cases h
  · next a b c d rest hnot =>
    split at h
    · next hhex =>
      cases h
      refine ⟨['u', a, b, c, d], rfl, fun others => ?_⟩
      simp only [List.cons_append, List.nil_append]
      rw [afterEscape?]
      · exact if_pos hhex
      · exact hnot
    · cases h
  · cases h
  · cases h
  · cases h
  · next c rest _ _ _ hx hu =>
    cases h
    refine ⟨[c], rfl, fun others => ?_⟩
    rw [List.singleton_append, afterEscape?]
    · exact fun _ _ _ hc => absurd hc hx
    · exact fun _ hc => absurd hc hu
    · exact fun _ _ _ _ _ hc => absurd hc hu
    · exact hx
    · exact hu

theorem exists_of_afterStringBody? {closing : List Char} {fuel : Nat}
    (h : afterStringBody? closing fuel text = some after) :
    ∃ taken, text = taken ++ after ∧ closing.length ≤ taken.length
      ∧ ∀ fuel, taken.length < fuel → TakesOff (afterStringBody? closing fuel) taken := by
  induction fuel generalizing text with
  | zero => cases h
  | succ fuel ih =>
    unfold afterStringBody? at h
    split at h
    · next found hfound =>
      cases h
      refine ⟨closing, eq_append_of_afterText? hfound, Nat.le_refl _, fun fuel hfuel others => ?_⟩
      obtain ⟨fuel, rfl⟩ := Nat.exists_eq_add_one_of_ne_zero (Nat.ne_zero_of_lt hfuel)
      unfold afterStringBody?
      rw [takesOff_afterText?]
    · next hnone =>
      -- the closing text does not come next in front of something else either
      have hnone' : ∀ {front : List Char}, text = front ++ after → closing.length ≤ front.length →
          ∀ others, afterText? closing (front ++ others) = none := by
        rintro front rfl hlength others
        exact afterText?_none hlength hnone
      split at h
      · cases h
      · next rest =>
        obtain ⟨mid, hmid, hrest⟩ := Option.bind_eq_some_iff.mp h
        obtain ⟨escape, rfl, hescape⟩ := exists_of_afterEscape? hmid
        obtain ⟨taken, rfl, hlength, htakes⟩ := ih hrest
        have hlength' : closing.length ≤ ('\\' :: (escape ++ taken)).length := by
          rw [List.length_cons, List.length_append]
          omega
        refine ⟨'\\' :: (escape ++ taken), by simp, hlength', fun fuel hfuel others => ?_⟩
        obtain ⟨fuel, rfl⟩ := Nat.exists_eq_add_one_of_ne_zero (Nat.ne_zero_of_lt hfuel)
        rw [List.length_cons, List.length_append] at hfuel
        unfold afterStringBody?
        rw [hnone' (by simp) hlength', List.cons_append, List.append_assoc]
        change (afterEscape? (escape ++ (taken ++ others))).bind (afterStringBody? closing fuel) = _
        rw [hescape, Option.bind_some, htakes fuel (by omega)]
      · next c rest hc =>
        obtain ⟨taken, rfl, hlength, htakes⟩ := ih h
        refine ⟨c :: taken, rfl, Nat.le_succ_of_le hlength, fun fuel hfuel others => ?_⟩
        obtain ⟨fuel, rfl⟩ := Nat.exists_eq_add_one_of_ne_zero (Nat.ne_zero_of_lt hfuel)
        rw [List.length_cons] at hfuel
        unfold afterStringBody?
        rw [hnone' (List.cons_append ..).symm (Nat.le_succ_of_le hlength), List.cons_append]
        dsimp only
        split
        · next heq => cases heq
        · next heq => exact absurd (List.cons.inj heq).1 hc
        · next heq =>
          cases heq
          exact htakes fuel (by omega) others

/-- With as much depth as there are characters. -/
theorem exists_of_stringBody {closing : List Char}
    (h : afterStringBody? closing (text.length + 1) text = some after) :
    ∃ taken, text = taken ++ after
      ∧ TakesOff (fun text => afterStringBody? closing (text.length + 1) text) taken := by
  obtain ⟨taken, hsplit, -, htakes⟩ := exists_of_afterStringBody? h
  refine ⟨taken, hsplit, fun others => htakes _ ?_ others⟩
  rw [List.length_append]
  omega

theorem exists_of_afterCharacterBody? (h : afterCharacterBody? text = some after) :
    ∃ taken, text = taken ++ after ∧ taken ≠ [] ∧ TakesOff afterCharacterBody? taken := by
  fun_induction afterCharacterBody? text with
  | case1 rest =>
    cases h
    exact ⟨['\''], rfl, List.cons_ne_nil _ _, fun _ => rfl⟩
  | case2 c rest ih =>
    obtain ⟨taken, rfl, -, htakes⟩ := ih h
    exact ⟨'\\' :: c :: taken, rfl, List.cons_ne_nil _ _, fun others => htakes others⟩
  | case3 | case4 | case5 => cases h
  | case6 c rest hquote hescape hline hend ih =>
    obtain ⟨taken, rfl, hne, htakes⟩ := ih h
    have hplain : c = '\\' → False := by
      obtain ⟨d, taken, rfl⟩ := List.exists_cons_of_ne_nil hne
      exact fun hc => hescape d (taken ++ after) hc rfl
    refine ⟨c :: taken, rfl, List.cons_ne_nil _ _, fun others => ?_⟩
    rw [List.cons_append, afterCharacterBody?]
    · exact htakes others
    · exact hquote
    · exact fun _ _ hc => absurd hc hplain
    · exact hline
    · exact fun hc => absurd hc hplain

theorem exists_of_afterCharacter? (h : afterCharacter? text = some after) :
    ∃ taken, text = taken ++ after ∧ TakesOff afterCharacter? taken := by
  unfold afterCharacter? at h
  split at h
  · cases h
  · next hquote =>
    obtain ⟨taken, rfl, hne, htakes⟩ := exists_of_afterCharacterBody? h
    refine ⟨taken, rfl, fun others => ?_⟩
    obtain ⟨c, taken, rfl⟩ := List.exists_cons_of_ne_nil hne
    rw [List.cons_append, afterCharacter?]
    · exact htakes others
    · rintro _ heq
      exact hquote (taken ++ after) (by rw [List.cons_append, (List.cons.inj heq).1])

/-! ## Symbols -/

theorem afterText?_gap {lexeme : List Char} (hlexeme : lexeme.any gaps.contains = false)
    (hrest : opensGap rest = true) :
    afterText? lexeme (w ++ rest) = (afterText? lexeme w).map (· ++ rest) := by
  induction lexeme generalizing w with
  | nil => simp [afterText?]
  | cons c lexeme ih =>
    rw [List.any_cons, Bool.or_eq_false_iff] at hlexeme
    cases w with
    | nil =>
      obtain ⟨d, hd, others, rfl⟩ := exists_gap hrest
      have hne : ¬c = d := by
        rintro rfl
        rw [List.contains_iff_mem.mpr hd] at hlexeme
        exact absurd hlexeme.1 (Bool.noConfusion)
      rw [List.nil_append, afterText?, afterText?, if_neg hne]
      rfl
    | cons d w =>
      rw [List.cons_append, afterText?, afterText?]
      split
      · exact ih hlexeme.2
      · rfl

/-- **A symbol ends in front of a gap,** whatever stands behind it. -/
theorem afterSymbol?_gap {c : Char} (hrest : opensGap rest = true) :
    afterSymbol? (c :: w ++ rest) = (afterSymbol? (c :: w)).map (· ++ rest) := by
  have hlong : ∀ symbol ∈ longSymbols, afterText? symbol.toList (c :: w ++ rest)
      = (afterText? symbol.toList (c :: w)).map (· ++ rest) := by
    intro symbol hsymbol
    have hopen : ∀ symbol ∈ longSymbols, symbol.toList.tail.any gaps.contains = false := by decide
    have htail := hopen symbol hsymbol
    cases hlist : symbol.toList with
    | nil => exact absurd hlist (longSymbols_ne_nil symbol hsymbol)
    | cons d tail =>
      rw [hlist] at htail
      rw [List.cons_append, afterText?, afterText?]
      split
      · exact afterText?_gap htail hrest
      · rfl
  have hfind : longSymbols.findSome? (fun symbol => afterText? symbol.toList (c :: w ++ rest))
      = (longSymbols.findSome? fun symbol => afterText? symbol.toList (c :: w)).map (· ++ rest) := by
    generalize longSymbols = list at hlong
    induction list with
    | nil => rfl
    | cons symbol list ih =>
      rw [List.forall_mem_cons] at hlong
      rw [List.findSome?_cons, List.findSome?_cons, hlong.1]
      cases afterText? symbol.toList (c :: w) with
      | none => exact ih hlong.2
      | some found => rfl
  unfold afterSymbol?
  rw [hfind]
  cases longSymbols.findSome? fun symbol => afterText? symbol.toList (c :: w) with
  | some found => rfl
  | none =>
    rw [Option.map_none, List.cons_append]
    dsimp only
    split <;> rfl

/-! ## Tokens -/

/-- Whether a text begins with a gap that is no comment. -/
def opensPlainGap (rest : List Char) : Bool := opensGap rest && rest.head? ≠ some '/'

/-- A word with a dash, or a symbol with a word in it, is taken as a whole unless it goes on. Nothing
goes on with it in front of a gap. -/
theorem whole_gap {lexeme front : List Char} {kind : TokenKind} (hlexeme : lexeme.any gaps.contains = false)
    (hrest : opensGap rest = true) :
    (match afterText? lexeme (w ++ rest) with
      | some after => some (kind, if after.head?.any isNamePart then front ++ rest else after)
      | none => some (kind, front ++ rest))
      = (match afterText? lexeme w with
        | some after => some (kind, if after.head?.any isNamePart then front else after)
        | none => some (kind, front)).map (Prod.map id (· ++ rest)) := by
  have hhead : ∀ found : List Char,
      (found ++ rest).head?.any isNamePart = found.head?.any isNamePart := by
    obtain ⟨c, hc, others, rfl⟩ := exists_gap hrest
    have hno : gaps.any isNamePart = false := by decide
    rintro (_ | ⟨d, found⟩)
    · exact Bool.eq_false_iff.mpr (List.any_eq_false.mp hno c hc)
    · rfl
  rw [afterText?_gap hlexeme hrest]
  cases afterText? lexeme w with
  | none => rfl
  | some found =>
    rw [Option.map_some]
    dsimp only
    rw [hhead, Option.map_some, Prod.map_apply]
    split <;> rfl

/-- The characters that texts in quotes and annotations begin with. -/
def tokenMarks : List Char := ['"', '\'', '@']

/-- **What is no comment, annotation or text in quotes ends in front of a gap,** whatever stands
behind it. -/
theorem afterToken?_plain {c : Char} (hc : c ∉ tokenMarks)
    (hslash : c = '/' → (w ++ rest).head? ≠ some '/' ∧ (w ++ rest).head? ≠ some '*')
    (hrest : opensGap rest = true) :
    afterToken? (c :: w ++ rest) = (afterToken? (c :: w)).map (Prod.map id (· ++ rest)) := by
  have hplain : ∀ {tail : List Char}, (c = '/' → tail.head? ≠ some '/' ∧ tail.head? ≠ some '*') →
      afterToken? (c :: tail) = (match afterNumber? (c :: tail) with
        | some rest => some (.number, rest)
        | none =>
          if (c :: tail).head?.any isNameStart then
            let rest := (c :: tail).dropWhile isNamePart
            match afterText? "non-sealed".toList (c :: tail) with
            | some after => some (.word, if after.head?.any isNamePart then rest else after)
            | none => some (.word, rest)
          else (afterSymbol? (c :: tail)).map ((.symbol, ·))) := by
    intro tail hslash
    have hmark : ∀ {d : Char} {rest : List Char}, d ∈ tokenMarks → c :: tail ≠ d :: rest := by
      intro d rest hd heq
      rw [← (List.cons.inj heq).1] at hd
      exact hc hd
    unfold afterToken?
    split
    · next heq =>
      obtain ⟨rfl, rfl⟩ := List.cons.inj heq
      exact absurd rfl (hslash rfl).1
    · next heq =>
      obtain ⟨rfl, rfl⟩ := List.cons.inj heq
      exact absurd rfl (hslash rfl).2
    · next heq => exact absurd heq (hmark (by decide))
    · next heq => exact absurd heq (hmark (by decide))
    · next heq => exact absurd heq (hmark (by decide))
    · next heq => exact absurd heq (hmark (by decide))
    · rfl
  have hslash' : c = '/' → w.head? ≠ some '/' ∧ w.head? ≠ some '*' := by
    intro heq
    have hboth := hslash heq
    cases w with
    | nil => exact ⟨nofun, nofun⟩
    | cons d w => exact hboth
  rw [List.cons_append, hplain hslash, hplain hslash', ← List.cons_append, afterNumber?_gap hrest]
  cases afterNumber? (c :: w) with
  | some found => rfl
  | none =>
    rw [Option.map_none]
    dsimp only
    rw [dropWhile_gap (by decide) hrest, whole_gap (by decide) hrest, afterSymbol?_gap hrest]
    have hhead : (c :: w ++ rest).head?.any isNameStart = (c :: w).head?.any isNameStart := rfl
    rw [hhead]
    split
    · rfl
    · rw [Option.map_map, Option.map_map]
      rfl

/-- A comment up to the end of its line ends in front of it. -/
theorem lineComment_gap {w' others : List Char} (hne : w' ≠ [])
    (h : (w ++ rest).dropWhile p = w' ++ rest) : (w ++ others).dropWhile p = w' ++ others := by
  rw [List.dropWhile_append] at h ⊢
  split at h
  · have hle := (List.dropWhile_suffix p (l := rest)).length_le
    rw [h, List.length_append] at hle
    exact absurd (List.eq_nil_of_length_eq_zero (by omega)) hne
  · next hempty => rw [if_neg hempty, List.append_cancel_right h]

theorem Behind.length_lt (h : Behind rest text) : rest.length < text.length := by
  obtain ⟨c, others, rfl, hsuffix⟩ := h
  exact Nat.lt_succ_of_le hsuffix.length_le

/-- What is left in front of a gap is left in front of another one as well. -/
theorem map_append_gap {kind : TokenKind} {w' others : List Char}
    {found : Option (TokenKind × List Char)}
    (h : found.map (Prod.map id (· ++ rest)) = some (kind, w' ++ rest)) :
    found.map (Prod.map id (· ++ others)) = some (kind, w' ++ others) := by
  obtain ⟨⟨kind, front⟩, rfl, hpair⟩ := Option.map_eq_some_iff.mp h
  obtain ⟨rfl, hfront⟩ := Prod.mk.inj hpair
  rw [Option.map_some, Prod.map_apply, List.append_cancel_right hfront]

/-- **What token comes next does not depend on what stands behind a gap,** unless it is a comment that
reaches up to the gap. -/
theorem afterToken?_gap {kind : TokenKind} {w' others : List Char}
    (h : afterToken? (w ++ rest) = some (kind, w' ++ rest)) (hcomment : kind = .comment → w' ≠ [])
    (hrest : opensGap rest = true) (hothers : opensPlainGap others = true) :
    afterToken? (w ++ others) = some (kind, w' ++ others) := by
  rw [opensPlainGap, Bool.and_eq_true, decide_eq_true_iff] at hothers
  obtain ⟨hgap, hslash⟩ := hothers
  have hlength := (behind_of_afterToken? h).length_lt
  cases w with
  | nil =>
    rw [List.nil_append, List.length_append] at hlength
    exact absurd hlength (by omega)
  | cons c w =>
    have hwhole := h
    rw [List.cons_append] at h ⊢
    unfold afterToken? at h
    split at h
    · next tail htext =>
      -- a comment up to the end of its line
      obtain ⟨rfl, htail⟩ := List.cons.inj htext
      rw [Option.some.injEq, Prod.mk.injEq] at h
      obtain ⟨rfl, h⟩ := h
      cases w with
      | nil =>
        have hle := (List.dropWhile_suffix (· ≠ '\n') (l := tail)).length_le
        rw [List.nil_append] at htail
        rw [h, htail, List.length_append, List.length_cons] at hle
        exact absurd hle (by omega)
      | cons d w =>
        obtain ⟨rfl, rfl⟩ := List.cons.inj htail
        exact congrArg (fun after => some (TokenKind.comment, after))
          (lineComment_gap (hcomment rfl) h)
    · next tail htext =>
      obtain ⟨rfl, htail⟩ := List.cons.inj htext
      obtain ⟨w, rfl, rfl⟩ := exists_cons_of_append hrest (by decide) htail
      obtain ⟨found, hfound, hpair⟩ := Option.map_eq_some_iff.mp h
      cases hpair
      obtain ⟨taken, heq, -, htakes⟩ := exists_of_afterFirst? (List.cons_ne_nil _ _) hfound
      exact congrArg (Option.map (TokenKind.comment, ·)) (htakes.gap heq others)
    · next tail htext =>
      obtain ⟨rfl, htail⟩ := List.cons.inj htext
      obtain ⟨w, rfl, hquotes⟩ := exists_cons_of_append hrest (by decide) htail
      obtain ⟨w, rfl, rfl⟩ := exists_cons_of_append hrest (by decide) hquotes
      obtain ⟨found, hfound, hpair⟩ := Option.map_eq_some_iff.mp h
      cases hpair
      obtain ⟨taken, heq, htakes⟩ := exists_of_stringBody hfound
      exact congrArg (Option.map (TokenKind.string, ·)) (htakes.gap heq others)
    · next tail hneg heq =>
      obtain ⟨rfl, rfl⟩ := List.cons.inj heq
      obtain ⟨found, hfound, hpair⟩ := Option.map_eq_some_iff.mp h
      cases hpair
      obtain ⟨taken, heq, htakes⟩ := exists_of_stringBody hfound
      rw [afterToken?]
      · exact congrArg (Option.map (TokenKind.string, ·)) (htakes.gap heq others)
      · -- two more quotes would have been there before
        intro tail heq
        obtain ⟨w, rfl, hquotes⟩ := exists_cons_of_append hgap (by decide) heq
        obtain ⟨w, rfl, -⟩ := exists_cons_of_append hgap (by decide) hquotes
        exact hneg (w ++ rest) rfl
    · next tail heq =>
      obtain ⟨rfl, rfl⟩ := List.cons.inj heq
      obtain ⟨found, hfound, hpair⟩ := Option.map_eq_some_iff.mp h
      cases hpair
      obtain ⟨taken, heq, htakes⟩ := exists_of_afterCharacter? hfound
      exact congrArg (Option.map (TokenKind.character, ·)) (htakes.gap heq others)
    · next tail heq =>
      obtain ⟨rfl, rfl⟩ := List.cons.inj heq
      have hat : ∀ {rest}, opensGap rest = true → afterToken? ('@' :: (w ++ rest))
          = (afterToken? ('@' :: w)).map (Prod.map id (· ++ rest)) := fun hrest =>
        whole_gap (by decide) hrest
      rw [hat hgap]
      exact map_append_gap ((hat hrest).symm.trans h)
    · next hline hblock _ hquote hcharacter hat =>
      have hc : c ∉ tokenMarks := by
        simp only [tokenMarks, List.mem_cons, List.not_mem_nil, or_false]
        rintro (rfl | rfl | rfl)
        · exact hquote _ rfl
        · exact hcharacter _ rfl
        · exact hat _ rfl
      have hslash' : c = '/' → (w ++ rest).head? ≠ some '/' ∧ (w ++ rest).head? ≠ some '*' := by
        rintro rfl
        cases hw : w ++ rest with
        | nil => exact ⟨nofun, nofun⟩
        | cons d tail =>
          rw [hw] at hline hblock
          refine ⟨?_, ?_⟩
          · rintro ⟨⟩
            exact hline tail rfl
          · rintro ⟨⟩
            exact hblock tail rfl
      have hslash'' : c = '/' → (w ++ others).head? ≠ some '/' ∧ (w ++ others).head? ≠ some '*' := by
        intro heq
        cases w with
        | nil =>
          refine ⟨hslash, fun hstar => ?_⟩
          obtain ⟨tail, htail⟩ := List.head?_eq_some_iff.mp hstar
          exact ne_cons_of_opensGap hgap (by decide) htail
        | cons d w => exact hslash' heq
      rw [← List.cons_append, afterToken?_plain hc hslash'' hgap]
      exact map_append_gap ((afterToken?_plain hc hslash' hrest).symm.trans hwhole)

/-! ## The tokens of a text -/

/-- A text that falls into tokens has no fewer characters than tokens. -/
theorem tokensFrom?_length {fuel start : Nat} {tokens : List Token}
    (h : tokensFrom? fuel start text = some tokens) :
    tokensFrom? text.length start text = some tokens := by
  induction fuel generalizing start text tokens with
  | zero =>
    cases text with
    | nil => exact h
    | cons c text => cases h
  | succ fuel ih =>
    cases text with
    | nil =>
      cases h
      rfl
    | cons c text =>
      rcases tokensFrom?_cases h with
        ⟨hc, h⟩ | ⟨hc, kind, lexeme, rest, others, rfl, htoken, hothers, rfl⟩
      · rw [List.length_cons, tokensFrom?_separator hc]
        exact ih h
      · rw [← List.cons_append, List.length_append, List.length_cons, Nat.add_right_comm,
          Nat.add_comm lexeme.length]
        exact tokensFrom?_token hc htoken (tokensFrom?_add (ih hothers) lexeme.length)

open Text in
/-- **The tokens of a text fall into those in front of a gap and those behind it,** where one of them
ends at the gap and is no comment. The ones in front are the same whatever stands behind the gap. -/
theorem tokensFrom?_gap {fuel start : Nat} {tokens : List Token} {t : Token}
    (h : tokensFrom? fuel start (w ++ rest) = some tokens) (ht : t ∈ tokens)
    (hstop : t.stop = start + byteSize w) (hcomment : t.isComment = false)
    (hrest : opensGap rest = true) :
    ∃ before after, tokens = before ++ t :: after
      ∧ tokensFrom? rest.length (start + byteSize w) rest = some after
      ∧ ∀ others more, opensPlainGap others = true →
        tokensFrom? others.length (start + byteSize w) others = some more →
        tokensFrom? (w ++ others).length start (w ++ others) = some (before ++ t :: more) := by
  induction fuel generalizing start w tokens with
  | zero =>
    obtain ⟨c, -, tail, rfl⟩ := exists_gap hrest
    cases w <;> cases h
  | succ fuel ih =>
    cases w with
    | nil =>
      have hafter := ((places_of_tokensFrom? h).2 t ht).after_start
      rw [hstop] at hafter
      exact absurd hafter (Nat.lt_irrefl _)
    | cons c w =>
      rw [List.cons_append] at h
      rcases tokensFrom?_cases h with
        ⟨hc, h⟩ | ⟨hc, kind, lexeme, rest', others, hsplit, htoken, hothers, rfl⟩
      · rw [byteSize_cons, ← Nat.add_assoc] at hstop ⊢
        obtain ⟨before, after, rfl, hafter, hagain⟩ := ih h ht hstop
        refine ⟨before, after, rfl, hafter, fun others more hgap hmore => ?_⟩
        rw [List.cons_append, List.length_cons, tokensFrom?_separator hc]
        exact hagain others more hgap hmore
      · -- the token ends at the gap or in front of it
        obtain ⟨w', rfl⟩ : lexeme <+: w := by
          refine prefix_of_byteSize_le ⟨rest', hsplit.symm⟩ (List.prefix_append ..) ?_
          have hle : start + byteSize (c :: lexeme) ≤ start + byteSize (c :: w) := by
            rcases List.mem_cons.mp ht with rfl | ht
            · exact Nat.le_of_eq hstop
            · rw [← hstop]
              exact Nat.le_of_lt ((places_of_tokensFrom? hothers).2 t ht).after_start
          rw [byteSize_cons, byteSize_cons] at hle
          omega
        obtain rfl : rest' = w' ++ rest := by
          rw [List.append_assoc] at hsplit
          exact (List.append_cancel_left hsplit).symm
        have hsize : start + byteSize (c :: (lexeme ++ w'))
            = start + byteSize (c :: lexeme) + byteSize w' := by
          rw [← List.cons_append, byteSize_append, Nat.add_assoc]
        rw [hsize] at hstop ⊢
        have hkind : kind = .comment → w' ≠ [] := by
          rintro rfl rfl
          rcases List.mem_cons.mp ht with rfl | ht
          · cases hcomment
          · have hafter := ((places_of_tokensFrom? hothers).2 t ht).after_start
            rw [hstop] at hafter
            exact absurd hafter (Nat.lt_irrefl _)
        have htoken' : ∀ {others : List Char}, opensPlainGap others = true →
            afterToken? (c :: lexeme ++ (w' ++ others)) = some (kind, w' ++ others) := by
          intro others hgap
          rw [← List.append_assoc] at htoken ⊢
          exact afterToken?_gap (w := c :: (lexeme ++ w')) htoken hkind hrest hgap
        rcases List.mem_cons.mp ht with rfl | ht
        · obtain rfl : w' = [] := eq_nil_of_byteSize_eq_zero (Nat.add_left_cancel hstop.symm)
          refine ⟨[], others, rfl, tokensFrom?_length hothers, fun others more hgap hmore => ?_⟩
          rw [List.append_nil]
          exact tokensFrom?_length (tokensFrom?_token hc (htoken' hgap) hmore)
        · obtain ⟨before, after, rfl, hafter, hagain⟩ := ih hothers ht hstop
          refine ⟨_ :: before, after, rfl, hafter, fun others more hgap hmore => ?_⟩
          rw [← List.cons_append, List.append_assoc]
          exact tokensFrom?_length
            (tokensFrom?_token hc (htoken' hgap) (hagain others more hgap hmore))

end Conformance.Java
