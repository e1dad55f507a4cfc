import Mathlib.Data.List.Infix
import Conformance.Proofs.TextEdits
import Conformance.Proofs.Tokens

/-!
# Where tokens end

Every token takes at least one character off the front of the text and leaves an end of the text
(`behind_of_afterToken?`). So the offsets at which the tokens of a source file end increase from
token to token, and each of them lies between two characters of the text (`places_of_tokens?`).
-/

namespace Conformance.Java

/-- Whether a text is left when at least one character was taken off the front of another. -/
def Behind (rest text : List Char) : Prop := ∃ c others, text = c :: others ∧ rest <:+ others

theorem behind_cons {c : Char} {rest others : List Char} (h : rest <:+ others) :
    Behind rest (c :: others) := ⟨c, others, rfl, h⟩

theorem Behind.of_suffix {rest mid text : List Char} (h : Behind mid text) (hrest : rest <:+ mid) :
    Behind rest text := by
  obtain ⟨c, others, rfl, hmid⟩ := h
  exact behind_cons (hrest.trans hmid)

theorem Behind.suffix {rest text : List Char} (h : Behind rest text) : rest <:+ text := by
  obtain ⟨c, others, rfl, hmid⟩ := h
  exact hmid.trans (List.suffix_cons ..)

theorem Behind.cons {c : Char} {rest text : List Char} (h : Behind rest text) :
    Behind rest (c :: text) := behind_cons h.suffix

variable {text rest after : List Char}

theorem suffix_of_afterText? {lexeme : List Char} (h : afterText? lexeme text = some after) :
    after <:+ text := ⟨lexeme, (eq_append_of_afterText? h).symm⟩

theorem suffix_of_afterFirst? {lexeme : List Char} (h : afterFirst? lexeme text = some after) :
    after <:+ text := by
  induction text with
  | nil =>
    rw [afterFirst?] at h
    split at h
    · cases h
      exact List.suffix_rfl
    · cases h
  | cons c text ih =>
    rw [afterFirst?] at h
    split at h
    · next found hfound =>
      cases h
      exact suffix_of_afterText? hfound
    · exact (ih h).trans (List.suffix_cons ..)

theorem afterOneOf_suffix (set text : List Char) : afterOneOf set text <:+ text := by
  cases text with
  | nil => exact List.suffix_rfl
  | cons c text =>
    rw [afterOneOf]
    split
    · exact List.suffix_cons ..
    · exact List.suffix_rfl

/-! ## Numbers -/

theorem behind_of_afterDigits? {isDigit : Char → Bool}
    (h : afterDigits? isDigit text = some after) : Behind after text := by
  induction text using afterDigits?.induct isDigit with
  | case1 => simp [afterDigits?] at h
  | case2 c rest hdigit found hfound ih =>
    rw [afterDigits?, if_pos hdigit, hfound] at h
    cases h
    exact behind_cons ((ih hfound).suffix.trans (List.dropWhile_suffix _))
  | case3 c rest hdigit hnone _ =>
    rw [afterDigits?, if_pos hdigit, hnone] at h
    cases h
    exact behind_cons List.suffix_rfl
  | case4 c rest hdigit =>
    rw [afterDigits?, if_neg hdigit] at h
    cases h

theorem afterOptionalDigits_suffix (isDigit : Char → Bool) (text : List Char) :
    afterOptionalDigits isDigit text <:+ text := by
  rw [afterOptionalDigits]
  cases h : afterDigits? isDigit text with
  | none => exact List.suffix_rfl
  | some after => exact (behind_of_afterDigits? h).suffix

theorem suffix_of_afterExponent? {letters : List Char}
    (h : afterExponent? letters text = some after) : after <:+ text := by
  cases text with
  | nil => cases h
  | cons c text =>
    rw [afterExponent?] at h
    split at h
    · have hdigits := (behind_of_afterDigits? h).suffix
      exact (hdigits.trans (afterOneOf_suffix _ _)).trans (List.suffix_cons ..)
    · cases h

theorem behind_of_afterBased? {isDigit : Char → Bool} (h : afterBased? isDigit text = some after) :
    Behind after text := by
  obtain ⟨found, hfound, rfl⟩ := Option.map_eq_some_iff.mp h
  exact (behind_of_afterDigits? hfound).of_suffix (afterOneOf_suffix ..)

theorem behind_of_afterHex? (h : afterHex? text = some after) : Behind after text := by
  -- an exponent may follow, and then a suffix
  have hexponent : ∀ {rest found : List Char},
      (∀ passed, afterExponent? ['e', 'E', 'p', 'P'] rest = some passed →
        found = afterOneOf floatSuffix passed) →
      (afterExponent? ['e', 'E', 'p', 'P'] rest = none → found = rest) → found <:+ rest := by
    intro rest found hsome hnone
    cases hpassed : afterExponent? ['e', 'E', 'p', 'P'] rest with
    | none => exact hnone hpassed ▸ List.suffix_rfl
    | some passed =>
      rw [hsome passed hpassed]
      exact (afterOneOf_suffix ..).trans (suffix_of_afterExponent? hpassed)
  unfold afterHex? at h
  dsimp only at h
  split at h
  · next rest hdigits =>
    cases h
    refine (behind_of_afterDigits? hdigits).of_suffix ((List.IsSuffix.trans ?_
      (afterOptionalDigits_suffix isHexDigit rest)).trans (List.suffix_cons ..))
    exact hexponent (fun passed hpassed => by rw [hpassed]) (fun hnone => by rw [hnone])
  · next rest _ hdigits =>
    split at h
    · next found hfound =>
      cases h
      exact (behind_of_afterDigits? hdigits).of_suffix
        ((afterOneOf_suffix ..).trans (suffix_of_afterExponent? hfound))
    · cases h
      exact (behind_of_afterDigits? hdigits).of_suffix (afterOneOf_suffix ..)
  · split at h
    · next rest _ =>
      obtain ⟨found, hfound, rfl⟩ := Option.map_eq_some_iff.mp h
      refine behind_cons (List.IsSuffix.trans ?_ (behind_of_afterDigits? hfound).suffix)
      exact hexponent (fun passed hpassed => by rw [hpassed]) (fun hnone => by rw [hnone])
    · cases h

theorem behind_of_afterDecimal? (h : afterDecimal? text = some after) : Behind after text := by
  have hfraction : ∀ rest : List Char,
      afterOneOf floatSuffix ((afterExponent? ['e', 'E'] rest).getD rest) <:+ rest := by
    intro rest
    refine (afterOneOf_suffix ..).trans ?_
    cases hexponent : afterExponent? ['e', 'E'] rest with
    | none => exact List.suffix_rfl
    | some found => exact suffix_of_afterExponent? hexponent
  unfold afterDecimal? at h
  dsimp only at h
  split at h
  · next rest hdigits =>
    cases h
    have hpart := (hfraction _).trans (afterOptionalDigits_suffix Char.isDigit rest)
    exact (behind_of_afterDigits? hdigits).of_suffix (hpart.trans (List.suffix_cons ..))
  · next rest _ hdigits =>
    split at h
    · next found hfound =>
      cases h
      exact (behind_of_afterDigits? hdigits).of_suffix
        ((afterOneOf_suffix ..).trans (suffix_of_afterExponent? hfound))
    · cases h
      exact (behind_of_afterDigits? hdigits).of_suffix (afterOneOf_suffix ..)
  · split at h
    · next rest _ =>
      obtain ⟨found, hfound, rfl⟩ := Option.map_eq_some_iff.mp h
      exact behind_cons ((hfraction found).trans (behind_of_afterDigits? hfound).suffix)
    · cases h

theorem behind_of_afterNumber? (h : afterNumber? text = some after) : Behind after text := by
  -- a number in another base, or else a decimal one
  have hbased : ∀ {based : Option (List Char)},
      (∀ found, based = some found → Behind found text) →
      (based.orElse fun _ => afterDecimal? text) = some after → Behind after text := by
    intro based hfound horElse
    rw [Option.orElse_eq_or, Option.or_eq_some_iff] at horElse
    rcases horElse with hsome | ⟨-, hdecimal⟩
    · exact hfound after hsome
    · exact behind_of_afterDecimal? hdecimal
  unfold afterNumber? at h
  split at h
  · refine hbased (fun found hfound => ?_) h
    split at hfound
    · exact (behind_of_afterHex? hfound).cons.cons
    · exact (behind_of_afterHex? hfound).cons.cons
    · exact (behind_of_afterBased? hfound).cons.cons
    · exact (behind_of_afterBased? hfound).cons.cons
    · exact (behind_of_afterBased? hfound).cons.cons
    · exact (behind_of_afterBased? hfound).cons.cons
    · cases hfound
  · exact behind_of_afterDecimal? h

/-! ## Texts in quotes -/

theorem suffix_of_afterEscape? (h : afterEscape? text = some after) : after <:+ text := by
  unfold afterEscape? at h
  split at h
  · next a b rest =>
    split at h
    · cases h
      exact ⟨['x', a, b], rfl⟩
    · cases h
  · next rest =>
    split at h
    · next found hfound =>
      split at h
      · cases h
        have hbrace : '\x7d' :: after <:+ rest := hfound ▸ List.dropWhile_suffix _
        exact ((List.suffix_cons ..).trans hbrace).trans ⟨['u', '\x7b'], rfl⟩
      · cases h
    · cases h
  · next a b c d rest _ =>
    split at h
    · cases h
      exact ⟨['u', a, b, c, d], rfl⟩
    · cases h
  · cases h
  · cases h
  · cases h
  · cases h
    exact List.suffix_cons ..

theorem suffix_of_afterStringBody? {closing : List Char} {fuel : Nat}
    (h : afterStringBody? closing fuel text = some after) : after <:+ text := by
  induction fuel generalizing text with
  | zero => cases h
  | succ fuel ih =>
    unfold afterStringBody? at h
    split at h
    · next found hfound =>
      cases h
      exact suffix_of_afterText? hfound
    · split at h
      · cases h
      · obtain ⟨found, hfound, hrest⟩ := Option.bind_eq_some_iff.mp h
        exact ((ih hrest).trans (suffix_of_afterEscape? hfound)).trans (List.suffix_cons ..)
      · exact (ih h).trans (List.suffix_cons ..)

theorem suffix_of_afterCharacterBody? (h : afterCharacterBody? text = some after) :
    after <:+ text := by
  fun_induction afterCharacterBody? text with
  | case1 rest =>
    cases h
    exact List.suffix_cons ..
  | case2 c rest ih => exact (ih h).trans ⟨['\\', c], rfl⟩
  | case3 | case4 | case5 => cases h
  | case6 c rest _ _ _ _ ih => exact (ih h).trans (List.suffix_cons ..)

theorem suffix_of_afterCharacter? (h : afterCharacter? text = some after) : after <:+ text := by
  unfold afterCharacter? at h
  split at h
  · cases h
  · exact suffix_of_afterCharacterBody? h

/-! ## Symbols and words -/

theorem longSymbols_ne_nil : ∀ symbol ∈ longSymbols, symbol.toList ≠ [] := by decide

theorem behind_of_afterText? {lexeme : List Char} (hne : lexeme ≠ [])
    (h : afterText? lexeme text = some after) : Behind after text := by
  obtain rfl := eq_append_of_afterText? h
  cases lexeme with
  | nil => exact absurd rfl hne
  | cons c lexeme => exact behind_cons (List.suffix_append ..)

theorem behind_of_afterSymbol? (h : afterSymbol? text = some after) : Behind after text := by
  unfold afterSymbol? at h
  split at h
  · next found hfound =>
    cases h
    obtain ⟨symbol, hsymbol, hafter⟩ := List.exists_of_findSome?_eq_some hfound
    exact behind_of_afterText? (longSymbols_ne_nil symbol hsymbol) hafter
  · split at h
    · next c rest =>
      split at h
      · cases h
        exact behind_cons List.suffix_rfl
      · cases h
    · cases h

theorem behind_dropWhile {p : Char → Bool} {c : Char} (hc : p c = true) (others : List Char) :
    Behind ((c :: others).dropWhile p) (c :: others) := by
  rw [List.dropWhile_cons_of_pos hc]
  exact behind_cons (List.dropWhile_suffix _)

/-- **A token takes something off the front of the text.** -/
theorem behind_of_afterToken? {kind : TokenKind} (h : afterToken? text = some (kind, after)) :
    Behind after text := by
  unfold afterToken? at h
  split at h
  · cases h
    exact behind_cons ((List.dropWhile_suffix _).trans (List.suffix_cons ..))
  · next rest =>
    obtain ⟨found, hfound, heq⟩ := Option.map_eq_some_iff.mp h
    cases heq
    exact behind_cons ((suffix_of_afterFirst? hfound).trans (List.suffix_cons ..))
  · next rest =>
    obtain ⟨found, hfound, heq⟩ := Option.map_eq_some_iff.mp h
    cases heq
    exact behind_cons ((suffix_of_afterStringBody? hfound).trans ⟨['"', '"'], rfl⟩)
  · obtain ⟨found, hfound, heq⟩ := Option.map_eq_some_iff.mp h
    cases heq
    exact behind_cons (suffix_of_afterStringBody? hfound)
  · obtain ⟨found, hfound, heq⟩ := Option.map_eq_some_iff.mp h
    cases heq
    exact behind_cons (suffix_of_afterCharacter? hfound)
  · split at h
    · next found hfound =>
      cases h
      split
      · exact behind_cons List.suffix_rfl
      · exact behind_cons (suffix_of_afterText? hfound)
    · cases h
      exact behind_cons List.suffix_rfl
  · split at h
    · next found hfound =>
      cases h
      exact behind_of_afterNumber? hfound
    · split at h
      · next hstart =>
        have hword : Behind (text.dropWhile isNamePart) text := by
          cases text with
          | nil => cases hstart
          | cons c others =>
            rw [List.head?_cons, Option.any_some] at hstart
            refine behind_dropWhile ?_ others
            rw [isNamePart, hstart, Bool.true_or]
        dsimp only at h
        split at h
        · next found hfound =>
          cases h
          split
          · exact hword
          · exact behind_of_afterText? (by decide) hfound
        · cases h
          exact hword
      · obtain ⟨found, hfound, heq⟩ := Option.map_eq_some_iff.mp h
        cases heq
        exact behind_of_afterSymbol? hfound

/-! ## The tokens of a text -/

open Text in
/-- What is known of a token of a text that begins at an offset. -/
structure Token.EndsIn (t : Token) (start : Nat) (text : List Char) : Prop where
  after_start : start < t.stop
  between : ∃ before left, text = before ++ left ∧ t.stop = start + byteSize before

open Text in
/-- Something in front of the text changes nothing. -/
theorem Token.EndsIn.append {t : Token} {start : Nat} {before : List Char}
    (h : t.EndsIn (start + byteSize before) text) : t.EndsIn start (before ++ text) := by
  obtain ⟨passed, left, rfl, hstop⟩ := h.between
  refine ⟨Nat.lt_of_le_of_lt (Nat.le_add_right ..) h.after_start, before ++ passed, left,
    (List.append_assoc ..).symm, ?_⟩
  rw [byteSize_append, ← Nat.add_assoc, hstop]

open Text in
/-- A text that falls into tokens begins with a blank or with the first of them. -/
theorem tokensFrom?_cases {fuel start : Nat} {c : Char} {tokens : List Token}
    (h : tokensFrom? (fuel + 1) start (c :: text) = some tokens) :
    (isSeparator c = true ∧ tokensFrom? fuel (start + c.utf8Size) text = some tokens)
      ∨ isSeparator c = false ∧ ∃ kind lexeme rest others, text = lexeme ++ rest
        ∧ afterToken? (c :: lexeme ++ rest) = some (kind, rest)
        ∧ tokensFrom? fuel (start + byteSize (c :: lexeme)) rest = some others
        ∧ tokens = ⟨kind, String.ofList (c :: lexeme), start, start + byteSize (c :: lexeme)⟩
          :: others := by
  rw [tokensFrom?] at h
  dsimp only at h
  split at h
  · next hc => exact .inl ⟨hc, h⟩
  · next hc =>
    simp only [Option.bind_eq_bind, Option.bind_eq_some_iff, Option.pure_def,
      Option.some.injEq] at h
    obtain ⟨⟨kind, rest⟩, htoken, others, hothers, rfl⟩ := h
    -- the token is what the text and the rest of it differ by
    obtain ⟨d, tail, htext, lexeme, rfl⟩ := behind_of_afterToken? htoken
    obtain ⟨rfl, rfl⟩ := List.cons.inj htext
    have hlexeme : (c :: (lexeme ++ rest)).take ((c :: (lexeme ++ rest)).length - rest.length)
        = c :: lexeme := by
      rw [← List.cons_append, List.length_append, Nat.add_sub_cancel, List.take_left]
    dsimp only at hothers
    rw [hlexeme] at hothers ⊢
    exact .inr ⟨by simpa using hc, kind, lexeme, rest, others, rfl, htoken, hothers, rfl⟩

open Text in
theorem places_of_tokensFrom? {fuel start : Nat} {tokens : List Token}
    (h : tokensFrom? fuel start text = some tokens) :
    tokens.Pairwise (fun s t => s.stop < t.stop) ∧ ∀ t ∈ tokens, t.EndsIn start text := by
  induction fuel generalizing start text tokens with
  | zero =>
    cases text with
    | nil =>
      cases h
      exact ⟨.nil, by simp⟩
    | cons c text => cases h
  | succ fuel ih =>
    cases text with
    | nil =>
      cases h
      exact ⟨.nil, by simp⟩
    | cons c text =>
      rcases tokensFrom?_cases h with ⟨-, h⟩ | ⟨-, kind, lexeme, rest, others, rfl, -, hothers, rfl⟩
      · obtain ⟨hordered, hends⟩ := ih h
        refine ⟨hordered, fun t ht => ?_⟩
        have : t.EndsIn start ([c] ++ text) := (hends t ht).append
        exact this
      · obtain ⟨hordered, hends⟩ := ih hothers
        rw [← List.cons_append]
        have hpos := c.utf8Size_pos
        have hends' : ∀ t ∈ others, t.EndsIn start ((c :: lexeme) ++ rest) := fun t ht =>
          (hends t ht).append
        refine ⟨List.pairwise_cons.mpr ⟨fun t ht => (hends t ht).after_start, hordered⟩, ?_⟩
        refine List.forall_mem_cons.mpr ⟨⟨?_, c :: lexeme, rest, rfl, rfl⟩, hends'⟩
        dsimp only
        rw [byteSize_cons]
        omega

open Text in
/-- **Tokens end at increasing offsets, each of them between two characters of the text.** -/
theorem places_of_tokens? {tokens : List Token} (h : tokens? text = some tokens) :
    tokens.Pairwise (fun s t => s.stop < t.stop) ∧ ∀ t ∈ tokens, isBoundary text t.stop = true := by
  have hends : tokens.Pairwise (fun s t => s.stop < t.stop) ∧ ∀ t ∈ tokens, t.EndsIn 0 text := by
    unfold tokens? at h
    split at h
    · obtain ⟨hordered, hends⟩ := places_of_tokensFrom? h
      refine ⟨hordered, fun t ht => ?_⟩
      have hsize : '\ufeff'.utf8Size = 0 + byteSize ['\ufeff'] := rfl
      exact Token.EndsIn.append (hsize ▸ hends t ht)
    · exact places_of_tokensFrom? h
  refine ⟨hends.1, fun t ht => ?_⟩
  obtain ⟨before, left, htext, hstop⟩ := (hends.2 t ht).between
  exact isBoundary_iff.mpr ⟨before, left, htext, by rw [hstop, Nat.zero_add]⟩

end Conformance.Java
