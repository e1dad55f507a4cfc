import Conformance.Java.Grammar
import Conformance.Java.WrittenType
import Conformance.Proofs.Path
import Conformance.Proofs.TextEdits
import Conformance.Proofs.Tokens

/-!
# The tokens of a written type

A type is written as a text, and the text is put between other texts. What matters is that it
falls into the tokens it was made from, whatever stands around it (`LexesTo`). The parts of a
name are words as long as nothing follows that could go on with them (`breaksWord`), and the
symbols of a type are tokens of their own, because what follows them inside the type begins a
name or another type. So the tokens of a type are known from the type (`lexesTo_text`), if its
names are names of classes and wildcards stand only where type arguments do (`isWritable`).
-/

namespace Conformance.Java

/-! ## Texts and lexemes -/

/-- The kind and the text of a token, without its place. -/
def Token.lexeme (t : Token) : TokenKind × String := (t.kind, t.text)

/-- A text in front of another one falls into some lexemes, wherever it begins. -/
def LexesTo (text : List Char) (lexemes : List (TokenKind × String)) (rest : List Char) : Prop :=
  ∀ start, ∃ tokens : List Token, tokens.map Token.lexeme = lexemes
    ∧ ∀ fuel others, tokensFrom? fuel (start + Text.byteSize text) rest = some others →
      tokensFrom? (fuel + text.length) start (text ++ rest) = some (tokens ++ others)

/-- A token that stands so many bytes further on. -/
def Token.moved (n : Nat) (t : Token) : Token :=
  { t with start := t.start + n, stop := t.stop + n }

@[simp]
theorem map_moved_zero (tokens : List Token) : tokens.map (Token.moved 0) = tokens :=
  List.map_id tokens

/-- What a text falls into depends neither on where it begins nor on how many more tokens there
could be. -/
theorem tokensFrom?_moved {fuel start : Nat} {text : List Char} {tokens : List Token}
    (h : tokensFrom? fuel start text = some tokens) (n more : Nat) :
    tokensFrom? (fuel + more) (start + n) text = some (tokens.map (Token.moved n)) := by
  induction fuel generalizing start text tokens with
  | zero =>
    cases text with
    | nil =>
      cases h
      unfold tokensFrom?
      rfl
    | cons c text => cases h
  | succ fuel ih =>
    cases text with
    | nil =>
      cases h
      unfold tokensFrom?
      rfl
    | cons c text =>
      rw [Nat.add_right_comm]
      rw [tokensFrom?] at h ⊢
      dsimp only at h ⊢
      split at h
      · next hc =>
        rw [if_pos hc, Nat.add_right_comm start]
        exact ih h
      · next hc =>
        rw [if_neg hc]
        simp only [Option.bind_eq_bind, Option.bind_eq_some_iff, Option.pure_def,
          Option.some.injEq] at h ⊢
        obtain ⟨found, hfound, others, hothers, rfl⟩ := h
        refine ⟨found, hfound, others.map (Token.moved n), ?_, ?_⟩
        · rw [Nat.add_right_comm start]
          exact ih hothers
        · rw [List.map_cons, Token.moved, Nat.add_right_comm start]

theorem tokensFrom?_add {fuel start : Nat} {text : List Char} {tokens : List Token}
    (h : tokensFrom? fuel start text = some tokens) (more : Nat) :
    tokensFrom? (fuel + more) start text = some tokens := by
  have hmoved := tokensFrom?_moved h 0 more
  rwa [map_moved_zero] at hmoved

theorem tokensFrom?_separator {fuel start : Nat} {c : Char} (hc : isSeparator c = true)
    (text : List Char) :
    tokensFrom? (fuel + 1) start (c :: text) = tokensFrom? fuel (start + c.utf8Size) text := by
  rw [tokensFrom?]
  exact if_pos hc

open Text in
/-- A token in front of other ones. -/
theorem tokensFrom?_token {fuel start : Nat} {c : Char} {lexeme rest : List Char} {kind : TokenKind}
    {tokens : List Token} (hc : isSeparator c = false)
    (h : afterToken? (c :: lexeme ++ rest) = some (kind, rest))
    (hrest : tokensFrom? fuel (start + byteSize (c :: lexeme)) rest = some tokens) :
    tokensFrom? (fuel + 1) start (c :: lexeme ++ rest)
      = some (⟨kind, String.ofList (c :: lexeme), start, start + byteSize (c :: lexeme)⟩ :: tokens) := by
  have hlexeme : (c :: lexeme ++ rest).take ((c :: lexeme ++ rest).length - rest.length)
      = c :: lexeme := by
    rw [List.length_append, Nat.add_sub_cancel, List.take_left]
  rw [List.cons_append, tokensFrom?]
  dsimp only
  rw [if_neg (by rw [hc]; exact Bool.false_ne_true), ← List.cons_append, h, Option.bind_eq_bind,
    Option.bind_some]
  dsimp only
  rw [hlexeme, hrest, Option.bind_eq_bind, Option.bind_some, Option.pure_def]

namespace LexesTo

variable {text text' rest : List Char} {lexemes lexemes' : List (TokenKind × String)}

theorem nil : LexesTo [] [] rest :=
  fun _ => ⟨[], rfl, fun _ _ h => h⟩

theorem append (h : LexesTo text lexemes (text' ++ rest)) (h' : LexesTo text' lexemes' rest) :
    LexesTo (text ++ text') (lexemes ++ lexemes') rest := by
  intro start
  obtain ⟨tokens, htokens, hlex⟩ := h start
  obtain ⟨tokens', htokens', hlex'⟩ := h' (start + Text.byteSize text)
  refine ⟨tokens ++ tokens', by rw [List.map_append, htokens, htokens'], ?_⟩
  intro fuel others hothers
  rw [Text.byteSize_append, ← Nat.add_assoc] at hothers
  have := hlex _ _ (hlex' fuel others hothers)
  rw [List.length_append, List.append_assoc, List.append_assoc, Nat.add_comm text.length,
    ← Nat.add_assoc]
  exact this

/-- A blank in front belongs to no token. -/
theorem space (h : LexesTo text lexemes rest) : LexesTo (' ' :: text) lexemes rest := by
  intro start
  obtain ⟨tokens, htokens, hlex⟩ := h (start + ' '.utf8Size)
  refine ⟨tokens, htokens, fun fuel others hothers => ?_⟩
  have hsize : start + Text.byteSize (' ' :: text)
      = start + ' '.utf8Size + Text.byteSize text := (Nat.add_assoc ..).symm
  rw [hsize] at hothers
  rw [List.length_cons, ← Nat.add_assoc, List.cons_append, tokensFrom?_separator (by decide)]
  exact hlex fuel others hothers

/-- A text that is one token. -/
theorem token {kind : TokenKind} {c : Char} (hc : isSeparator c = false)
    (h : afterToken? (c :: text ++ rest) = some (kind, rest)) :
    LexesTo (c :: text) [(kind, String.ofList (c :: text))] rest := by
  intro start
  refine ⟨[{ kind, text := String.ofList (c :: text), start
             stop := start + Text.byteSize (c :: text) }], rfl, fun fuel others hothers => ?_⟩
  rw [List.length_cons, ← Nat.add_assoc, List.singleton_append]
  exact tokensFrom?_token hc h (tokensFrom?_add hothers text.length)

end LexesTo

/-! ## Words -/

/-- Whether a text is a name on its own. -/
def isIdentifier (name : String) : Bool :=
  name.toList.head?.any isNameStart && name.toList.all isNamePart

/-- Whether a name in front of a text ends where the text begins. -/
def breaksWord (rest : List Char) : Bool := !rest.head?.any fun c => isNamePart c || c = '-'

theorem breaksWord_cons (c : Char) (rest : List Char) :
    breaksWord (c :: rest) = !(isNamePart c || c = '-') := rfl

theorem ne_of_isNameStart {c d : Char} (hc : isNameStart c = true)
    (hd : isNameStart d = false) : c ≠ d := by
  rintro rfl
  rw [hc] at hd
  cases hd

theorem toNat_of_isAlpha {c : Char} (h : c.isAlpha = true) :
    (65 ≤ c.toNat ∧ c.toNat ≤ 90) ∨ (97 ≤ c.toNat ∧ c.toNat ≤ 122) := by
  have halpha : (decide (c.val ≥ 'A'.val ∧ c.val ≤ 'Z'.val)
      || (decide (c.val ≥ 'a'.val) && decide (c.val ≤ 'z'.val))) = true := h
  simpa [UInt32.le_iff_toNat_le] using halpha

/-- A name does not begin like a number. -/
theorem isDigit_of_isNameStart {c : Char} (h : isNameStart c = true) : c.isDigit = false := by
  rw [← Bool.not_eq_true]
  intro hdigit
  have hrange : 48 ≤ c.toNat ∧ c.toNat ≤ 57 := by
    simpa [Char.isDigit, UInt32.le_iff_toNat_le] using hdigit
  unfold isNameStart Text.isLetter at h
  rw [if_pos (by omega)] at h
  rw [Bool.or_eq_true, Bool.or_eq_true, decide_eq_true_iff, decide_eq_true_iff] at h
  rcases h with (rfl | rfl) | hletter
  · exact absurd hdigit (by decide)
  · exact absurd hdigit (by decide)
  · have := toNat_of_isAlpha hletter
    omega

theorem afterDigits?_of_not_digit {c : Char} {text : List Char} (h : c.isDigit = false) :
    afterDigits? Char.isDigit (c :: text) = none := by
  rw [afterDigits?, h, if_neg Bool.false_ne_true]

/-- No number begins with a character that is neither a digit nor a dot. -/
theorem afterNumber?_of_not_digit {c : Char} {text : List Char} (hdigit : c.isDigit = false)
    (hdot : c ≠ '.') : afterNumber? (c :: text) = none := by
  unfold afterNumber?
  split
  · next heq =>
    cases heq
    cases hdigit
  · rw [afterDecimal?, afterDigits?_of_not_digit hdigit]
    intro rest heq
    exact hdot (List.cons.inj heq).1

theorem dropWhile_isNamePart {name rest : List Char} (hname : name.all isNamePart = true)
    (hrest : breaksWord rest = true) : (name ++ rest).dropWhile isNamePart = rest := by
  rw [List.dropWhile_append_of_pos (List.all_eq_true.mp hname)]
  cases rest with
  | nil => rfl
  | cons c rest =>
    rw [breaksWord_cons, Bool.not_eq_true', Bool.or_eq_false_iff] at hrest
    rw [List.dropWhile_cons_of_neg (by rw [hrest.1]; exact Bool.false_ne_true)]

/-- No name is the beginning of the word with a dash. -/
theorem afterText?_dashed {name rest : List Char} (hname : name.all isNamePart = true)
    (hrest : breaksWord rest = true) :
    afterText? "non-sealed".toList (name ++ rest) = none := by
  cases h : afterText? "non-sealed".toList (name ++ rest) with
  | none => rfl
  | some after =>
    have htext : name ++ rest = 'n' :: 'o' :: 'n' :: '-' :: ("sealed".toList ++ after) :=
      eq_append_of_afterText? h
    -- what follows the name would have to begin with the dash
    have hdash := dropWhile_isNamePart hname hrest
    have hparts : [isNamePart 'n', isNamePart 'o', isNamePart '-'] = [true, true, false] := by
      decide
    rw [List.cons.injEq, List.cons.injEq, List.cons.injEq] at hparts
    rw [htext, List.dropWhile_cons_of_pos hparts.1, List.dropWhile_cons_of_pos hparts.2.1,
      List.dropWhile_cons_of_pos hparts.1, List.dropWhile_cons_of_neg (by simp [hparts.2.2.1])]
      at hdash
    rw [← hdash, breaksWord_cons] at hrest
    simp at hrest

/-- **A name is one word, where nothing follows that goes on with it.** -/
theorem lexesTo_word {name : String} {rest : List Char} (h : isIdentifier name = true)
    (hrest : breaksWord rest = true) : LexesTo name.toList [(.word, name)] rest := by
  rw [isIdentifier, Bool.and_eq_true] at h
  obtain ⟨hstart, hparts⟩ := h
  cases hname : name.toList with
  | nil => simp [hname] at hstart
  | cons c text =>
    rw [hname] at hstart hparts
    have hc : isNameStart c = true := by simpa using hstart
    have hne : ∀ d, isNameStart d = false → c ≠ d := fun d hd => ne_of_isNameStart hc hd
    have hword : (.word, name) = ((.word, String.ofList (c :: text)) : TokenKind × String) := by
      rw [← hname, String.ofList_toList]
    rw [hword]
    refine .token ?_ ?_
    · unfold isSeparator
      simp [hne ' ' (by decide), hne '\t' (by decide), hne '\r' (by decide),
        hne '\n' (by decide)]
    · have hnumber : afterNumber? (c :: text ++ rest) = none :=
        afterNumber?_of_not_digit (isDigit_of_isNameStart hc) (hne '.' (by decide))
      have hhead : (c :: text ++ rest).head?.any isNameStart = true := by simpa using hc
      have hdashed := afterText?_dashed hparts hrest
      have hrest' := dropWhile_isNamePart hparts hrest
      unfold afterToken?
      split
      · next heq => exact absurd (List.cons.inj heq).1 (hne '/' (by decide))
      · next heq => exact absurd (List.cons.inj heq).1 (hne '/' (by decide))
      · next heq => exact absurd (List.cons.inj heq).1 (hne '"' (by decide))
      · next heq => exact absurd (List.cons.inj heq).1 (hne '"' (by decide))
      · next heq => exact absurd (List.cons.inj heq).1 (hne '\'' (by decide))
      · next heq => exact absurd (List.cons.inj heq).1 (hne '@' (by decide))
      · rw [hnumber]
        dsimp only
        rw [if_pos hhead, hdashed]
        dsimp only
        rw [hrest']

/-! ## Symbols -/

/-- The symbols that a type is written with. -/
def typeSymbols : List Char := ['<', '>', ',', '[', ']', '?', '.']

theorem lexesTo_symbol {c : Char} {rest : List Char} (hc : c ∈ typeSymbols)
    (hlong : ∀ symbol ∈ longSymbols, afterText? symbol.toList (c :: rest) = none)
    (hnumber : afterNumber? (c :: rest) = none) :
    LexesTo [c] [(.symbol, String.ofList [c])] rest := by
  have hfacts : (typeSymbols.all fun c => isSeparator c = false ∧ isNameStart c = false
      ∧ shortSymbols.contains c = true ∧ c ≠ '/' ∧ c ≠ '"' ∧ c ≠ '\'' ∧ c ≠ '@') = true := by
    decide
  obtain ⟨hseparator, hname, hshort, hslash, hquote, hapostrophe, hat⟩ :=
    of_decide_eq_true (List.all_eq_true.mp hfacts c hc)
  refine .token hseparator ?_
  have hsymbol : afterSymbol? (c :: rest) = some rest := by
    have hnone : (longSymbols.findSome? fun symbol => afterText? symbol.toList (c :: rest))
        = none := List.findSome?_eq_none_iff.mpr hlong
    rw [afterSymbol?, hnone]
    dsimp only
    rw [if_pos hshort]
  rw [List.singleton_append]
  unfold afterToken?
  split
  · next heq => exact absurd (List.cons.inj heq).1 hslash
  · next heq => exact absurd (List.cons.inj heq).1 hslash
  · next heq => exact absurd (List.cons.inj heq).1 hquote
  · next heq => exact absurd (List.cons.inj heq).1 hquote
  · next heq => exact absurd (List.cons.inj heq).1 hapostrophe
  · next heq => exact absurd (List.cons.inj heq).1 hat
  · rw [hnumber]
    dsimp only
    rw [if_neg (by simpa using hname), hsymbol, Option.map_some]

/-- A text that begins otherwise does not come next. -/
theorem afterText?_of_take_ne {text rest : List Char} {n : Nat} (hn : n ≤ text.length)
    (h : text.take n ≠ rest.take n) : afterText? text rest = none := by
  cases hafter : afterText? text rest with
  | none => rfl
  | some after =>
    rw [eq_append_of_afterText? hafter, List.take_append_of_le_length hn] at h
    exact absurd rfl h

/-- A symbol that begins no longer one. -/
theorem lexesTo_plainSymbol {c : Char} {rest : List Char} (hc : c ∈ ['>', ',', '[', ']', '?']) :
    LexesTo [c] [(.symbol, String.ofList [c])] rest := by
  have hfacts : (['>', ',', '[', ']', '?'].all fun c => c ∈ typeSymbols ∧ c.isDigit = false
      ∧ c ≠ '.' ∧ ∀ symbol ∈ longSymbols, 1 ≤ symbol.toList.length
        ∧ symbol.toList.take 1 ≠ [c]) = true := by
    decide
  obtain ⟨hmem, hdigit, hdot, hlong⟩ := of_decide_eq_true (List.all_eq_true.mp hfacts c hc)
  refine lexesTo_symbol hmem ?_ (afterNumber?_of_not_digit hdigit hdot)
  intro symbol hsymbol
  obtain ⟨hlength, htake⟩ := hlong symbol hsymbol
  exact afterText?_of_take_ne hlength htake

/-- Whether a type may begin like a text. -/
def beginsType (text : List Char) : Bool := text.head?.any fun c => isNameStart c || c = '?'

/-- No number begins with a dot that no digit follows. -/
theorem afterNumber?_dot {d : Char} {text : List Char} (hd : d.isDigit = false) :
    afterNumber? ('.' :: d :: text) = none := by
  unfold afterNumber?
  split
  · next heq => cases heq
  · rw [afterDecimal?, afterDigits?_of_not_digit (by decide)]
    dsimp only
    rw [afterDigits?_of_not_digit hd, Option.map_none]

/-- In front of a type the symbols that may begin longer ones are tokens of their own. -/
theorem lexesTo_opening {c : Char} {rest : List Char} (hc : c ∈ ['<', '.'])
    (hrest : beginsType rest = true) :
    LexesTo [c] [(.symbol, String.ofList [c])] rest := by
  cases rest with
  | nil => cases hrest
  | cons d rest =>
    have hd : isNameStart d = true ∨ d = '?' := by simpa [beginsType] using hrest
    have hdigit : d.isDigit = false := by
      rcases hd with hd | rfl
      · exact isDigit_of_isNameStart hd
      · decide
    have hsecond : (['<', '.'].all fun c => c ∈ typeSymbols ∧ ∀ symbol ∈ longSymbols,
        2 ≤ symbol.toList.length ∧ ((symbol.toList.take 2).head? = some c →
          (symbol.toList.take 2)[1]? ∈ [some '<', some '=', some '.'])) = true := by
      decide
    obtain ⟨hmem, hlong⟩ := of_decide_eq_true (List.all_eq_true.mp hsecond c hc)
    refine lexesTo_symbol hmem (fun symbol hsymbol => ?_) ?_
    · obtain ⟨hlength, hnext⟩ := hlong symbol hsymbol
      refine afterText?_of_take_ne hlength fun htake => ?_
      -- the second character would have to go on with the symbol
      rw [htake] at hnext
      have hbad : d ∈ ['<', '=', '.'] := by simpa using hnext rfl
      have hnone : (['<', '=', '.'].all fun d => isNameStart d = false ∧ d ≠ '?') = true := by
        decide
      obtain ⟨hletter, hmark⟩ := of_decide_eq_true (List.all_eq_true.mp hnone d hbad)
      rcases hd with hd | hd
      · rw [hletter] at hd
        cases hd
      · exact hmark hd
    · rw [List.mem_cons, List.mem_singleton] at hc
      rcases hc with rfl | rfl
      · exact afterNumber?_of_not_digit (by decide) (by decide)
      · exact afterNumber?_dot hdigit

/-! ## Names of classes -/

namespace WrittenType

/-- The words that are not taken for a part of the name of a class. -/
def reservedWords : List String :=
  "void" :: Grammar.primitiveWords ++ ["class", "this", "super", "new"]

/-- Whether a name can be written for a class. -/
def isClassName (name : String) : Bool :=
  (Text.split '.' name).all fun part => isIdentifier part && !reservedWords.contains part

/-- The lexemes of the parts of a name after the first. -/
def partLexemes (parts : List String) : List (TokenKind × String) :=
  parts.flatMap fun part => [(.symbol, "."), (.word, part)]

/-- The lexemes of a name. -/
def nameLexemes (name : String) : List (TokenKind × String) :=
  match Text.split '.' name with
  | [] => []
  | first :: others => (.word, first) :: partLexemes others

/-- A name is its parts with dots between. -/
theorem toList_of_split {name first : String} {others : List String}
    (h : Text.split '.' name = first :: others) :
    name.toList = first.toList ++ others.flatMap fun part => '.' :: part.toList := by
  obtain ⟨part, parts, hsplit, rfl, rfl⟩ := List.map_eq_cons_iff.mp h
  rw [Text.eq_of_splitOnChar hsplit, String.toList_ofList, List.flatMap_map]
  simp only [String.toList_ofList]

theorem breaksWord_of_mem {c : Char} (hc : c ∈ [' ', '.', '<', '>', ',', '[', ']'])
    (rest : List Char) : breaksWord (c :: rest) = true := by
  have hall : ([' ', '.', '<', '>', ',', '[', ']'].all fun c => !(isNamePart c || c = '-'))
      = true := by
    decide
  rw [breaksWord_cons]
  exact List.all_eq_true.mp hall c hc

theorem beginsType_of_identifier {name : String} (h : isIdentifier name = true)
    (rest : List Char) : beginsType (name.toList ++ rest) = true := by
  rw [isIdentifier, Bool.and_eq_true] at h
  cases hname : name.toList with
  | nil => simp [hname] at h
  | cons c text =>
    have hc : isNameStart c = true := by simpa [hname] using h.1
    simp [beginsType, hc]

theorem lexesTo_parts {parts : List String} {rest : List Char}
    (h : ∀ part ∈ parts, isIdentifier part = true) (hrest : breaksWord rest = true) :
    LexesTo (parts.flatMap fun part => '.' :: part.toList) (partLexemes parts) rest := by
  induction parts with
  | nil => exact .nil
  | cons part parts ih =>
    rw [List.forall_mem_cons] at h
    have hbreaks : breaksWord ((parts.flatMap fun part => '.' :: part.toList) ++ rest) = true := by
      cases parts with
      | nil => exact hrest
      | cons next parts => exact breaksWord_of_mem (by simp) _
    have hdot := lexesTo_opening (c := '.') (by simp)
      (beginsType_of_identifier h.1 ((parts.flatMap fun part => '.' :: part.toList) ++ rest))
    exact (hdot.append (lexesTo_word h.1 hbreaks)).append (ih h.2)

/-- A name of a class falls into its parts. -/
theorem lexesTo_name {name : String} {rest : List Char} (h : isClassName name = true)
    (hrest : breaksWord rest = true) : LexesTo name.toList (nameLexemes name) rest := by
  rw [isClassName, List.all_eq_true] at h
  have hidentifier : ∀ part ∈ Text.split '.' name, isIdentifier part = true := fun part hpart =>
    (Bool.and_eq_true _ _ ▸ h part hpart).1
  rw [nameLexemes]
  cases hsplit : Text.split '.' name with
  | nil => exact absurd (List.map_eq_nil_iff.mp hsplit) (Text.splitOnChar_ne_nil '.' _)
  | cons first others =>
    rw [hsplit, List.forall_mem_cons] at hidentifier
    rw [toList_of_split hsplit]
    have hbreaks : breaksWord ((others.flatMap fun part => '.' :: part.toList) ++ rest) = true := by
      cases others with
      | nil => exact hrest
      | cons next others => exact breaksWord_of_mem (by simp) _
    exact (lexesTo_word hidentifier.1 hbreaks).append (lexesTo_parts hidentifier.2 hrest)

/-! ## Types -/

mutual

/-- Whether a type can be written where a type is expected, or, if so said, a type argument. -/
def isWritable (argument : Bool) : WrittenType → Bool
  | void => true
  | primitive keyword => Grammar.primitiveWords.contains keyword
  | named name arguments => isClassName name && areWritable arguments
  | array element => isWritable false element
  | wildcard => argument
  | wildcardExtends bound => argument && isWritable false bound
  | wildcardSuper bound => argument && isWritable false bound
  | unknown _ => false

/-- Whether some types can be written as type arguments. -/
def areWritable : List WrittenType → Bool
  | [] => true
  | first :: others => isWritable true first && areWritable others

end

mutual

/-- The lexemes of a type. -/
def lexemes : WrittenType → List (TokenKind × String)
  | void => [(.word, "void")]
  | primitive keyword => [(.word, keyword)]
  | named name [] => nameLexemes name
  | named name (first :: others) =>
    nameLexemes name ++ [(.symbol, "<")] ++ first.lexemes ++ lexemesOthers others
      ++ [(.symbol, ">")]
  | array element => element.lexemes ++ [(.symbol, "["), (.symbol, "]")]
  | wildcard => [(.symbol, "?")]
  | wildcardExtends bound => [(.symbol, "?"), (.word, "extends")] ++ bound.lexemes
  | wildcardSuper bound => [(.symbol, "?"), (.word, "super")] ++ bound.lexemes
  | unknown _ => []

/-- The lexemes of the entries of a list after the first. -/
def lexemesOthers : List WrittenType → List (TokenKind × String)
  | [] => []
  | first :: others => [(.symbol, ",")] ++ first.lexemes ++ lexemesOthers others

end

/-- What can be written as a type can be written as a type argument. -/
theorem isWritable_true {t : WrittenType} {argument : Bool} (h : t.isWritable argument = true) :
    t.isWritable true = true := by
  cases t with
  | wildcard => rfl
  | wildcardExtends bound =>
    rw [isWritable, Bool.and_eq_true] at h ⊢
    exact ⟨rfl, h.2⟩
  | wildcardSuper bound =>
    rw [isWritable, Bool.and_eq_true] at h ⊢
    exact ⟨rfl, h.2⟩
  | _ => exact h

theorem beginsType_name {name : String} (h : isClassName name = true) (rest : List Char) :
    beginsType (name.toList ++ rest) = true := by
  rw [isClassName, List.all_eq_true] at h
  cases hsplit : Text.split '.' name with
  | nil => exact absurd (List.map_eq_nil_iff.mp hsplit) (Text.splitOnChar_ne_nil '.' _)
  | cons first others =>
    rw [hsplit, List.forall_mem_cons, Bool.and_eq_true] at h
    rw [toList_of_split hsplit, List.append_assoc]
    exact beginsType_of_identifier h.1.1 _

theorem isIdentifier_primitive :
    ∀ keyword ∈ Grammar.primitiveWords, isIdentifier keyword = true := by
  decide

theorem beginsType_text : (t : WrittenType) → {argument : Bool} → t.isWritable argument = true →
    ∀ rest, beginsType (t.text.toList ++ rest) = true
  | void, _, _, rest => by
    rw [text]
    exact beginsType_of_identifier (by decide) rest
  | primitive keyword, _, h, rest => by
    rw [isWritable, List.contains_iff_mem] at h
    rw [text]
    exact beginsType_of_identifier (isIdentifier_primitive keyword h) rest
  | named name [], _, h, rest => by
    rw [isWritable, Bool.and_eq_true] at h
    rw [text]
    exact beginsType_name h.1 rest
  | named name (first :: others), _, h, rest => by
    rw [isWritable, Bool.and_eq_true] at h
    simp only [text, String.toList_append, List.append_assoc]
    exact beginsType_name h.1 _
  | array element, _, h, rest => by
    rw [text, String.toList_append, List.append_assoc]
    exact beginsType_text element h _
  | wildcard, _, _, _ => rfl
  | wildcardExtends bound, _, _, _ => by
    simp [text, beginsType]
  | wildcardSuper bound, _, _, _ => by
    simp [text, beginsType]
  | unknown _, _, h, _ => by cases h

theorem breaksWord_textOthers (ts : List WrittenType) {rest : List Char}
    (h : breaksWord rest = true) : breaksWord ((textOthers ts).toList ++ rest) = true := by
  cases ts with
  | nil => exact h
  | cons t ts =>
    simp only [textOthers, String.toList_append, List.append_assoc]
    exact breaksWord_of_mem (c := ',') (by simp) _

/-- The brackets of an array. -/
theorem lexesTo_brackets (rest : List Char) :
    LexesTo "[]".toList [(.symbol, "["), (.symbol, "]")] rest :=
  (lexesTo_plainSymbol (c := '[') (by simp)).append (lexesTo_plainSymbol (c := ']') (by simp))

/-- A question mark and the word that comes before a bound. -/
theorem lexesTo_bound {text : List Char} {lexemes : List (TokenKind × String)} {rest : List Char}
    (h : LexesTo text lexemes rest) {word : String} (hword : isIdentifier word = true) :
    LexesTo ('?' :: ' ' :: word.toList ++ ' ' :: text)
      ([(.symbol, "?"), (.word, word)] ++ lexemes) rest :=
  ((lexesTo_plainSymbol (c := '?') (by simp)).append
    (lexesTo_word hword (breaksWord_of_mem (by simp) _)).space).append h.space

mutual

/-- **A type that can be written falls into its lexemes.** -/
theorem lexesTo_text : (t : WrittenType) → {argument : Bool} → t.isWritable argument = true →
    {rest : List Char} → breaksWord rest = true → LexesTo t.text.toList t.lexemes rest
  | void, _, _, _, hrest => by
    rw [text, lexemes]
    exact lexesTo_word (by decide) hrest
  | primitive keyword, _, h, _, hrest => by
    rw [isWritable, List.contains_iff_mem] at h
    rw [text, lexemes]
    exact lexesTo_word (isIdentifier_primitive keyword h) hrest
  | named name [], _, h, _, hrest => by
    rw [isWritable, Bool.and_eq_true] at h
    rw [text, lexemes]
    exact lexesTo_name h.1 hrest
  | named name (first :: others), _, h, rest, hrest => by
    rw [isWritable, Bool.and_eq_true, areWritable, Bool.and_eq_true] at h
    obtain ⟨hname, hfirst, hothers⟩ := h
    have hbreaks : breaksWord ('>' :: rest) = true := breaksWord_of_mem (by simp) _
    have hclose : LexesTo ['>'] [(.symbol, ">")] rest := lexesTo_plainSymbol (by simp)
    have hend := (lexesTo_textOthers others hothers hbreaks).append hclose
    have hbreaks' := breaksWord_textOthers others hbreaks
    rw [← List.singleton_append, ← List.append_assoc] at hbreaks'
    have harguments := (lexesTo_text first hfirst hbreaks').append hend
    have hopen : LexesTo ['<'] [(.symbol, "<")]
        (first.text.toList ++ ((textOthers others).toList ++ ['>']) ++ rest) := by
      refine lexesTo_opening (by simp) ?_
      rw [List.append_assoc]
      exact beginsType_text first hfirst _
    have hlist := hopen.append harguments
    have hall := (lexesTo_name hname (breaksWord_of_mem (by simp) _)).append hlist
    simpa [text, lexemes] using hall
  | array element, _, h, rest, hrest => by
    have hbreaks : breaksWord ("[]".toList ++ rest) = true :=
      breaksWord_of_mem (c := '[') (by simp) _
    rw [text, String.toList_append, lexemes]
    exact (lexesTo_text element h hbreaks).append (lexesTo_brackets rest)
  | wildcard, _, _, rest, _ => lexesTo_plainSymbol (c := '?') (by simp)
  | wildcardExtends bound, _, h, rest, hrest => by
    rw [isWritable, Bool.and_eq_true] at h
    have hword : isIdentifier "extends" = true := by decide
    rw [text, String.toList_append, lexemes]
    exact lexesTo_bound (lexesTo_text bound h.2 hrest) hword
  | wildcardSuper bound, _, h, rest, hrest => by
    rw [isWritable, Bool.and_eq_true] at h
    have hword : isIdentifier "super" = true := by decide
    rw [text, String.toList_append, lexemes]
    exact lexesTo_bound (lexesTo_text bound h.2 hrest) hword
  | unknown _, _, h, _, _ => by cases h

/-- So do the further types of a list. -/
theorem lexesTo_textOthers : (ts : List WrittenType) → areWritable ts = true →
    {rest : List Char} → breaksWord rest = true →
    LexesTo (textOthers ts).toList (lexemesOthers ts) rest
  | [], _, _, _ => .nil
  | t :: ts, h, rest, hrest => by
    rw [areWritable, Bool.and_eq_true] at h
    have hcomma : LexesTo [','] [(.symbol, ",")]
        ((' ' :: t.text.toList) ++ ((textOthers ts).toList ++ rest)) :=
      lexesTo_plainSymbol (by simp)
    have ht := lexesTo_text t h.1 (breaksWord_textOthers ts hrest)
    have hall := (hcomma.append ht.space).append (lexesTo_textOthers ts h.2 hrest)
    simpa [textOthers, lexemesOthers] using hall

end

end WrittenType

end Conformance.Java
