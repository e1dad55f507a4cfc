import Conformance.Proofs.Lexing

/-!
# What rules come to

A rule of the grammar takes the first alternative that matches, so to know what it comes to at
a place one has to know which alternatives match there and which do not. Both are said without
a bound on how deep rules may nest: a rule takes tokens from some depth on (`Takes`), or it does
not match at any depth (`Rejects`). There is one lemma for each way to build a rule, and the
tokens at a place are known by their lexemes or by the symbols that are not next (`Bars`).
-/

namespace Conformance.Java

/-! ## Rules in general -/

section

variable {S : Type} {rules : S → Rule S} {rule first inner extension : Rule S}
  {others : List (Rule S)} {place mid next : Place} {ts us : List Tree} {n m k : Nat}

/-- A rule takes tokens and builds trees, if rules may nest deep enough. -/
def Takes (rules : S → Rule S) (depth : Nat) (rule : Rule S) (place : Place) (ts : List Tree)
    (next : Place) : Prop :=
  ∀ fuel, depth ≤ fuel → matchRule rules fuel rule place = some (ts, next)

/-- A rule does not match, however deep rules may nest. -/
def Rejects (rules : S → Rule S) (rule : Rule S) (place : Place) : Prop :=
  ∀ fuel, matchRule rules fuel rule place = none

namespace Takes

theorem mono (h : Takes rules n rule place ts next) (hn : n ≤ k) :
    Takes rules k rule place ts next :=
  fun fuel hfuel => h fuel (Nat.le_trans hn hfuel)

theorem one {test : TokenTest} {t : Token} {last : Option Token} {rest : List Token}
    (hcomment : t.isComment = false) (h : test.accepts t = true) :
    Takes rules 1 (.one test) ⟨last, t :: rest⟩ [.leaf t] ⟨some t, rest⟩ := by
  intro fuel hfuel
  obtain ⟨fuel, rfl⟩ := Nat.exists_eq_add_of_le' hfuel
  have hnext : (t :: rest).dropWhile Token.isComment = t :: rest :=
    List.dropWhile_cons_of_neg (by rw [hcomment]; exact Bool.false_ne_true)
  have hbefore : (t :: rest).takeWhile Token.isComment = [] :=
    List.takeWhile_cons_of_neg (by rw [hcomment]; exact Bool.false_ne_true)
  rw [matchRule, Place.take?]
  dsimp only
  rw [hnext]
  dsimp only
  rw [if_pos h, hbefore]
  rfl

theorem seqNil : Takes rules 1 (.seq []) place [] place := by
  intro fuel hfuel
  obtain ⟨fuel, rfl⟩ := Nat.exists_eq_add_of_le' hfuel
  rfl

theorem seq (h : Takes rules n first place ts mid) (h' : Takes rules m (.seq others) mid us next)
    (hn : n < k) (hm : m < k) : Takes rules k (.seq (first :: others)) place (ts ++ us) next := by
  intro fuel hfuel
  obtain ⟨fuel, rfl⟩ := Nat.exists_eq_add_of_le' (show 1 ≤ fuel by omega)
  simp only [matchRule, h fuel (by omega), h' fuel (by omega), Option.bind_eq_bind,
    Option.bind_some, Option.pure_def]

theorem choiceHead (h : Takes rules n first place ts next) :
    Takes rules (n + 1) (.choice (first :: others)) place ts next := by
  intro fuel hfuel
  obtain ⟨fuel, rfl⟩ := Nat.exists_eq_add_of_le' (show 1 ≤ fuel by omega)
  simp only [matchRule, h fuel (by omega)]

theorem choiceTail (h : Rejects rules first place)
    (h' : Takes rules n (.choice others) place ts next) :
    Takes rules (n + 1) (.choice (first :: others)) place ts next := by
  intro fuel hfuel
  obtain ⟨fuel, rfl⟩ := Nat.exists_eq_add_of_le' (show 1 ≤ fuel by omega)
  simp only [matchRule, h fuel, h' fuel (by omega)]

theorem manyNil (h : Rejects rules inner place) : Takes rules 1 (.many inner) place [] place := by
  intro fuel hfuel
  obtain ⟨fuel, rfl⟩ := Nat.exists_eq_add_of_le' hfuel
  simp only [matchRule, h fuel]

theorem manyCons (h : Takes rules n inner place ts mid)
    (h' : Takes rules m (.many inner) mid us next) (hn : n < k) (hm : m < k) :
    Takes rules k (.many inner) place (ts ++ us) next := by
  intro fuel hfuel
  obtain ⟨fuel, rfl⟩ := Nat.exists_eq_add_of_le' (show 1 ≤ fuel by omega)
  simp only [matchRule, h fuel (by omega), h' fuel (by omega), Option.bind_eq_bind,
    Option.bind_some, Option.pure_def]

theorem call {symbol : S} (h : Takes rules n (rules symbol) place ts next) :
    Takes rules (n + 1) (.call symbol) place ts next := by
  intro fuel hfuel
  obtain ⟨fuel, rfl⟩ := Nat.exists_eq_add_of_le' (show 1 ≤ fuel by omega)
  simp only [matchRule, h fuel (by omega)]

theorem node (kind : NodeKind) (h : Takes rules n inner place ts next) :
    Takes rules (n + 1) (.node kind inner) place (gather kind ts) next := by
  intro fuel hfuel
  obtain ⟨fuel, rfl⟩ := Nat.exists_eq_add_of_le' (show 1 ≤ fuel by omega)
  simp only [matchRule, h fuel (by omega), Option.map_some]

theorem unextended {kind : NodeKind} (h : Takes rules n inner place ts next)
    (h' : Rejects rules extension next) :
    Takes rules (n + 1) (.extended kind inner extension) place ts next := by
  intro fuel hfuel
  obtain ⟨fuel, rfl⟩ := Nat.exists_eq_add_of_le' (show 1 ≤ fuel by omega)
  simp only [matchRule, h fuel (by omega), h' fuel, Option.bind_eq_bind, Option.bind_some,
    Option.pure_def]

theorem extended (kind : NodeKind) (h : Takes rules n inner place ts mid)
    (h' : Takes rules m extension mid us next) (hn : n < k) (hm : m < k) :
    Takes rules k (.extended kind inner extension) place (gather kind (ts ++ us)) next := by
  intro fuel hfuel
  obtain ⟨fuel, rfl⟩ := Nat.exists_eq_add_of_le' (show 1 ≤ fuel by omega)
  simp only [matchRule, h fuel (by omega), h' fuel (by omega), Option.bind_eq_bind,
    Option.bind_some, Option.pure_def]

theorem optional (h : Takes rules n rule place ts next) :
    Takes rules (n + 1) (Rule.optional rule) place ts next :=
  h.choiceHead

theorem optionalNone (h : Rejects rules rule place) :
    Takes rules 3 (Rule.optional rule) place [] place :=
  choiceTail h seqNil.choiceHead

end Takes

namespace Rejects

theorem one {test : TokenTest} (h : place.take? test = none) : Rejects rules (.one test) place := by
  intro fuel
  cases fuel with
  | zero => rfl
  | succ fuel => exact h

theorem seq (h : Rejects rules first place) : Rejects rules (.seq (first :: others)) place := by
  intro fuel
  cases fuel with
  | zero => rfl
  | succ fuel => simp only [matchRule, h fuel, Option.bind_eq_bind, Option.bind_none]

/-- What may be repeated may also be left out. -/
theorem seqMany (h : Rejects rules inner place) (h' : Rejects rules (.seq others) place) :
    Rejects rules (.seq (.many inner :: others)) place := by
  intro fuel
  cases fuel with
  | zero => rfl
  | succ fuel =>
    cases fuel with
    | zero => rfl
    | succ fuel =>
      have hmany : matchRule rules (fuel + 1) (.many inner) place = some ([], place) :=
        Takes.manyNil h (fuel + 1) (Nat.le_add_left ..)
      rw [matchRule]
      simp only [hmany, Option.bind_eq_bind, Option.bind_some, h' (fuel + 1), Option.bind_none]

theorem choiceNil : Rejects rules (.choice []) place := by
  intro fuel
  cases fuel <;> rfl

theorem choiceCons (h : Rejects rules first place) (h' : Rejects rules (.choice others) place) :
    Rejects rules (.choice (first :: others)) place := by
  intro fuel
  cases fuel with
  | zero => rfl
  | succ fuel => simp only [matchRule, h fuel, h' fuel]

theorem call {symbol : S} (h : Rejects rules (rules symbol) place) :
    Rejects rules (.call symbol) place := by
  intro fuel
  cases fuel with
  | zero => rfl
  | succ fuel => simp only [matchRule, h fuel]

theorem node {kind : NodeKind} (h : Rejects rules inner place) :
    Rejects rules (.node kind inner) place := by
  intro fuel
  cases fuel with
  | zero => rfl
  | succ fuel => simp only [matchRule, h fuel, Option.map_none]

end Rejects

end

theorem gather_cons (kind : NodeKind) {t : Tree} (h : t.isComment = false) (ts : List Tree) :
    gather kind (t :: ts) = [.node kind (t :: ts)] := by
  rw [gather, List.takeWhile_cons_of_neg (by rw [h]; exact Bool.false_ne_true),
    List.dropWhile_cons_of_neg (by rw [h]; exact Bool.false_ne_true), List.nil_append]

/-! ## What comes next -/

/-- The next token that is no comment is none of some symbols. -/
def Bars (symbols : List String) (tokens : List Token) : Prop :=
  ∀ t, (tokens.dropWhile Token.isComment).head? = some t → ∀ s ∈ symbols, t.isSymbol s = false

instance (symbols : List String) (tokens : List Token) : Decidable (Bars symbols tokens) :=
  decidable_of_iff
    ((tokens.dropWhile Token.isComment).head?.all fun t => symbols.all fun s => !t.isSymbol s)
    (by simp [Bars, Option.all_eq_true])

theorem Bars.mono {symbols symbols' : List String} {tokens : List Token} (h : Bars symbols tokens)
    (hsub : ∀ s ∈ symbols', s ∈ symbols) : Bars symbols' tokens :=
  fun t ht s hs => h t ht s (hsub s hs)

theorem dropWhile_isComment_cons {t : Token} (h : t.isComment = false) (rest : List Token) :
    (t :: rest).dropWhile Token.isComment = t :: rest :=
  List.dropWhile_cons_of_neg (by rw [h]; exact Bool.false_ne_true)

theorem bars_cons {symbols : List String} {t : Token} (hcomment : t.isComment = false)
    (h : ∀ s ∈ symbols, t.isSymbol s = false) (rest : List Token) : Bars symbols (t :: rest) := by
  intro u hu
  rw [dropWhile_isComment_cons hcomment, List.head?_cons, Option.some.injEq] at hu
  subst hu
  exact h

open Grammar

namespace Rejects

variable {place : Place}

theorem sym {symbols : List String} {s : String} (h : Bars symbols place.rest)
    (hs : s ∈ symbols) : Rejects rules (Grammar.sym s) place := by
  refine .one ?_
  unfold Place.take?
  split
  · rfl
  · next t rest hdrop =>
    have hno := h t (by rw [hdrop]; rfl) s hs
    rw [if_neg (by rw [TokenTest.accepts, hno]; exact Bool.false_ne_true)]

theorem token {test : TokenTest} {t : Token} {last : Option Token} {rest : List Token}
    (hcomment : t.isComment = false) (h : test.accepts t = false) :
    Rejects rules (.one test) ⟨last, t :: rest⟩ := by
  refine .one ?_
  unfold Place.take?
  dsimp only
  rw [dropWhile_isComment_cons hcomment]
  dsimp only
  rw [if_neg (by rw [h]; exact Bool.false_ne_true)]

theorem annotationUse (h : Bars ["@"] place.rest) : Rejects rules (.call .annotationUse) place :=
  .call (.node (.seq (.sym h (List.mem_singleton_self _))))

theorem typeArguments (h : Bars ["<"] place.rest) : Rejects rules (.call .typeArguments) place :=
  .call (.node (.seq (.sym h (List.mem_singleton_self _))))

theorem dimensions (h : Bars ["[", "@"] place.rest) : Rejects rules (.call .dimensions) place :=
  .call (.node (.seq (.seqMany (.annotationUse (h.mono (by simp)))
    (.seq (.sym h (List.mem_cons_self ..))))))

theorem oneWord {words : List String} {t : Token} {last : Option Token} {rest : List Token}
    (hcomment : t.isComment = false) (h : t.text ∉ words) :
    Rejects rules (Grammar.oneWord words) ⟨last, t :: rest⟩ := by
  induction words with
  | nil => exact .choiceNil
  | cons w words ih =>
    rw [List.mem_cons, not_or] at h
    refine .choiceCons (.token hcomment ?_) (ih h.2)
    rw [TokenTest.accepts, Token.isWord, decide_eq_false h.1, Bool.and_false]

end Rejects

/-! ## Lexemes at a place -/

theorem isComment_of_lexeme {t : Token} {kind : TokenKind} {text : String}
    (h : t.lexeme = (kind, text)) (hkind : kind ≠ .comment) : t.isComment = false := by
  rw [Token.lexeme, Prod.mk.injEq] at h
  rw [Token.isComment, h.1, decide_eq_false hkind]

theorem isComment_leaf {t : Token} {kind : TokenKind} {text : String}
    (h : t.lexeme = (kind, text)) (hkind : kind ≠ .comment) : (Tree.leaf t).isComment = false :=
  isComment_of_lexeme h hkind

theorem text_of_lexeme {t : Token} {kind : TokenKind} {text : String}
    (h : t.lexeme = (kind, text)) : t.text = text := by
  rw [Token.lexeme, Prod.mk.injEq] at h
  exact h.2

theorem isWord_of_lexeme {t : Token} {text : String} (h : t.lexeme = (.word, text))
    (s : String) : t.isWord s = decide (text = s) := by
  rw [Token.lexeme, Prod.mk.injEq] at h
  rw [Token.isWord, h.1, h.2, decide_eq_true rfl, Bool.true_and]

theorem isSymbol_of_lexeme_word {t : Token} {text : String} (h : t.lexeme = (.word, text))
    (s : String) : t.isSymbol s = false := by
  rw [Token.lexeme, Prod.mk.injEq] at h
  rw [Token.isSymbol, h.1]
  rfl

theorem isSymbol_of_lexeme {t : Token} {text : String} (h : t.lexeme = (.symbol, text))
    (s : String) : t.isSymbol s = decide (text = s) := by
  rw [Token.lexeme, Prod.mk.injEq] at h
  rw [Token.isSymbol, h.1, h.2, decide_eq_true rfl, Bool.true_and]

/-- After a word no symbol is next. -/
theorem bars_word {t : Token} {text : String} (h : t.lexeme = (.word, text))
    (symbols : List String) (rest : List Token) : Bars symbols (t :: rest) :=
  bars_cons (isComment_of_lexeme h (by decide)) (fun s _ => isSymbol_of_lexeme_word h s) rest

theorem bars_symbol {t : Token} {text : String} (h : t.lexeme = (.symbol, text))
    {symbols : List String} (htext : text ∉ symbols) (rest : List Token) :
    Bars symbols (t :: rest) := by
  refine bars_cons (isComment_of_lexeme h (by decide)) (fun s hs => ?_) rest
  rw [isSymbol_of_lexeme h, decide_eq_false_iff_not]
  rintro rfl
  exact htext hs

namespace Takes

variable {last : Option Token} {rest : List Token} {t : Token} {text : String}

theorem sym (h : t.lexeme = (.symbol, text)) :
    Takes rules 1 (Grammar.sym text) ⟨last, t :: rest⟩ [.leaf t] ⟨some t, rest⟩ := by
  refine .one (isComment_of_lexeme h (by decide)) ?_
  rw [TokenTest.accepts, isSymbol_of_lexeme h]
  exact decide_eq_true rfl

theorem word (h : t.lexeme = (.word, text)) :
    Takes rules 1 (Grammar.word text) ⟨last, t :: rest⟩ [.leaf t] ⟨some t, rest⟩ := by
  refine .one (isComment_of_lexeme h (by decide)) ?_
  rw [TokenTest.accepts, isWord_of_lexeme h]
  exact decide_eq_true rfl

theorem nameBut {except : List String} (h : t.lexeme = (.word, text)) (hname : text ∉ except) :
    Takes rules 1 (Grammar.nameBut except) ⟨last, t :: rest⟩ [.leaf t] ⟨some t, rest⟩ := by
  refine .one (isComment_of_lexeme h (by decide)) ?_
  rw [Token.lexeme, Prod.mk.injEq] at h
  rw [TokenTest.accepts, h.1, h.2]
  simp [hname]

theorem oneWord {words : List String} (h : t.lexeme = (.word, text)) (hmem : text ∈ words) :
    Takes rules (words.length + 1) (Grammar.oneWord words) ⟨last, t :: rest⟩ [.leaf t]
      ⟨some t, rest⟩ := by
  induction words with
  | nil => cases hmem
  | cons w words ih =>
    by_cases hw : text = w
    · subst hw
      exact (Takes.choiceHead (word h)).mono (by simp)
    · refine .choiceTail ?_ (ih (List.mem_of_ne_of_mem hw hmem))
      refine .token (isComment_of_lexeme h (by decide)) ?_
      rw [TokenTest.accepts, isWord_of_lexeme h, decide_eq_false hw]

end Takes

end Conformance.Java
