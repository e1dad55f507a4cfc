import Conformance.Proofs.Predictive

/-!
# The items of a file

A file is a list of items: the package, imports, and declarations of types and methods. Each of them
has a header and an end, which is a body or a semicolon, and the header has no such thing outside of
brackets. So an item is read without a look at what follows it: where its tokens stand in front of
something else, it is read again (`item_repeated`).

The rule for an item tries several alternatives before the one that matches. They fail in the
modifiers or at the word behind these, which a declaration has in any place.
-/

namespace Conformance.Java

variable {S : Type} {rules : S → Rule S} {rule first : Rule S} {list others : List (Rule S)}
  {place mid next : Place} {result : Option Place}

/-! ## Rules one after the other -/

theorem Ends.seq_append (h : Ends rules (.seq list) place (some mid))
    (h' : Ends rules (.seq others) mid result) : Ends rules (.seq (list ++ others)) place result := by
  induction list generalizing place with
  | nil =>
    cases h
    exact h'
  | cons first list ih =>
    cases h with
    | seqCons h h'' => exact h.seqCons (ih h'')

theorem Ends.of_seq_append (h : Ends rules (.seq (list ++ others)) place (some next)) :
    ∃ mid, Ends rules (.seq list) place (some mid) ∧ Ends rules (.seq others) mid (some next) := by
  induction list generalizing place with
  | nil => exact ⟨place, .seqNil place, h⟩
  | cons first list ih =>
    cases h with
    | seqCons h h'' =>
      obtain ⟨mid, hlist, hothers⟩ := ih h''
      exact ⟨mid, h.seqCons hlist, hothers⟩

theorem Ends.of_seq_singleton (h : Ends rules (.seq [rule]) place (some next)) :
    Ends rules rule place (some next) := by
  cases h with
  | seqCons h h' =>
    cases h'
    exact h

theorem Ends.seq_singleton (h : Ends rules rule place (some next)) :
    Ends rules (.seq [rule]) place (some next) :=
  h.seqCons (.seqNil next)

/-- The first alternative that matches is taken. -/
theorem Ends.choice_append (hlist : ∀ r ∈ list, Ends rules r place none)
    (h : Ends rules rule place (some next)) :
    Ends rules (.choice (list ++ rule :: others)) place (some next) := by
  induction list with
  | nil => exact .choiceHead h
  | cons first list ih =>
    rw [List.forall_mem_cons] at hlist
    exact .choiceTail hlist.1 (ih hlist.2)

theorem Ends.optional_none (h : Ends rules rule place none) :
    Ends rules (.optional rule) place (some place) :=
  .choiceTail h (.choiceHead (.seqNil place))

/-- What may be left out is taken, or it does not match and is left out. -/
theorem Ends.of_optional (h : Ends rules (.optional rule) place (some next)) :
    Ends rules rule place (some next) ∨ Ends rules rule place none ∧ next = place := by
  cases h with
  | choiceHead h => exact .inl h
  | choiceTail h h' =>
    cases h' with
    | choiceTail _ h' => cases h'
    | choiceHead h' =>
      cases h'
      exact .inr ⟨h, rfl⟩

namespace Grammar

variable {rule : Form} {t : Token}

/-! ## What fails at a declaration -/

theorem clear_modifierOutlook (t : Token) : modifierOutlook.clear t := nofun

/-- A rule does not match in front of a token that it does not begin with. -/
theorem ends_none {tests : List TokenTest} (hrule : rule.yields ranking modifierOutlook tests = true)
    (ht : nextToken? place.rest = some t) (hpass : passes tests t = true) :
    Ends Grammar.rules rule place none := by
  refine .refused_of_yields fits_modifierOutlook hrule fun u hu => ?_
  obtain rfl : t = u := Option.some.inj (ht.symm.trans hu)
  exact ⟨clear_modifierOutlook t, hpass⟩

/-- The tokens that tell which type is declared, behind the modifiers. -/
def keywords : List TokenTest :=
  [.word "class", .word "interface", .word "enum", .word "record", .symbol "@interface"]

/-- The tokens that a declaration may begin with. -/
def declarationStarts : List TokenTest :=
  .symbol "@" :: modifierWords.map .word ++ keywords

theorem next_of_firsts (h : Ends Grammar.rules rule place (some mid)) (hne : mid ≠ place) :
    ∃ t, nextToken? place.rest = some t
      ∧ passes (rule.firsts ranking modifierOutlook) t = true := by
  obtain ⟨t, ht, hpass⟩ := (h.first fits_ranking fits_modifierOutlook.firsts rfl).resolve_left hne
  exact ⟨t, ht, hpass (clear_modifierOutlook t)⟩

/-- The modifiers of a declaration begin with annotations, and behind these comes a word. -/
theorem exists_annotations
    (h : Ends Grammar.rules (.many (.choice [.call .annotationUse, oneWord modifierWords])) place
      (some mid)) :
    ∃ q, Ends Grammar.rules (.many (.call .annotationUse)) place (some q)
      ∧ (q = mid ∨ ∃ t, nextToken? q.rest = some t
        ∧ passes (modifierWords.map .word) t = true) := by
  generalize hrule : Rule.many (.choice [.call .annotationUse, oneWord modifierWords]) = rule at h
  generalize hresult : some mid = result at h
  induction h with
  | manyNil h =>
    cases hrule
    cases hresult
    cases h with
    | choiceTail h _ => exact ⟨_, .manyNil h, .inl rfl⟩
  | manyCons h h' ih ih' =>
    cases hrule
    cases h with
    | choiceHead h =>
      obtain ⟨q, hq, hnext⟩ := ih' rfl hresult
      exact ⟨q, h.manyCons hq, hnext⟩
    | choiceTail h h' =>
      cases h' with
      | choiceTail _ h' => cases h'
      | choiceHead h' =>
        refine ⟨_, .manyNil h, .inr ?_⟩
        exact next_of_firsts h' (h'.ne_of_consumes fits_ranking (by decide))
  | _ => cases hrule

/-- What comes first in a declaration, and what comes behind its annotations: a modifier, or the
token behind the modifiers. -/
theorem modifiers_begin (h : Ends Grammar.rules modifierList place (some mid))
    (ht : nextToken? mid.rest = some t) (hkey : passes keywords t = true) :
    (∃ u, nextToken? place.rest = some u ∧ passes declarationStarts u = true)
      ∧ ∃ q u, Ends Grammar.rules (.many (.call .annotationUse)) place (some q)
        ∧ nextToken? q.rest = some u
        ∧ passes (modifierWords.map .word ++ keywords) u = true := by
  have hstart : passes declarationStarts t = true := by
    rw [declarationStarts, passes_append, hkey, Bool.or_true]
  have hbehind : passes (modifierWords.map .word ++ keywords) t = true := by
    rw [passes_append, hkey, Bool.or_true]
  rcases h.of_optional with h | ⟨-, rfl⟩
  · constructor
    · obtain ⟨u, hu, hpass⟩ := next_of_firsts h (h.ne_of_consumes fits_ranking (by decide))
      exact ⟨u, hu, passes_of_coverAll (by decide) hpass⟩
    · cases h with
      | node _ h =>
        cases h with
        | seqCons h h' =>
          obtain ⟨q, hq, hnext⟩ := exists_annotations (h.manyCons h'.of_seq_singleton)
          rcases hnext with rfl | ⟨u, hu, hpass⟩
          · exact ⟨q, t, hq, ht, hbehind⟩
          · exact ⟨q, u, hq, hu, by rw [passes_append, hpass, Bool.true_or]⟩
  · exact ⟨⟨t, ht, hstart⟩, mid, t, .manyNil (ends_none (by decide) ht hkey), ht, hbehind⟩

theorem ends_oneWord {words : List String} (ht : nextToken? place.rest = some t)
    (hpass : passes (words.map .word) t = true) :
    ∃ next, Ends Grammar.rules (oneWord words) place (some next) := by
  induction words with
  | nil => cases hpass
  | cons s words ih =>
    cases haccepts : (TokenTest.word s).accepts t with
    | true =>
      obtain ⟨next, hnext⟩ := Ends.of_next ht haccepts
      exact ⟨next, .choiceHead hnext⟩
    | false =>
      rw [List.map_cons, passes, List.any_cons, haccepts, Bool.false_or] at hpass
      obtain ⟨next, hnext⟩ := ih hpass
      refine ⟨next, .choiceTail (.refused fun u hu => ?_) hnext⟩
      obtain rfl : t = u := Option.some.inj (ht.symm.trans hu)
      exact haccepts

/-- What the rule for an item tries in front of declarations fails at the modifiers, or behind them. -/
theorem ends_none_at_declaration (h : Ends Grammar.rules modifierList place (some mid))
    (ht : nextToken? mid.rest = some t) (hkey : passes keywords t = true) :
    Ends Grammar.rules (.call .methodDecl) place none
      ∧ ∀ r ∈ [sym ";", .call .block, packageDecl, importDecl, .node .code moduleDecl],
        Ends Grammar.rules r place none := by
  obtain ⟨⟨u, hu, hstart⟩, q, w, hq, hw, hbehind⟩ := modifiers_begin h ht hkey
  constructor
  · refine .call (.node _ (.seqCons h (.seqCons (Ends.optional_none (.seqFails
      (ends_none (by decide) ht hkey))) ?_)))
    rw [show keywords = declarationWords.map .word ++ [.symbol "@interface"] from rfl,
      passes_append, Bool.or_eq_true] at hkey
    rcases hkey with hword | hsymbol
    · -- a word that is no type
      have hmember : passes (memberWords.map .word) t = true := passes_of_coverAll (by decide) hword
      obtain ⟨next, hnext⟩ := ends_oneWord ht hmember
      exact .seqFails (.present hnext)
    · exact .seqCons (.absent (ends_none (by decide) ht hsymbol))
        (.seqFails (ends_none (by decide) ht hsymbol))
  · simp only [List.forall_mem_cons, List.not_mem_nil, false_implies, implies_true, and_true]
    refine ⟨ends_none (by decide) hu hstart, ends_none (by decide) hu hstart, ?_,
      ends_none (by decide) hu hstart, ?_⟩
    · exact .node _ (.seqCons hq (.seqFails (ends_none (by decide) hw hbehind)))
    · exact .node _ (.seqCons hq (.seqCons (Ends.optional_none (ends_none (by decide) hw hbehind))
        (.seqFails (ends_none (by decide) hw hbehind))))

/-! ## Which alternative is taken -/

/-- A method, a statement or a declaration. -/
def item : Form := .choice [.call .methodDecl, .call .statement]

/-- The rules for declarations of types, with the words that come behind the modifiers. -/
def typeRules : List (Symbol × TokenTest) :=
  [(.classDecl, .word "class"), (.interfaceDecl, .word "interface"), (.enumDecl, .word "enum"),
    (.recordDecl, .word "record"), (.annotationDecl, .symbol "@interface")]

theorem rules_of_typeRules : ∀ e ∈ typeRules, ∃ kind more,
    Grammar.rules e.1 = .node kind (.seq (modifierList :: .one e.2 :: more)) := by
  simp only [typeRules, List.forall_mem_cons, List.not_mem_nil, false_implies, implies_true, and_true]
  exact ⟨⟨_, _, rfl⟩, ⟨_, _, rfl⟩, ⟨_, _, rfl⟩, ⟨_, _, rfl⟩, ⟨_, _, rfl⟩⟩

/-- The declaration of a type is an item. -/
theorem ends_item_of_type {e : Symbol × TokenTest} (he : e ∈ typeRules)
    (h : Ends Grammar.rules (.call e.1) place (some next)) :
    Ends Grammar.rules item place (some next) := by
  obtain ⟨before, after, hsplit⟩ := List.append_of_mem he
  obtain ⟨kind, more, hrule⟩ := rules_of_typeRules e he
  obtain ⟨mid, t, hmodifiers, ht, haccepts⟩ : ∃ mid t,
      Ends Grammar.rules modifierList place (some mid) ∧ nextToken? mid.rest = some t
        ∧ e.2.accepts t = true := by
    cases h with
    | call h =>
      rw [hrule] at h
      cases h with
      | node _ h =>
        cases h with
        | @seqCons _ _ _ mid _ hmodifiers h =>
          cases h with
          | seqCons h _ =>
            obtain ⟨t, ht, haccepts, -⟩ := h.next_token
            exact ⟨mid, t, hmodifiers, ht, haccepts⟩
  have hkey : passes keywords t = true :=
    List.any_eq_true.mpr ⟨e.2, List.mem_map_of_mem (f := Prod.snd) he, haccepts⟩
  obtain ⟨hmethod, hothers⟩ := ends_none_at_declaration hmodifiers ht hkey
  -- the declarations that are tried before have another word there
  have hbefore : ∀ r ∈ before.map fun e => (Rule.call e.1 : Form),
      Ends Grammar.rules r place none := by
    rw [List.forall_mem_map]
    intro e' he'
    obtain ⟨kind', more', hrule'⟩ := rules_of_typeRules e'
      (hsplit ▸ List.mem_append_left _ he')
    have hapart : e.2.apart e'.2 = true := by
      have hpairwise : typeRules.Pairwise fun a b => b.2.apart a.2 = true := by decide
      rw [hsplit, List.pairwise_append] at hpairwise
      exact hpairwise.2.2 e' he' e (List.mem_cons_self ..)
    refine .call ?_
    rw [hrule']
    refine .node _ (.seqCons hmodifiers (.seqFails (.refused fun u hu => ?_)))
    obtain rfl : t = u := Option.some.inj (ht.symm.trans hu)
    exact TokenTest.not_accepts_of_apart hapart haccepts
  have hstatement : Grammar.rules .statement = .choice (([sym ";", .call .block, packageDecl, importDecl,
      .node .code moduleDecl] ++ before.map fun e => .call e.1)
      ++ .call e.1 :: ((after.map fun e => .call e.1) ++ [.node .code plainStatement])) := by
    have hdecls : typeDecls = typeRules.map fun e => .call e.1 := rfl
    change statement = _
    rw [statement, hdecls, hsplit, List.map_append, List.map_cons]
    simp only [List.append_assoc, List.cons_append, List.nil_append]
  refine .choiceTail hmethod (.choiceHead (.call ?_))
  rw [hstatement]
  exact .choice_append (List.forall_mem_append.mpr ⟨hothers, hbefore⟩) h

/-- The modifiers in front of a word that is none are the annotations. -/
theorem ends_modifiers_of_annotations
    (h : Ends Grammar.rules (.many (.call .annotationUse)) place (some mid))
    (ht : nextToken? mid.rest = some t) (hpass : passes [.word "package", .word "import"] t = true) :
    Ends Grammar.rules modifierList place (some mid) := by
  have hmany : ∀ {place : Place}, Ends Grammar.rules (.many (.call .annotationUse)) place (some mid) →
      Ends Grammar.rules (.many (.choice [.call .annotationUse, oneWord modifierWords])) place
        (some mid) := by
    intro place h
    generalize hrule : (Rule.many (.call Symbol.annotationUse) : Form) = rule at h
    generalize hresult : some mid = result at h
    induction h with
    | manyNil h =>
      cases hresult
      exact .manyNil (ends_none (by decide) ht hpass)
    | manyCons h h' _ ih' =>
      cases hrule
      exact .manyCons (.choiceHead h) (ih' rfl hresult)
    | _ => cases hrule
  cases h with
  | manyNil h => exact .optional_none (ends_none (by decide) ht hpass)
  | manyCons h h' =>
    exact .choiceHead (.node _ (.seqCons (.choiceHead h) (.seq_singleton (hmany h'))))

/-- Two words with no parameters behind them are no method. -/
theorem ends_methodDecl_none {test test' : TokenTest} {q q' : Place} {u w : Token}
    (hmodifiers : Ends Grammar.rules modifierList place (some mid))
    (ht : nextToken? mid.rest = some t) (hpass : passes [.word "package", .word "import"] t = true)
    (hfirst : Ends Grammar.rules (.one test) mid (some q)) (hu : nextToken? q.rest = some u)
    (hword : passes [.kind .word] u = true) (hsecond : Ends Grammar.rules (.one test') q (some q'))
    (hw : nextToken? q'.rest = some w)
    (hnext : passes [.symbol ".", .symbol ";", .kind .word] w = true) :
    Ends Grammar.rules (.call .methodDecl) place none := by
  have hname : passes [.name ("void" :: primitiveWords)] t = true :=
    passes_of_coverAll (by decide) hpass
  have hname' : (TokenTest.name []).accepts u = true := by
    rw [TokenTest.accepts]
    simpa [passes, TokenTest.accepts] using hword
  rw [passes, List.any_cons, List.any_nil, Bool.or_false] at hname
  have htype : Ends Grammar.rules (.call .plainType) mid (some q) := by
    refine .call (.unextended (.call (.choiceTail (ends_none (by decide) ht hpass)
      (.choiceTail (ends_none (by decide) ht hpass) (.choiceHead (.node _ (.seqCons
        (hfirst.same_token ht hname) (.seqCons (.optional_none (ends_none (by decide) hu hword))
          (.seq_singleton (.manyNil (.seqFails (ends_none (by decide) hu hword)))))))))))
      (ends_none (by decide) hu hword))
  exact .call (.node _ (.seqCons hmodifiers (.seqCons (.optional_none (.seqFails
    (ends_none (by decide) ht hpass))) (.seqCons (.absent (ends_none (by decide) ht hpass))
      (.seqCons htype (.seqCons (hsecond.same_token hu hname') (.seqFails
        (ends_none (by decide) hw hnext))))))))

/-- Behind the first part of a dotted name comes a dot, or what comes behind the name. -/
theorem next_of_qualifiedName (h : Ends Grammar.rules (.call .qualifiedName) place (some next))
    {w : Token} (hw : nextToken? next.rest = some w)
    (hpass : passes [.symbol ".", .symbol ";"] w = true) :
    ∃ u q v, nextToken? place.rest = some u ∧ passes [.kind .word] u = true
      ∧ Ends Grammar.rules (nameBut ["static"]) place (some q) ∧ nextToken? q.rest = some v
      ∧ passes [.symbol ".", .symbol ";", .kind .word] v = true := by
  cases h with
  | call h =>
    cases h with
    | node _ h =>
      cases h with
      | @seqCons _ _ _ q _ h h' =>
        obtain ⟨u, hu, haccepts, -⟩ := h.next_token
        have hword : passes [.kind .word] u = true :=
          passes_of_coverAll (by decide) (passes_singleton haccepts)
        have hmany := h'.of_seq_singleton
        cases hmany with
        | manyNil =>
          exact ⟨u, _, w, hu, hword, h, hw, passes_of_coverAll (by decide) hpass⟩
        | manyCons hmany _ =>
          cases hmany with
          | seqCons hdot _ =>
            obtain ⟨v, hv, haccepts', -⟩ := hdot.next_token
            refine ⟨u, q, v, hu, hword, h, hv, ?_⟩
            exact passes_of_coverAll (by decide) (passes_singleton haccepts')

/-- The declaration of a package is an item. -/
theorem ends_item_of_package (h : Ends Grammar.rules packageDecl place (some next)) :
    Ends Grammar.rules item place (some next) := by
  have hdecl := h
  cases h with
  | node _ h =>
    cases h with
    | @seqCons _ _ _ mid _ hannotations h =>
      cases h with
      | @seqCons _ _ _ q _ hword h =>
        cases h with
        | @seqCons _ _ _ behind _ hname h =>
          cases h with
          | seqCons hend _ =>
            obtain ⟨t, ht, haccepts, -⟩ := hword.next_token
            obtain ⟨w, hw, haccepts', -⟩ := hend.next_token
            have hpass : passes [.word "package", .word "import"] t = true :=
              passes_of_coverAll (by decide) (passes_singleton haccepts)
            obtain ⟨u, q', v, hu, huword, hfirst, hv, hvpass⟩ := next_of_qualifiedName hname hw
              (passes_of_coverAll (by decide) (passes_singleton haccepts'))
            have hmethod := ends_methodDecl_none (ends_modifiers_of_annotations hannotations ht hpass)
              ht hpass hword hu huword hfirst hv hvpass
            -- the file goes on with an annotation or with the word
            obtain ⟨x, hx, hxpass⟩ : ∃ x, nextToken? place.rest = some x
                ∧ passes [.symbol "@", .word "package"] x = true := by
              cases hannotations with
              | manyNil => exact ⟨t, ht, passes_of_coverAll (by decide) (passes_singleton haccepts)⟩
              | manyCons huse _ =>
                obtain ⟨x, hx, hxpass⟩ := next_of_firsts huse
                  (huse.ne_of_consumes fits_ranking (by decide))
                exact ⟨x, hx, passes_of_coverAll (by decide) hxpass⟩
            refine .choiceTail hmethod (.choiceHead (.call (.choiceTail
              (ends_none (by decide) hx hxpass) (.choiceTail (ends_none (by decide) hx hxpass)
                (.choiceHead hdecl)))))

/-- An import is an item. -/
theorem ends_item_of_import (h : Ends Grammar.rules importDecl place (some next)) :
    Ends Grammar.rules item place (some next) := by
  have hdecl := h
  cases h with
  | node _ h =>
    cases h with
    | @seqCons _ _ _ q _ hword h =>
      obtain ⟨t, ht, haccepts, -⟩ := hword.next_token
      have hpass : passes [.word "package", .word "import"] t = true :=
        passes_of_coverAll (by decide) (passes_singleton haccepts)
      obtain ⟨u, test, q', v, hu, huword, hsecond, hv, hvpass⟩ : ∃ u test q' v,
          nextToken? q.rest = some u ∧ passes [.kind .word] u = true
          ∧ Ends Grammar.rules (.one test) q (some q') ∧ nextToken? q'.rest = some v
          ∧ passes [.symbol ".", .symbol ";", .kind .word] v = true := by
        cases h with
        | @seqCons _ _ _ q _ hstatic h =>
          cases h with
          | @seqCons _ _ _ behind _ hname h =>
            -- behind the name comes a dot or the semicolon
            obtain ⟨w, hw, hwpass⟩ : ∃ w, nextToken? behind.rest = some w
                ∧ passes [.symbol ".", .symbol ";"] w = true := by
              cases h with
              | seqCons hasterisk h =>
                rcases hasterisk.of_optional with hasterisk | ⟨-, rfl⟩
                · cases hasterisk with
                  | seqCons hdot _ =>
                    obtain ⟨w, hw, haccepts, -⟩ := hdot.next_token
                    exact ⟨w, hw, passes_of_coverAll (by decide) (passes_singleton haccepts)⟩
                · obtain ⟨w, hw, haccepts, -⟩ := h.of_seq_singleton.next_token
                  exact ⟨w, hw, passes_of_coverAll (by decide) (passes_singleton haccepts)⟩
            obtain ⟨u, q', v, hu, huword, hfirst, hv, hvpass⟩ := next_of_qualifiedName hname hw hwpass
            rcases hstatic.of_optional with hstatic | ⟨-, rfl⟩
            · obtain ⟨x, hx, haccepts, -⟩ := hstatic.next_token
              exact ⟨x, _, q, u, hx, passes_of_coverAll (by decide) (passes_singleton haccepts), hstatic,
                hu, passes_of_coverAll (by decide) huword⟩
            · exact ⟨u, _, q', v, hu, huword, hfirst, hv, hvpass⟩
      have hmethod := ends_methodDecl_none
        (.optional_none (ends_none (by decide) ht hpass)) ht hpass hword hu huword hsecond hv hvpass
      exact .choiceTail hmethod (.choiceHead (.call (.choiceTail (ends_none (by decide) ht hpass)
        (.choiceTail (ends_none (by decide) ht hpass)
          (.choiceTail (ends_none (by decide) ht
            (passes_singleton haccepts)) (.choiceHead hdecl))))))

/-- A semicolon is an item. -/
theorem ends_item_of_semicolon (h : Ends Grammar.rules (sym ";") place (some next)) :
    Ends Grammar.rules item place (some next) := by
  obtain ⟨t, ht, haccepts, -⟩ := h.next_token
  refine .choiceTail (.call ?_) (.choiceHead (.call (.choiceHead h)))
  exact ends_none (by decide) ht
    (passes_singleton haccepts)

/-! ## Headers and what ends them -/

/-- The tokens that an item ends with, or its end begins with. -/
def ends : List TokenTest := [.symbol "\x7b", .symbol ";"]

/-- In a header no body begins outside of brackets, and no semicolon comes. -/
def headerGuard : Guard Symbol where
  test test := allApart [test] ends
  call symbol :=
    [.modifiers, .annotationUse, .qualifiedName, .typeParams, .type, .plainType, .simpleType,
      .typeArguments, .dimensions, .parameters].contains symbol

theorem after?_headerGuard (symbol : Symbol) (h : headerGuard.call symbol = true) :
    (Grammar.rules symbol).after? headerGuard 0 = some 0 := by
  revert h
  cases symbol <;> decide

/-- A rule takes the same tokens again, so many bytes further on and in front of anything. -/
def Repeats (rule : Form) (place next : Place) : Prop :=
  ∃ taken, place.rest = taken ++ next.rest ∧ ∀ n others,
    Ends Grammar.rules rule ⟨place.last.map (Token.moved n), taken.map (Token.moved n) ++ others⟩
      (some ⟨next.last.map (Token.moved n), others⟩)

/-- A rule for the end of an item: it takes the same tokens again, whatever stands around them. -/
def Sealed (rule : Form) : Prop :=
  ∀ place next, Ends Grammar.rules rule place (some next) → ∃ taken t,
    place.rest = taken ++ next.rest ∧ nextToken? taken = some t ∧ passes ends t = true
      ∧ ∀ n last others,
        Ends Grammar.rules rule ⟨last, taken.map (Token.moved n) ++ others⟩
          (some ⟨next.last.map (Token.moved n), others⟩)

theorem exists_mem_of_nextToken? {tokens : List Token} (h : nextToken? tokens = some t) :
    ∃ u ∈ tokens, u.isComment = false := by
  rw [nextToken?] at h
  refine ⟨t, (List.dropWhile_suffix _).subset (List.mem_of_head? h), ?_⟩
  have hnot := List.head?_dropWhile_not Token.isComment tokens
  rw [h] at hnot
  exact hnot

/-- Where the end of an item begins is a fence for the header. -/
theorem fence_of_end {taken : List Token} (ht : nextToken? taken = some t)
    (hpass : passes ends t = true) (n : Nat) (others others' : List Token) :
    Fence headerGuard n (taken ++ others) (taken.map (Token.moved n) ++ others') where
  head := by
    cases taken with
    | nil => cases ht
    | cons u taken => rfl
  next := by
    have hmem := exists_mem_of_nextToken? ht
    have hmem' : ∃ u ∈ taken.map (Token.moved n), u.isComment = false := by
      obtain ⟨u, hu, hcomment⟩ := hmem
      exact ⟨_, List.mem_map_of_mem hu, hcomment⟩
    rw [nextToken?_append_of_mem hmem, nextToken?_append_of_mem hmem', nextToken?_moved]
  refuses := by
    intro test depth hguard _ u hu
    rw [nextToken?_append_of_mem (exists_mem_of_nextToken? ht), ht, Option.some.injEq] at hu
    subst hu
    have hno := not_passes_of_apart hguard hpass
    rwa [passes, List.any_cons, List.any_nil, Bool.or_false] at hno

/-- **A header with its end is read again.** -/
theorem repeats_of_seq {list : List Form} {last : Form} (hlast : list.getLast? = some last)
    (hguard : (Rule.seq list.dropLast).after? headerGuard 0 = some 0)
    (hfree : (Rule.seq list.dropLast).after? .free 0 = some 0) (hsealed : Sealed last)
    (h : Ends Grammar.rules (.seq list) place (some next)) : Repeats (.seq list) place next := by
  rw [← List.dropLast_append_getLast? last hlast] at h ⊢
  obtain ⟨mid, hheader, hend⟩ := h.of_seq_append
  obtain ⟨taken, t, hmid, ht, hpass, hagain⟩ := hsealed mid next hend.of_seq_singleton
  obtain ⟨front, hplace, hrepeated⟩ :=
    hheader.repeated after?_free after?_headerGuard hguard hfree
  refine ⟨front ++ taken, by rw [hplace, hmid, List.append_assoc], fun n others => ?_⟩
  have hfence := fence_of_end ht hpass n next.rest others
  rw [← hmid] at hfence
  rw [List.map_append, List.append_assoc]
  exact (hrepeated n _ hfence).seq_append (hagain n _ others).seq_singleton

theorem Repeats.node {kind : NodeKind} (h : Repeats rule place next) :
    Repeats (.node kind rule) place next := by
  obtain ⟨taken, hrest, hagain⟩ := h
  exact ⟨taken, hrest, fun n others => .node kind (hagain n others)⟩

theorem Repeats.call {symbol : Symbol} (h : Repeats (Grammar.rules symbol) place next) :
    Repeats (.call symbol) place next := by
  obtain ⟨taken, hrest, hagain⟩ := h
  exact ⟨taken, hrest, fun n others => .call (hagain n others)⟩

theorem sealed_semicolon : Sealed (sym ";") := by
  intro place next h
  obtain ⟨comments, t, hrest, hcomments, ht, haccepts, hlast⟩ := h.exists_token
  refine ⟨comments ++ [t], t, by rw [hrest, List.append_assoc, List.singleton_append],
    nextToken?_append hcomments ht,
    passes_of_coverAll (by decide) (passes_singleton haccepts),
    fun n last others => ?_⟩
  rw [hlast, List.map_append, List.append_assoc]
  exact .token last (List.forall_mem_map.mpr hcomments) ht (by rw [accepts_moved]; exact haccepts)

/-- What stands in braces is the end of an item. -/
theorem sealed_braces {list : List Form} (hgroup : Rule.isGroup (sym "\x7b" :: list) = true) :
    Sealed (.seq (sym "\x7b" :: list)) := by
  intro place next h
  obtain ⟨taken, hrest, hagain⟩ := h.group_repeated after?_free hgroup
  obtain ⟨found, hfound, hsome⟩ := h.taken rfl
  obtain rfl : found = taken := List.append_cancel_right (hfound.symm.trans hrest)
  have hne := h.ne_of_consumes fits_ranking rfl
  cases h with
  | seqCons h _ =>
    obtain ⟨t, ht, haccepts, -⟩ := h.next_token
    rw [hrest, nextToken?_append_of_mem (hsome.resolve_left hne)] at ht
    exact ⟨found, t, hrest, ht,
      passes_of_coverAll (by decide) (passes_singleton haccepts), hagain⟩

theorem Sealed.node {kind : NodeKind} (h : Sealed rule) : Sealed (.node kind rule) := by
  intro place next hends
  cases hends with
  | node _ hends =>
    obtain ⟨taken, t, hrest, ht, hpass, hagain⟩ := h place next hends
    exact ⟨taken, t, hrest, ht, hpass, fun n last others => .node kind (hagain n last others)⟩

theorem Sealed.call {symbol : Symbol} (h : Sealed (Grammar.rules symbol)) :
    Sealed (.call symbol) := by
  intro place next hends
  cases hends with
  | call hends =>
    obtain ⟨taken, t, hrest, ht, hpass, hagain⟩ := h place next hends
    exact ⟨taken, t, hrest, ht, hpass, fun n last others => .call (hagain n last others)⟩

theorem sealed_block : Sealed (.call .block) := .call (.node (sealed_braces (by decide)))

/-- A method ends with a block or with a semicolon. -/
theorem sealed_methodEnd : Sealed (.choice [.call .block, sym ";"]) := by
  intro place next h
  cases h with
  | choiceHead h =>
    obtain ⟨taken, t, hrest, ht, hpass, hagain⟩ := sealed_block place next h
    exact ⟨taken, t, hrest, ht, hpass, fun n last others => .choiceHead (hagain n last others)⟩
  | choiceTail _ h =>
    cases h with
    | choiceTail _ h => cases h
    | choiceHead h =>
      obtain ⟨taken, t, hrest, ht, hpass, hagain⟩ := sealed_semicolon place next h
      refine ⟨taken, t, hrest, ht, hpass, fun n last others => ?_⟩
      have hsemicolon := hagain n last others
      obtain ⟨u, hu, haccepts, -⟩ := hsemicolon.next_token
      exact .choiceTail (ends_none (by decide) hu (passes_singleton haccepts)) (.choiceHead hsemicolon)

/-! ## Items -/

/-- A statement that is no declaration. -/
def isStatement (t : Tree) : Bool := t.isNode .code || t.isNode .block

theorem mem_gather (kind : NodeKind) (ts : List Tree) :
    Tree.node kind (ts.dropWhile Tree.isComment) ∈ gather kind ts :=
  List.mem_append_right _ (List.mem_singleton_self _)

/-- What is an item where it is taken is an item where it is taken again. -/
theorem Repeats.item (h : Repeats rule place next)
    (hitem : ∀ place next, Ends Grammar.rules rule place (some next) →
      Ends Grammar.rules item place (some next)) : Repeats item place next := by
  obtain ⟨taken, hrest, hagain⟩ := h
  exact ⟨taken, hrest, fun n others => hitem _ _ (hagain n others)⟩

theorem repeats_of_type {e : Symbol × TokenTest} (he : e ∈ typeRules)
    (h : Ends Grammar.rules (.call e.1) place (some next)) : Repeats (.call e.1) place next := by
  have hclassBody : Sealed (.call .classBody) := .call (.node (sealed_braces (by decide)))
  cases h with
  | call h =>
    refine .call ?_
    simp only [typeRules, List.mem_cons, List.not_mem_nil, or_false] at he
    rcases he with rfl | rfl | rfl | rfl | rfl
    · cases h with
      | node _ h => exact .node (repeats_of_seq rfl (by decide) (by decide) hclassBody h)
    · cases h with
      | node _ h =>
        exact .node (repeats_of_seq rfl (by decide) (by decide) (.node (sealed_braces (by decide))) h)
    · cases h with
      | node _ h =>
        exact .node (repeats_of_seq rfl (by decide) (by decide) (.node (sealed_braces (by decide))) h)
    · cases h with
      | node _ h => exact .node (repeats_of_seq rfl (by decide) (by decide) hclassBody h)
    · cases h with
      | node _ h =>
        exact .node (repeats_of_seq rfl (by decide) (by decide) (.node (sealed_braces (by decide))) h)

theorem repeats_of_package (h : Ends Grammar.rules packageDecl place (some next)) :
    Repeats packageDecl place next := by
  cases h with
  | node _ h => exact .node (repeats_of_seq rfl (by decide) (by decide) sealed_semicolon h)

theorem repeats_of_import (h : Ends Grammar.rules importDecl place (some next)) :
    Repeats importDecl place next := by
  cases h with
  | node _ h => exact .node (repeats_of_seq rfl (by decide) (by decide) sealed_semicolon h)

theorem repeats_of_method (h : Ends Grammar.rules (.call .methodDecl) place (some next)) :
    Repeats (.call .methodDecl) place next := by
  cases h with
  | call h =>
    cases h with
    | node _ h => exact .call (.node (repeats_of_seq rfl (by decide) (by decide) sealed_methodEnd h))

theorem repeats_of_semicolon (h : Ends Grammar.rules (sym ";") place (some next)) :
    Repeats (sym ";") place next := by
  obtain ⟨taken, -, hrest, -, -, hagain⟩ := sealed_semicolon place next h
  exact ⟨taken, hrest, fun n others => hagain n _ others⟩

/-- **An item of a file is read again, so many bytes further on and in front of anything,** if it is no
statement. -/
theorem item_repeated {ts : List Tree} (hts : ∀ t ∈ ts, isStatement t = false)
    (h : Parses ranking Grammar.rules item place ts next) : Repeats item place next := by
  have hno : ∀ {kind : NodeKind} {inner : Form}, kind = .code ∨ kind = .block →
      ¬Parses ranking Grammar.rules (.node kind inner) place ts next := by
    intro kind inner hkind hnode
    obtain ⟨us, rfl, -⟩ := hnode.of_node
    have hstatement := hts _ (mem_gather kind us)
    rcases hkind with rfl | rfl <;> cases hstatement
  rcases h.of_choice fits_ranking with h | ⟨-, h⟩
  · exact (repeats_of_method (h.ends fits_ranking)).item fun _ _ => .choiceHead
  · obtain ⟨r, hr, h⟩ := h.exists_of_choice fits_ranking
    rw [List.mem_singleton] at hr
    subst hr
    obtain ⟨r, hr, h⟩ := (h.of_call fits_ranking).exists_of_choice fits_ranking
    rw [List.mem_append, List.mem_append, List.mem_singleton] at hr
    have hends := h.ends fits_ranking
    rcases hr with (hr | hr) | rfl
    · simp only [List.mem_cons, List.not_mem_nil, or_false] at hr
      rcases hr with rfl | rfl | rfl | rfl | rfl
      · exact (repeats_of_semicolon hends).item fun _ _ => ends_item_of_semicolon
      · exact absurd (h.of_call fits_ranking) (hno (.inr rfl))
      · exact (repeats_of_package hends).item fun _ _ => ends_item_of_package
      · exact (repeats_of_import hends).item fun _ _ => ends_item_of_import
      · exact absurd h (hno (.inl rfl))
    · obtain ⟨e, he, rfl⟩ : ∃ e ∈ typeRules, r = .call e.1 := by
        have hdecls : typeDecls = typeRules.map fun e => (.call e.1 : Form) := rfl
        rw [hdecls, List.mem_map] at hr
        obtain ⟨e, he, rfl⟩ := hr
        exact ⟨e, he, rfl⟩
      exact (repeats_of_type he hends).item fun _ _ => ends_item_of_type he
    · exact absurd h (hno (.inl rfl))

end Grammar

end Conformance.Java
