import Conformance.Proofs.Rules

/-!
# The rules for types

The rules for types are followed along the lexemes of a written type: its name, its type
arguments, the dimensions of an array, the bound of a wildcard. They take exactly these tokens
if nothing comes after them that would go on with the type (`typeFollowers`), and the tree that
they build spells the type (`reads_type`). How deep rules nest is bounded by the number of
tokens, a hundred levels for each; that leaves room for every rule on the way.
-/

namespace Conformance.Java

open Grammar

/-- The symbols that go on with a type. -/
def typeFollowers : List String := [".", "<", "[", "@"]

/-! ## Trees of types -/

namespace WrittenType

/-- A tree that stands for a type in a list of types. -/
structure Spells (tree : Tree) (t : WrittenType) : Prop where
  type : ofTree tree = t
  entry : isEntry tree = true
  node : tree.isComment = false

theorem ofTrees_append (ts us : List Tree) : ofTrees (ts ++ us) = ofTrees ts ++ ofTrees us := by
  induction ts with
  | nil => rfl
  | cons t ts ih =>
    rw [List.cons_append, ofTrees, ofTrees]
    split
    · rw [ih, List.cons_append]
    · exact ih

theorem ofTrees_leaf {t : Token} (h : t.isComment = false) (ts : List Tree) :
    ofTrees (.leaf t :: ts) = ofTrees ts := by
  rw [ofTrees, isEntry, h, if_neg Bool.false_ne_true]

theorem ofTrees_spells {tree : Tree} {t : WrittenType} (h : Spells tree t) (ts : List Tree) :
    ofTrees (tree :: ts) = t :: ofTrees ts := by
  rw [ofTrees, if_pos h.entry, h.type]

/-- A rule takes the lexemes of a type, where they are followed by something allowed, and
builds a tree that spells the type. -/
def Reads (follow : List Token → Prop) (rule : Form) (t : WrittenType) : Prop :=
  ∀ tokens last more, tokens.map Token.lexeme = t.lexemes → follow more →
    ∃ tree last', Takes rules (100 * tokens.length) rule ⟨last, tokens ++ more⟩ [tree]
      ⟨last', more⟩ ∧ Spells tree t

/-- The further entries of a list are read, each after its comma. -/
theorem reads_others {follow : List Token → Prop} {rule : Form} {ts : List WrittenType}
    (hcommas : ∀ t rest, t.lexeme = (.symbol, ",") → follow (t :: rest))
    (h : ∀ t ∈ ts, Reads follow rule t) {tokens more : List Token} (last : Option Token)
    (htokens : tokens.map Token.lexeme = lexemesOthers ts) (hmore : follow more)
    (hend : Bars [","] more) :
    follow (tokens ++ more)
      ∧ ∃ trees last', Takes rules (100 * tokens.length + 1) (.many (.seq [sym ",", rule]))
          ⟨last, tokens ++ more⟩ trees ⟨last', more⟩ ∧ ofTrees trees = ts := by
  induction ts generalizing tokens last with
  | nil =>
    rw [lexemesOthers, List.map_eq_nil_iff] at htokens
    subst htokens
    exact ⟨hmore, [], last, .manyNil (.seq (.sym hend (List.mem_singleton_self _))), rfl⟩
  | cons t ts ih =>
    rw [List.forall_mem_cons] at h
    rw [lexemesOthers, List.append_assoc, List.singleton_append] at htokens
    obtain ⟨comma, tokens, rfl, hcomma, htokens⟩ := List.map_eq_cons_iff.mp htokens
    obtain ⟨first, others, rfl, hfirst, hothers⟩ := List.map_eq_append_iff.mp htokens
    refine ⟨hcommas comma _ hcomma, ?_⟩
    obtain ⟨tree, last', htree, hspells⟩ := h.1 first (some comma) _ hfirst (ih h.2 last hothers).1
    obtain ⟨-, trees, last'', htrees, hread⟩ := ih h.2 last' hothers
    have hentry : Takes rules (100 * first.length + 3) (.seq [sym ",", rule])
        ⟨last, comma :: (first ++ (others ++ more))⟩ ([.leaf comma] ++ ([tree] ++ []))
        ⟨last', others ++ more⟩ :=
      (Takes.sym hcomma).seq (htree.seq (k := 100 * first.length + 2) .seqNil (by omega)
        (by omega)) (by omega) (by omega)
    refine ⟨[.leaf comma] ++ ([tree] ++ []) ++ trees, last'', ?_, ?_⟩
    · rw [List.cons_append, List.append_assoc]
      refine hentry.manyCons htrees ?_ ?_
      · simp only [List.length_cons, List.length_append]
        omega
      · simp only [List.length_cons, List.length_append]
        omega
    · rw [ofTrees_append, hread, List.append_nil, List.singleton_append,
        ofTrees_leaf (isComment_of_lexeme hcomma (by decide)), ofTrees_spells hspells]
      rfl

/-- The lexemes of a list of types. -/
def listLexemes : List WrittenType → List (TokenKind × String)
  | [] => []
  | first :: others => first.lexemes ++ lexemesOthers others

/-- All entries of a list are read. -/
theorem takes_commas {follow : List Token → Prop} {rule : Form} {t : WrittenType}
    {ts : List WrittenType} (hcommas : ∀ t rest, t.lexeme = (.symbol, ",") → follow (t :: rest))
    (h : ∀ u ∈ t :: ts, Reads follow rule u) {tokens more : List Token} (last : Option Token)
    (htokens : tokens.map Token.lexeme = listLexemes (t :: ts)) (hmore : follow more)
    (hend : Bars [","] more) :
    ∃ tree trees last', Takes rules (100 * tokens.length + 4) (commas rule)
        ⟨last, tokens ++ more⟩ (tree :: trees) ⟨last', more⟩
      ∧ Spells tree t ∧ ofTrees trees = ts := by
  rw [List.forall_mem_cons] at h
  rw [listLexemes] at htokens
  obtain ⟨first, others, rfl, hfirst, hothers⟩ := List.map_eq_append_iff.mp htokens
  have hothers' := fun last => reads_others hcommas h.2 last hothers hmore hend
  obtain ⟨tree, last₁, htree, hspells⟩ := h.1 first last _ hfirst (hothers' last).1
  obtain ⟨-, trees, last₂, htrees, hread⟩ := hothers' last₁
  have hall := htree.seq (k := 100 * (first.length + others.length) + 4)
    (htrees.seq (k := 100 * others.length + 3) .seqNil (by omega) (by omega)) (by omega) (by omega)
  rw [List.append_nil] at hall
  refine ⟨tree, trees, last₂, ?_, hspells, hread⟩
  rw [List.append_assoc, List.length_append]
  exact hall

/-- The token of a single lexeme. -/
theorem eq_singleton_of_lexemes {tokens : List Token} {lexeme : TokenKind × String}
    (h : tokens.map Token.lexeme = [lexeme]) : ∃ t, tokens = [t] ∧ t.lexeme = lexeme := by
  obtain ⟨t, rest, rfl, ht, hrest⟩ := List.map_eq_cons_iff.mp h
  rw [List.map_eq_nil_iff] at hrest
  exact ⟨t, by rw [hrest], ht⟩

/-- A comma or a closing bracket follows a type argument. -/
def Closes (tokens : List Token) : Prop :=
  ∃ t rest, tokens = t :: rest ∧ (t.lexeme = (.symbol, ",") ∨ t.lexeme = (.symbol, ">"))

theorem Closes.bars {tokens : List Token} (h : Closes tokens) : Bars typeFollowers tokens := by
  obtain ⟨t, rest, rfl, ht | ht⟩ := h
  · exact bars_symbol ht (by decide) rest
  · exact bars_symbol ht (by decide) rest

/-- What may stand between the brackets of type arguments. -/
def argumentRule : Form := .choice [Grammar.wildcard, .call .type]

/-- The lexemes of type arguments. -/
def argumentLexemes : List WrittenType → List (TokenKind × String)
  | [] => []
  | first :: others => [(.symbol, "<")] ++ listLexemes (first :: others) ++ [(.symbol, ">")]

theorem lexemes_named (name : String) (arguments : List WrittenType) :
    (named name arguments).lexemes = nameLexemes name ++ argumentLexemes arguments := by
  cases arguments with
  | nil => rw [lexemes, argumentLexemes, List.append_nil]
  | cons first others =>
    simp only [lexemes, argumentLexemes, listLexemes, List.append_assoc]

/-- The trees of type arguments, which are none or one node. -/
def AreArguments (trees : List Tree) (arguments : List WrittenType) : Prop :=
  (trees = [] ∧ arguments = [])
    ∨ ∃ children, trees = [.node .typeArguments children] ∧ ofTrees children = arguments

/-- The brackets around type arguments and what is between them become a node. -/
theorem takes_typeArguments {t : WrittenType} {ts : List WrittenType}
    (h : ∀ u ∈ t :: ts, Reads Closes argumentRule u) {tokens : List Token} (last : Option Token)
    (htokens : tokens.map Token.lexeme = argumentLexemes (t :: ts)) (more : List Token) :
    ∃ children last', Takes rules (100 * tokens.length) Grammar.typeArguments
        ⟨last, tokens ++ more⟩ [.node .typeArguments children] ⟨last', more⟩
      ∧ ofTrees children = t :: ts := by
  rw [argumentLexemes, List.append_assoc, List.singleton_append] at htokens
  obtain ⟨opening, tokens, rfl, hopening, htokens⟩ := List.map_eq_cons_iff.mp htokens
  obtain ⟨list, tokens, rfl, hlist, htokens⟩ := List.map_eq_append_iff.mp htokens
  obtain ⟨closing, rfl, hclosing⟩ := eq_singleton_of_lexemes htokens
  obtain ⟨tree, trees, last', htrees, hspells, hread⟩ := takes_commas
    (fun comma rest hcomma => ⟨comma, rest, rfl, .inl hcomma⟩) h (some opening) hlist
    ⟨closing, more, rfl, .inr hclosing⟩ (bars_symbol hclosing (by decide) more)
  have hopen : Takes rules 1 (sym "<") ⟨last, opening :: (list ++ closing :: more)⟩
      [.leaf opening] ⟨some opening, list ++ closing :: more⟩ := Takes.sym hopening
  have hclose : Takes rules 2 (.seq [sym ">"]) ⟨last', closing :: more⟩ [.leaf closing]
      ⟨some closing, more⟩ := (Takes.sym hclosing).seq .seqNil (by decide) (by decide)
  have hall := hopen.seq (k := 100 * list.length + 7)
    (htrees.optional.seq (k := 100 * list.length + 6) hclose (by omega) (by omega)) (by omega)
    (by omega)
  have hopening' : opening.isComment = false := isComment_of_lexeme hopening (by decide)
  have hclosing' : closing.isComment = false := isComment_of_lexeme hclosing (by decide)
  have hnode := hall.node .typeArguments
  rw [List.singleton_append, gather_cons _ (t := .leaf opening) hopening', List.cons_append]
    at hnode
  refine ⟨.leaf opening :: tree :: (trees ++ [.leaf closing]), some closing, ?_, ?_⟩
  · rw [List.cons_append, List.append_assoc, List.singleton_append]
    refine hnode.mono ?_
    simp only [List.length_cons, List.length_append, List.length_nil]
    omega
  · rw [ofTrees_leaf hopening', ofTrees_spells hspells, ofTrees_append, hread,
      ofTrees_leaf hclosing', ofTrees, List.append_nil]

/-- Type arguments are read if there are some, and left out if there are none. -/
theorem takes_arguments {arguments : List WrittenType}
    (h : ∀ t ∈ arguments, Reads Closes argumentRule t) {tokens more : List Token} (last : Option Token)
    (htokens : tokens.map Token.lexeme = argumentLexemes arguments)
    (hmore : Bars [".", "<"] more) :
    ∃ trees last', Takes rules (100 * tokens.length + 3)
        (Rule.optional (.call .typeArguments)) ⟨last, tokens ++ more⟩ trees ⟨last', more⟩
      ∧ AreArguments trees arguments := by
  cases arguments with
  | nil =>
    rw [argumentLexemes, List.map_eq_nil_iff] at htokens
    subst htokens
    exact ⟨[], last, .optionalNone (.typeArguments (hmore.mono (by decide))), .inl ⟨rfl, rfl⟩⟩
  | cons t ts =>
    obtain ⟨children, last', htake, hread⟩ := takes_typeArguments h last htokens more
    have hcall : Takes rules (100 * tokens.length + 1) (.call .typeArguments)
        ⟨last, tokens ++ more⟩ [.node .typeArguments children] ⟨last', more⟩ := .call htake
    exact ⟨_, last', hcall.optional.mono (by omega), .inr ⟨children, rfl, hread⟩⟩

/-! ### Names -/

/-- The parts of the name of a class after the first. -/
def partRule : Form :=
  .seq [
    sym ".", .many (.call .annotationUse), nameBut ["class", "this", "super", "new"],
    Rule.optional (.call .typeArguments)]

theorem partLexemes_cons (part : String) (parts : List String) :
    partLexemes (part :: parts) = (.symbol, ".") :: (.word, part) :: partLexemes parts := rfl

theorem rejects_part {place : Place} (h : Bars ["."] place.rest) : Rejects rules partRule place :=
  .seq (.sym h (List.mem_singleton_self _))

/-- One part of a name, with or without type arguments. -/
theorem takes_part {dot part : Token} {name : String} (hdot : dot.lexeme = (.symbol, "."))
    (hpart : part.lexeme = (.word, name)) (hname : name ∉ reservedWords) {rest : List Token}
    {next : Place} {trees : List Tree} {n : Nat} (last : Option Token)
    (h : Takes rules n (Rule.optional (.call .typeArguments)) ⟨some part, rest⟩ trees next) :
    Takes rules (n + 5) partRule ⟨last, dot :: part :: rest⟩
      ([.leaf dot, .leaf part] ++ trees) next := by
  have hnone : Takes rules 1 (.many (.call .annotationUse)) ⟨some dot, part :: rest⟩ []
      ⟨some dot, part :: rest⟩ := .manyNil (.annotationUse (bars_word hpart _ _))
  have hexcept : name ∉ ["class", "this", "super", "new"] := fun hmem =>
    hname (List.mem_append_right _ hmem)
  have hdot' : Takes rules 1 (sym ".") ⟨last, dot :: part :: rest⟩ [.leaf dot]
      ⟨some dot, part :: rest⟩ := Takes.sym hdot
  have harguments := h.seq (k := n + 2) .seqNil (by omega) (by omega)
  have hpart' : Takes rules 1 (nameBut ["class", "this", "super", "new"])
      ⟨some dot, part :: rest⟩ [.leaf part] ⟨some part, rest⟩ := .nameBut hpart hexcept
  have hname' := hpart'.seq (k := n + 3) harguments (by omega) (by omega)
  have hall := hdot'.seq (k := n + 5) (hnone.seq (k := n + 4) hname' (by omega) (by omega))
    (by omega) (by omega)
  rw [List.append_nil] at hall
  exact hall

/-- The parts of a name after the first are taken up to the end of the type; type arguments
follow the last of them. -/
theorem takes_parts {parts : List String} (hne : parts ≠ [])
    (hparts : ∀ part ∈ parts, part ∉ reservedWords) {arguments : List WrittenType}
    (h : ∀ t ∈ arguments, Reads Closes argumentRule t) {tokens more : List Token} (last : Option Token)
    (htokens : tokens.map Token.lexeme = partLexemes parts ++ argumentLexemes arguments)
    (hmore : Bars [".", "<"] more) :
    ∃ (names : List Token) (trees : List Tree) (last' : Option Token),
      names.map Token.lexeme = partLexemes parts
      ∧ Takes rules (100 * tokens.length) (.many partRule) ⟨last, tokens ++ more⟩
        (names.map .leaf ++ trees) ⟨last', more⟩
      ∧ AreArguments trees arguments := by
  induction parts generalizing tokens last with
  | nil => exact absurd rfl hne
  | cons name parts ih =>
    rw [List.forall_mem_cons] at hparts
    obtain ⟨names, arguments', rfl, hnames, harguments'⟩ := List.map_eq_append_iff.mp htokens
    rw [partLexemes_cons] at hnames
    obtain ⟨dot, names, rfl, hdot, hnames⟩ := List.map_eq_cons_iff.mp hnames
    obtain ⟨part, names, rfl, hpart, hnames⟩ := List.map_eq_cons_iff.mp hnames
    cases parts with
    | nil =>
      rw [partLexemes, List.flatMap_nil, List.map_eq_nil_iff] at hnames
      subst hnames
      obtain ⟨trees, last', htrees, hare⟩ := takes_arguments h (some part) harguments' hmore
      have hone := takes_part hdot hpart hparts.1 last htrees
      have hend : Takes rules 1 (.many partRule) ⟨last', more⟩ [] ⟨last', more⟩ :=
        .manyNil (rejects_part (hmore.mono (by decide)))
      refine ⟨[dot, part], trees, last', ?_, ?_, hare⟩
      · rw [List.map_cons, List.map_singleton, hdot, hpart, partLexemes_cons]
        rfl
      · have hall := hone.manyCons (k := 100 * arguments'.length + 9) hend (by omega) (by omega)
        rw [List.append_nil] at hall
        refine hall.mono ?_
        simp only [List.length_append, List.length_cons, List.length_nil]
        omega
    | cons next parts =>
      have htokens' : (names ++ arguments').map Token.lexeme
          = partLexemes (next :: parts) ++ argumentLexemes arguments := by
        rw [List.map_append, hnames, harguments']
      obtain ⟨names', trees, last', hnames', htrees, hare⟩ :=
        ih (List.cons_ne_nil next parts) hparts.2 (some part) htokens'
      -- the next thing after the part is a dot
      have hnone : Takes rules 3 (Rule.optional (.call .typeArguments))
          ⟨some part, names ++ arguments' ++ more⟩ [] ⟨some part, names ++ arguments' ++ more⟩ := by
        rw [partLexemes_cons] at hnames
        obtain ⟨dot', names, rfl, hdot', -⟩ := List.map_eq_cons_iff.mp hnames
        exact .optionalNone (.typeArguments (bars_symbol hdot' (by decide) _))
      have hone := takes_part hdot hpart hparts.1 last hnone
      refine ⟨dot :: part :: names', trees, last', ?_, ?_, hare⟩
      · rw [List.map_cons, List.map_cons, hdot, hpart, hnames', ← partLexemes_cons]
      · refine hone.manyCons htrees ?_ ?_
        · simp only [List.length_append, List.length_cons]
          omega
        · simp only [List.length_append, List.length_cons]
          omega

theorem reserved_of_isClassName {name first : String} {others : List String}
    (h : isClassName name = true) (hsplit : Text.split '.' name = first :: others) :
    first ∉ reservedWords ∧ ∀ part ∈ others, part ∉ reservedWords := by
  rw [isClassName, hsplit, List.all_eq_true] at h
  have hall : ∀ part ∈ first :: others, part ∉ reservedWords := by
    intro part hpart
    have := h part hpart
    rw [Bool.and_eq_true, Bool.not_eq_true', ← Bool.not_eq_true, List.contains_iff_mem] at this
    exact this.2
  exact List.forall_mem_cons.mp hall

/-- The name of a class begins with a word that is not the name of another type. -/
theorem nameLexemes_of_isClassName {name : String} (h : isClassName name = true) :
    ∃ text others, nameLexemes name = (.word, text) :: others
      ∧ text ∉ "void" :: primitiveWords := by
  rw [nameLexemes]
  cases hsplit : Text.split '.' name with
  | nil => exact absurd (List.map_eq_nil_iff.mp hsplit) (Text.splitOnChar_ne_nil '.' _)
  | cons first others =>
    exact ⟨first, partLexemes others, rfl, fun hmem =>
      (reserved_of_isClassName h hsplit).1 (List.mem_append_left _ hmem)⟩

/-- The name of a class and its type arguments are taken as one node. -/
theorem takes_classType {name : String} (hname : isClassName name = true)
    {arguments : List WrittenType} (h : ∀ t ∈ arguments, Reads Closes argumentRule t)
    {tokens more : List Token} (last : Option Token)
    (htokens : tokens.map Token.lexeme = nameLexemes name ++ argumentLexemes arguments)
    (hmore : Bars [".", "<"] more) :
    ∃ (names : List Token) (trees : List Tree) (last' : Option Token),
      names.map Token.lexeme = nameLexemes name
      ∧ Takes rules (100 * tokens.length - 50) classType ⟨last, tokens ++ more⟩
        [.node .classType (names.map .leaf ++ trees)] ⟨last', more⟩
      ∧ AreArguments trees arguments := by
  rw [nameLexemes] at htokens ⊢
  cases hsplit : Text.split '.' name with
  | nil => exact absurd (List.map_eq_nil_iff.mp hsplit) (Text.splitOnChar_ne_nil '.' _)
  | cons first others =>
    obtain ⟨hfirst, hothers⟩ := reserved_of_isClassName hname hsplit
    rw [hsplit] at htokens
    dsimp only at htokens ⊢
    rw [List.cons_append] at htokens
    obtain ⟨part, tokens, rfl, hpart, htokens⟩ := List.map_eq_cons_iff.mp htokens
    have hexcept : first ∉ "void" :: primitiveWords := fun hmem =>
      hfirst (List.mem_append_left _ hmem)
    have htake : Takes rules 1 (nameBut ("void" :: primitiveWords)) ⟨last, part :: (tokens ++ more)⟩
        [.leaf part] ⟨some part, tokens ++ more⟩ := .nameBut hpart hexcept
    have hnode : ∀ {us : List Tree} {last' : Option Token} {n : Nat}, 1 ≤ n →
        Takes rules n (.seq [Rule.optional (.call .typeArguments), .many partRule])
          ⟨some part, tokens ++ more⟩ us ⟨last', more⟩ →
        Takes rules (n + 2) classType ⟨last, part :: (tokens ++ more)⟩
          [.node .classType (.leaf part :: us)] ⟨last', more⟩ := by
      intro us last' n hn hus
      have hgathered : gather .classType ([.leaf part] ++ us) = [.node .classType (.leaf part :: us)] :=
        gather_cons _ (isComment_leaf hpart (by decide)) us
      rw [← hgathered]
      exact (htake.seq hus (by omega) (Nat.lt_add_one n)).node .classType
    cases others with
    | nil =>
      rw [partLexemes, List.flatMap_nil, List.nil_append] at htokens
      obtain ⟨trees, last', htrees, hare⟩ := takes_arguments h (some part) htokens hmore
      have hend : Takes rules 1 (.many partRule) ⟨last', more⟩ [] ⟨last', more⟩ :=
        .manyNil (rejects_part (hmore.mono (by decide)))
      have hrest := htrees.seq (k := 100 * tokens.length + 4)
        (hend.seq (k := 2) .seqNil (by decide) (by decide)) (by omega) (by omega)
      rw [List.append_nil, List.append_nil] at hrest
      refine ⟨[part], trees, last', ?_, (hnode (by omega) hrest).mono ?_, hare⟩
      · rw [List.map_singleton, hpart]
        rfl
      · rw [List.length_cons]
        omega
    | cons next others =>
      obtain ⟨names, trees, last', hnames, htrees, hare⟩ :=
        takes_parts (List.cons_ne_nil next others) hothers h (some part) htokens hmore
      have hnone : Takes rules 3 (Rule.optional (.call .typeArguments))
          ⟨some part, tokens ++ more⟩ [] ⟨some part, tokens ++ more⟩ := by
        rw [partLexemes_cons, List.cons_append] at htokens
        obtain ⟨dot, tokens, rfl, hdot, -⟩ := List.map_eq_cons_iff.mp htokens
        exact .optionalNone (.typeArguments (bars_symbol hdot (by decide) _))
      have hrest := hnone.seq (k := 100 * tokens.length + 5)
        (htrees.seq (k := 100 * tokens.length + 4) .seqNil (by omega) (by omega)) (by omega)
        (by omega)
      rw [List.append_nil, List.nil_append] at hrest
      refine ⟨part :: names, trees, last', ?_, (hnode (by omega) hrest).mono ?_, hare⟩
      · rw [List.map_cons, hpart, hnames]
      · rw [List.length_cons]
        omega

/-! ### Reading the trees back -/

theorem argumentsOf_concat (ts : List Tree) (t : Tree) :
    argumentsOf (ts ++ [t]) = argumentsOfLast t := by
  induction ts with
  | nil => rfl
  | cons first ts ih =>
    rw [List.cons_append, argumentsOf, if_neg (by simp)]
    exact ih

theorem AreArguments.argumentsOf_eq {trees : List Tree} {arguments : List WrittenType}
    (h : AreArguments trees arguments) (names : List Token) :
    argumentsOf (names.map .leaf ++ trees) = arguments := by
  rcases h with ⟨rfl, rfl⟩ | ⟨children, rfl, hchildren⟩
  · rw [List.append_nil]
    rcases List.eq_nil_or_concat names with rfl | ⟨names, last, rfl⟩
    · rfl
    · rw [List.concat_eq_append, List.map_append, List.map_singleton, argumentsOf_concat]
      rfl
  · rw [argumentsOf_concat, argumentsOfLast, if_pos rfl, hchildren]

theorem toList_intercalate_dot (first : String) (others : List String) :
    (".".intercalate (first :: others)).toList
      = first.toList ++ others.flatMap fun part => '.' :: part.toList := by
  induction others generalizing first with
  | nil => rw [String.intercalate_singleton, List.flatMap_nil, List.append_nil]
  | cons next others ih =>
    rw [String.intercalate_cons_cons, String.toList_append, String.toList_append, ih,
      List.append_assoc]
    rfl

theorem intercalate_split (name : String) : ".".intercalate (Text.split '.' name) = name := by
  cases hsplit : Text.split '.' name with
  | nil => exact absurd (List.map_eq_nil_iff.mp hsplit) (Text.splitOnChar_ne_nil '.' _)
  | cons first others =>
    rw [← String.toList_inj, toList_intercalate_dot, ← toList_of_split hsplit]

/-- The word that a lexeme is. -/
def wordOf? (lexeme : TokenKind × String) : Option String :=
  if lexeme.1 = .word then some lexeme.2 else none

theorem wordOf?_word (text : String) : wordOf? (.word, text) = some text := rfl

theorem filterMap_partLexemes (parts : List String) :
    (partLexemes parts).filterMap wordOf? = parts := by
  induction parts with
  | nil => rfl
  | cons part parts ih =>
    rw [partLexemes_cons, List.filterMap_cons_none rfl,
      List.filterMap_cons_some (wordOf?_word part), ih]

theorem filterMap_nameLexemes (name : String) :
    (nameLexemes name).filterMap wordOf? = Text.split '.' name := by
  rw [nameLexemes]
  cases Text.split '.' name with
  | nil => rfl
  | cons first others =>
    dsimp only
    rw [List.filterMap_cons_some (wordOf?_word first), filterMap_partLexemes]

/-- The name is read from the words of the node, whatever the type arguments are. -/
theorem AreArguments.dottedName_eq {trees : List Tree} {arguments : List WrittenType}
    (h : AreArguments trees arguments) {names : List Token} {name : String}
    (hnames : names.map Token.lexeme = nameLexemes name) :
    dottedName (names.map .leaf ++ trees) = name := by
  have hwords : dottedName (names.map .leaf ++ trees) = ".".intercalate
      ((names.map Token.lexeme).filterMap wordOf?) := by
    rw [dottedName, List.filterMap_append, List.filterMap_map, List.filterMap_map]
    rcases h with ⟨rfl, -⟩ | ⟨children, rfl, -⟩
    · rw [List.filterMap_nil, List.append_nil]
      rfl
    · rw [List.filterMap_cons_none rfl, List.filterMap_nil, List.append_nil]
      rfl
  rw [hwords, hnames, filterMap_nameLexemes, intercalate_split]

/-- A node with a name and type arguments spells a class type. -/
theorem spells_classType {trees : List Tree} {arguments : List WrittenType}
    (h : AreArguments trees arguments) {names : List Token} {name : String}
    (hnames : names.map Token.lexeme = nameLexemes name) :
    Spells (.node .classType (names.map .leaf ++ trees)) (named name arguments) where
  type := by
    rw [ofTree, h.dottedName_eq hnames, h.argumentsOf_eq]
  entry := rfl
  node := rfl

/-! ### Types without dimensions -/

/-- The rule for simple types takes the lexemes of a type. What follows may be dimensions. -/
def ReadsSimple (t : WrittenType) : Prop :=
  ∀ tokens last more, tokens.map Token.lexeme = t.lexemes → Bars [".", "<"] more →
    0 < tokens.length ∧ ∃ tree last', Takes rules (100 * tokens.length - 40) (.call .simpleType)
      ⟨last, tokens ++ more⟩ [tree] ⟨last', more⟩ ∧ Spells tree t

theorem readsSimple_void : ReadsSimple void := by
  intro tokens last more htokens _
  rw [lexemes] at htokens
  obtain ⟨t, rfl, ht⟩ := eq_singleton_of_lexemes htokens
  have hgathered : gather .voidType [.leaf t] = [.node .voidType [.leaf t]] :=
    gather_cons _ (isComment_leaf ht (by decide)) []
  refine ⟨by simp, .node .voidType [.leaf t], some t, ?_, ⟨by rw [ofTree], rfl, rfl⟩⟩
  rw [← hgathered]
  exact (Takes.call ((Takes.word ht).node .voidType).choiceHead).mono (by simp)

/-- A word other than `void` is not taken for it. -/
theorem rejects_void {t : Token} {text : String} {last : Option Token} {rest : List Token}
    (h : t.lexeme = (.word, text)) (htext : text ≠ "void") :
    Rejects rules (.node .voidType (word "void")) ⟨last, t :: rest⟩ := by
  refine .node (.token (isComment_of_lexeme h (by decide)) ?_)
  rw [TokenTest.accepts, isWord_of_lexeme h, decide_eq_false htext]

theorem readsSimple_primitive {keyword : String} (h : keyword ∈ primitiveWords) :
    ReadsSimple (primitive keyword) := by
  intro tokens last more htokens _
  rw [lexemes] at htokens
  obtain ⟨t, rfl, ht⟩ := eq_singleton_of_lexemes htokens
  have hgathered : gather .primitiveType [.leaf t] = [.node .primitiveType [.leaf t]] :=
    gather_cons _ (isComment_leaf ht (by decide)) []
  have hvoid : keyword ≠ "void" := by
    rintro rfl
    exact absurd h (by decide)
  have hchoice : Takes rules 12 simpleType ⟨last, t :: more⟩
      (gather .primitiveType [.leaf t]) ⟨some t, more⟩ :=
    .choiceTail (rejects_void ht hvoid) ((Takes.oneWord ht h).node .primitiveType).choiceHead
  have hcall : Takes rules 13 (.call .simpleType) ⟨last, t :: more⟩
      (gather .primitiveType [.leaf t]) ⟨some t, more⟩ := .call hchoice
  have hword : dottedName [.leaf t] = keyword := by
    rw [Token.lexeme, Prod.mk.injEq] at ht
    simp [dottedName, ht.1, ht.2]
  rw [hgathered] at hcall
  exact ⟨by simp, .node .primitiveType [.leaf t], some t, hcall.mono (by simp),
    ⟨by rw [ofTree, hword], rfl, rfl⟩⟩

theorem readsSimple_named {name : String} (hname : isClassName name = true)
    {arguments : List WrittenType} (h : ∀ t ∈ arguments, Reads Closes argumentRule t) :
    ReadsSimple (named name arguments) := by
  intro tokens last more htokens hmore
  rw [lexemes_named] at htokens
  obtain ⟨names, trees, last', hnames, htakes, hare⟩ :=
    takes_classType hname h last htokens hmore
  obtain ⟨text, others, hlexemes, htext⟩ := nameLexemes_of_isClassName hname
  rw [hlexemes, List.cons_append] at htokens
  obtain ⟨t, rest, rfl, ht, -⟩ := List.map_eq_cons_iff.mp htokens
  rw [List.mem_cons, not_or] at htext
  have hprimitive : Rejects rules (.node .primitiveType (oneWord primitiveWords))
      ⟨last, t :: rest ++ more⟩ := by
    refine .node (.oneWord (isComment_of_lexeme ht (by decide)) ?_)
    rw [text_of_lexeme ht]
    exact htext.2
  have hchoice : Takes rules (100 * (t :: rest).length - 47) simpleType ⟨last, t :: rest ++ more⟩
      [.node .classType (names.map .leaf ++ trees)] ⟨last', more⟩ :=
    (Takes.choiceTail (rejects_void ht htext.1) (.choiceTail hprimitive htakes.choiceHead)).mono
      (by rw [List.length_cons]; omega)
  have hcall : Takes rules (100 * (t :: rest).length - 47 + 1) (.call .simpleType)
      ⟨last, t :: rest ++ more⟩ [.node .classType (names.map .leaf ++ trees)] ⟨last', more⟩ :=
    .call hchoice
  refine ⟨by simp, .node .classType (names.map .leaf ++ trees), last', hcall.mono ?_,
    spells_classType hare hnames⟩
  rw [List.length_cons]
  omega

/-! ### Arrays -/

/-- The lexemes of so many dimensions. -/
def dimensionLexemes : Nat → List (TokenKind × String)
  | 0 => []
  | n + 1 => [(.symbol, "["), (.symbol, "]")] ++ dimensionLexemes n

/-- The brackets of one dimension. -/
def bracketsRule : Form := .seq [.many (.call .annotationUse), sym "[", sym "]"]

theorem takes_brackets {opening closing : Token} (hopening : opening.lexeme = (.symbol, "["))
    (hclosing : closing.lexeme = (.symbol, "]")) (last : Option Token) (rest : List Token) :
    Takes rules 4 bracketsRule ⟨last, opening :: closing :: rest⟩ [.leaf opening, .leaf closing]
      ⟨some closing, rest⟩ := by
  have hnone : Takes rules 1 (.many (.call .annotationUse)) ⟨last, opening :: closing :: rest⟩ []
      ⟨last, opening :: closing :: rest⟩ :=
    .manyNil (.annotationUse (bars_symbol hopening (by decide) _))
  have hclose : Takes rules 2 (.seq [sym "]"]) ⟨some opening, closing :: rest⟩
      ([.leaf closing] ++ []) ⟨some closing, rest⟩ :=
    (Takes.sym hclosing).seq .seqNil (by decide) (by decide)
  have hopen : Takes rules 1 (sym "[") ⟨last, opening :: closing :: rest⟩ [.leaf opening]
      ⟨some opening, closing :: rest⟩ := Takes.sym hopening
  exact hnone.seq (hopen.seq (k := 3) hclose (by decide) (by decide)) (by decide) (by decide)

/-- Dimensions are taken up to the end of the type. -/
theorem takes_dimensions {n : Nat} {tokens more : List Token} (last : Option Token)
    (htokens : tokens.map Token.lexeme = dimensionLexemes n) (hmore : Bars typeFollowers more) :
    ∃ last', Takes rules (100 * tokens.length + 1) (.many bracketsRule) ⟨last, tokens ++ more⟩
      (tokens.map .leaf) ⟨last', more⟩ := by
  induction n generalizing tokens last with
  | zero =>
    rw [dimensionLexemes, List.map_eq_nil_iff] at htokens
    subst htokens
    exact ⟨last, .manyNil (.seqMany (.annotationUse (hmore.mono (by decide)))
      (.seq (.sym hmore (by decide))))⟩
  | succ n ih =>
    obtain ⟨opening, tokens, rfl, hopening, htokens⟩ := List.map_eq_cons_iff.mp htokens
    obtain ⟨closing, tokens, rfl, hclosing, htokens⟩ := List.map_eq_cons_iff.mp htokens
    obtain ⟨last', hothers⟩ := ih (some closing) htokens
    refine ⟨last', (takes_brackets hopening hclosing last _).manyCons hothers ?_ ?_⟩
    · rw [List.length_cons, List.length_cons]
      omega
    · rw [List.length_cons, List.length_cons]
      omega

theorem count_dimensionLexemes (n : Nat) :
    ((dimensionLexemes n).flatMap fun lexeme => lexeme.2.toList).count '[' = n := by
  induction n with
  | zero => rfl
  | succ n ih =>
    rw [dimensionLexemes, List.flatMap_append, List.count_append, ih, Nat.add_comm]
    rfl

/-- A type and dimensions after it spell an array. -/
theorem spells_arrayType {tree : Tree} {t : WrittenType} (h : Spells tree t) {n : Nat}
    {tokens : List Token} (htokens : tokens.map Token.lexeme = dimensionLexemes n) :
    Spells (.node .arrayType [tree, .node .dimensions (tokens.map .leaf)]) (arrays n t) where
  type := by
    have hnode : tree.isNode .dimensions = false := by
      have hentry := h.entry
      cases tree with
      | leaf token => rfl
      | node kind children =>
        rw [isEntry, Bool.and_eq_true, decide_eq_true_iff] at hentry
        exact decide_eq_false (of_decide_eq_true hentry.2)
    have hcount : dimensionCount [tree, .node .dimensions (tokens.map .leaf)] = n := by
      rw [dimensionCount, List.filter_cons_of_neg (by rw [hnode]; exact Bool.false_ne_true),
        List.filter_cons_of_pos rfl, List.filter_nil, bracketCount, Tree.tokensOf, Tree.tokens,
        Tree.tokensOf_map_leaf, Tree.tokensOf, List.append_nil, ← count_dimensionLexemes n, ← htokens,
        List.flatMap_map]
      rfl
    rw [ofTree, hcount, ofTrees_spells h]
    rfl
  entry := rfl
  node := rfl

/-- The rule for types without annotations takes the lexemes of a type with dimensions
after it. -/
def ReadsArrays (t : WrittenType) : Prop :=
  ∀ n tokens last more, tokens.map Token.lexeme = t.lexemes ++ dimensionLexemes n →
    Bars typeFollowers more →
    0 < tokens.length ∧ ∃ tree last', Takes rules (100 * tokens.length - 30) (.call .plainType)
      ⟨last, tokens ++ more⟩ [tree] ⟨last', more⟩ ∧ Spells tree (arrays n t)

theorem readsArrays_of_simple {t : WrittenType} (h : ReadsSimple t) : ReadsArrays t := by
  intro n tokens last more htokens hmore
  obtain ⟨simple, brackets, rfl, hsimple, hbrackets⟩ := List.map_eq_append_iff.mp htokens
  cases n with
  | zero =>
    rw [dimensionLexemes, List.map_eq_nil_iff] at hbrackets
    subst hbrackets
    rw [List.append_nil]
    obtain ⟨hlength, tree, last', htake, hspells⟩ :=
      h simple last more hsimple (hmore.mono (by decide))
    have hplain : Takes rules (100 * simple.length - 40 + 1) plainType ⟨last, simple ++ more⟩
        [tree] ⟨last', more⟩ :=
      htake.unextended (.dimensions (hmore.mono (by decide)))
    have hcall : Takes rules (100 * simple.length - 40 + 1 + 1) (.call .plainType)
        ⟨last, simple ++ more⟩ [tree] ⟨last', more⟩ := .call hplain
    exact ⟨hlength, tree, last', hcall.mono (by omega), hspells⟩
  | succ n =>
    obtain ⟨opening, rest, hrest, hopening, hclosing⟩ := List.map_eq_cons_iff.mp hbrackets
    have hbars : Bars [".", "<"] (brackets ++ more) := by
      rw [hrest]
      exact bars_symbol hopening (by decide) _
    obtain ⟨hlength, tree, last', htake, hspells⟩ := h simple last (brackets ++ more) hsimple hbars
    obtain ⟨closing, others, rfl, hclosing, hothers⟩ := List.map_eq_cons_iff.mp hclosing
    obtain ⟨last'', hmany⟩ := takes_dimensions (some closing) hothers hmore
    subst hrest
    have hdimensions := (takes_brackets hopening hclosing last' (others ++ more)).seq
      (k := 100 * others.length + 6)
      (hmany.seq (k := 100 * others.length + 5) .seqNil (by omega) (by omega)) (by omega) (by omega)
    rw [List.append_nil] at hdimensions
    have hgathered : gather .dimensions ([.leaf opening, .leaf closing] ++ others.map .leaf)
        = [.node .dimensions ((opening :: closing :: others).map .leaf)] :=
      gather_cons _ (isComment_leaf hopening (by decide)) _
    have hcalled : Takes rules (100 * others.length + 6 + 1 + 1) (.call .dimensions)
        ⟨last', opening :: closing :: others ++ more⟩
        [.node .dimensions ((opening :: closing :: others).map .leaf)] ⟨last'', more⟩ := by
      rw [← hgathered]
      exact .call (hdimensions.node .dimensions)
    have hlength' : (simple ++ opening :: closing :: others).length
        = simple.length + others.length + 2 := by
      simp only [List.length_append, List.length_cons]
      omega
    have hplain := htake.extended .arrayType hcalled
      (k := 100 * (simple.length + others.length) + 50) (by omega) (by omega)
    rw [List.singleton_append, gather_cons _ hspells.node] at hplain
    have hcall : Takes rules (100 * (simple.length + others.length) + 50 + 1) (.call .plainType)
        ⟨last, simple ++ (opening :: closing :: others ++ more)⟩
        [.node .arrayType [tree, .node .dimensions ((opening :: closing :: others).map .leaf)]]
        ⟨last'', more⟩ := .call hplain
    refine ⟨by omega, .node .arrayType [tree, .node .dimensions
      ((opening :: closing :: others).map .leaf)], last'', ?_, spells_arrayType hspells hbrackets⟩
    rw [List.append_assoc]
    exact hcall.mono (by omega)

/-- The dimensions of an array are part of its lexemes. -/
theorem readsArrays_array {element : WrittenType} (h : ReadsArrays element) :
    ReadsArrays (array element) := by
  intro n tokens last more htokens hmore
  rw [lexemes, List.append_assoc] at htokens
  exact h (n + 1) tokens last more htokens hmore

/-! ### All types -/

/-- What can be written as a type begins with a word. -/
theorem lexemes_of_isWritable : (t : WrittenType) → t.isWritable false = true →
    ∃ text others, t.lexemes = (.word, text) :: others
  | void, _ => ⟨"void", [], by rw [lexemes]⟩
  | primitive keyword, _ => ⟨keyword, [], by rw [lexemes]⟩
  | named name arguments, h => by
    rw [isWritable, Bool.and_eq_true] at h
    obtain ⟨text, others, hname, -⟩ := nameLexemes_of_isClassName h.1
    exact ⟨text, others ++ argumentLexemes arguments, by rw [lexemes_named, hname, List.cons_append]⟩
  | array element, h => by
    obtain ⟨text, others, helement⟩ := lexemes_of_isWritable element h
    exact ⟨text, others ++ [(.symbol, "["), (.symbol, "]")], by
      rw [lexemes, helement, List.cons_append]⟩

/-- A type that begins with a word has no annotations in front. -/
theorem takes_type {tokens more : List Token} {tree : Tree} {last last' : Option Token}
    {n : Nat} {text : String} {others : List (TokenKind × String)}
    (htokens : tokens.map Token.lexeme = (.word, text) :: others)
    (h : Takes rules n (.call .plainType) ⟨last, tokens ++ more⟩ [tree] ⟨last', more⟩) :
    Takes rules (n + 3) (.call .type) ⟨last, tokens ++ more⟩ [tree] ⟨last', more⟩ := by
  obtain ⟨t, rest, rfl, ht, -⟩ := List.map_eq_cons_iff.mp htokens
  have hannotated : Rejects rules
      (.node .annotatedType (.seq [Rule.atLeastOnce (.call .annotationUse), .call .plainType]))
      ⟨last, t :: rest ++ more⟩ :=
    .node (.seq (.seq (.annotationUse (bars_word ht _ _))))
  have htype : Takes rules (n + 2) type ⟨last, t :: rest ++ more⟩ [tree] ⟨last', more⟩ :=
    .choiceTail hannotated h.choiceHead
  exact .call htype

/-- A type that begins with a word is no wildcard. -/
theorem takes_argument {tokens more : List Token} {tree : Tree} {last last' : Option Token}
    {n : Nat} {text : String} {others : List (TokenKind × String)}
    (htokens : tokens.map Token.lexeme = (.word, text) :: others)
    (h : Takes rules n (.call .type) ⟨last, tokens ++ more⟩ [tree] ⟨last', more⟩) :
    Takes rules (n + 2) argumentRule ⟨last, tokens ++ more⟩ [tree] ⟨last', more⟩ := by
  obtain ⟨t, rest, rfl, ht, -⟩ := List.map_eq_cons_iff.mp htokens
  have hwildcard : Rejects rules Grammar.wildcard ⟨last, t :: rest ++ more⟩ :=
    .node (.seqMany (.annotationUse (bars_word ht _ _))
      (.seq (.sym (bars_word ht ["?"] _) (List.mem_singleton_self _))))
  exact .choiceTail hwildcard h.choiceHead

theorem ReadsArrays.reads {t : WrittenType} (h : ReadsArrays t) (hwritable : t.isWritable false = true)
    {tokens more : List Token} (last : Option Token)
    (htokens : tokens.map Token.lexeme = t.lexemes) (hmore : Bars typeFollowers more) :
    ∃ tree last', Takes rules (100 * tokens.length - 27) (.call .type) ⟨last, tokens ++ more⟩ [tree]
      ⟨last', more⟩ ∧ Spells tree t := by
  obtain ⟨text, others, hlexemes⟩ := lexemes_of_isWritable t hwritable
  obtain ⟨hlength, tree, last', htake, hspells⟩ :=
    h 0 tokens last more (by rw [htokens, dimensionLexemes, List.append_nil]) hmore
  exact ⟨tree, last', (takes_type (htokens.trans hlexemes) htake).mono (by omega), hspells⟩

/-- A question mark is taken for a wildcard, whose bound is left open. -/
theorem takes_wildcard {mark : Token} (hmark : mark.lexeme = (.symbol, "?")) {rest : List Token}
    {us : List Tree} {last' : Option Token} {more : List Token} {n : Nat} (last : Option Token)
    (h : Takes rules n (Rule.optional (.seq [oneWord ["extends", "super"], .call .type]))
      ⟨some mark, rest⟩ us ⟨last', more⟩) (hn : 1 ≤ n) :
    Takes rules (n + 5) argumentRule ⟨last, mark :: rest⟩ [.node .wildcard (.leaf mark :: us)]
      ⟨last', more⟩ := by
  have hnone : Takes rules 1 (.many (.call .annotationUse)) ⟨last, mark :: rest⟩ []
      ⟨last, mark :: rest⟩ := .manyNil (.annotationUse (bars_symbol hmark (by decide) _))
  have hmark' : Takes rules 1 (sym "?") ⟨last, mark :: rest⟩ [.leaf mark] ⟨some mark, rest⟩ :=
    Takes.sym hmark
  have hall := hnone.seq (k := n + 3)
    (hmark'.seq (k := n + 2) (h.seq (k := n + 1) .seqNil (by omega) (by omega)) (by omega)
      (by omega)) (by omega) (by omega)
  rw [List.append_nil, List.nil_append] at hall
  have hgathered : gather .wildcard ([.leaf mark] ++ us) = [.node .wildcard (.leaf mark :: us)] :=
    gather_cons _ (isComment_leaf hmark (by decide)) us
  rw [← hgathered]
  exact (hall.node .wildcard).choiceHead

theorem reads_wildcard : Reads Closes argumentRule wildcard := by
  intro tokens last more htokens hmore
  rw [lexemes] at htokens
  obtain ⟨mark, rfl, hmark⟩ := eq_singleton_of_lexemes htokens
  have hnone : Takes rules 3 (Rule.optional (.seq [oneWord ["extends", "super"], .call .type]))
      ⟨some mark, more⟩ [] ⟨some mark, more⟩ := by
    obtain ⟨t, others, rfl, ht | ht⟩ := hmore
    · refine .optionalNone (.seq (.oneWord (isComment_of_lexeme ht (by decide)) ?_))
      rw [text_of_lexeme ht]
      decide
    · refine .optionalNone (.seq (.oneWord (isComment_of_lexeme ht (by decide)) ?_))
      rw [text_of_lexeme ht]
      decide
  refine ⟨.node .wildcard [.leaf mark], some mark,
    (takes_wildcard hmark last hnone (by decide)).mono (by simp), ⟨?_, rfl, rfl⟩⟩
  rw [ofTree, ofTrees_leaf (isComment_of_lexeme hmark (by decide)), ofTrees]
  rfl

/-- A wildcard is read with its bound. -/
theorem takes_bounded {keyword : String} (hkeyword : keyword ∈ ["extends", "super"])
    {bound : WrittenType} (h : ReadsArrays bound) (hbound : bound.isWritable false = true)
    {tokens more : List Token} (last : Option Token)
    (htokens : tokens.map Token.lexeme
      = [(.symbol, "?"), (.word, keyword)] ++ bound.lexemes) (hmore : Closes more) :
    ∃ (mark word : Token) (tree : Tree) (last' : Option Token),
      Takes rules (100 * tokens.length) argumentRule ⟨last, tokens ++ more⟩
        [.node .wildcard [.leaf mark, .leaf word, tree]] ⟨last', more⟩
      ∧ mark.lexeme = (.symbol, "?") ∧ word.lexeme = (.word, keyword) ∧ Spells tree bound := by
  obtain ⟨mark, tokens, rfl, hmark, htokens⟩ := List.map_eq_cons_iff.mp htokens
  obtain ⟨word, tokens, rfl, hword, htokens⟩ := List.map_eq_cons_iff.mp htokens
  obtain ⟨tree, last', htree, hspells⟩ := h.reads hbound (some word) htokens hmore.bars
  have hword' : Takes rules 3 (oneWord ["extends", "super"]) ⟨some mark, word :: (tokens ++ more)⟩
      [.leaf word] ⟨some word, tokens ++ more⟩ := Takes.oneWord hword hkeyword
  have hseq : Takes rules (100 * tokens.length + 6)
      (.seq [oneWord ["extends", "super"], .call .type])
      ⟨some mark, word :: (tokens ++ more)⟩ ([.leaf word] ++ ([tree] ++ [])) ⟨last', more⟩ :=
    hword'.seq (htree.seq (k := 100 * tokens.length + 5) .seqNil (by omega) (by omega)) (by omega)
      (by omega)
  refine ⟨mark, word, tree, last', ?_, hmark, hword, hspells⟩
  refine (takes_wildcard hmark last hseq.optional (by omega)).mono ?_
  rw [List.length_cons, List.length_cons]
  omega

/-- The word before the bound says which kind of wildcard it is. -/
theorem spells_bounded {mark word : Token} {keyword : String} {tree : Tree} {bound : WrittenType}
    (hmark : mark.lexeme = (.symbol, "?")) (hword : word.lexeme = (.word, keyword))
    (h : Spells tree bound) : Spells (.node .wildcard [.leaf mark, .leaf word, tree])
      (if keyword = "super" then wildcardSuper bound else wildcardExtends bound) where
  type := by
    have htree : tree.isWord "super" = false := by
      have hentry := h.entry
      have hnode := h.node
      cases tree with
      | leaf token => exact absurd hentry (by rw [isEntry]; exact ne_true_of_eq_false hnode)
      | node kind children => rfl
    have hmark' := isComment_of_lexeme hmark (by decide)
    have hword' := isComment_of_lexeme hword (by decide)
    rw [ofTree, ofTrees_leaf hmark', ofTrees_leaf hword', ofTrees_spells h, ofTrees]
    have hwords : (Tree.leaf word).isWord "super" = decide (keyword = "super") :=
      isWord_of_lexeme hword "super"
    have hmarks : (Tree.leaf mark).isWord "super" = false := by
      rw [Token.lexeme, Prod.mk.injEq] at hmark
      rw [Tree.isWord, Token.isWord, hmark.1]
      rfl
    simp [hmarks, hwords, htree]
  entry := rfl
  node := rfl

/-- How a type is read, as a type and as a type argument. -/
structure Readable (t : WrittenType) : Prop where
  arrays : t.isWritable false = true → ReadsArrays t
  argument : t.isWritable true = true → Reads Closes argumentRule t

theorem Readable.of_arrays {t : WrittenType} (hwritable : t.isWritable true = t.isWritable false)
    (h : t.isWritable false = true → ReadsArrays t) : Readable t where
  arrays := h
  argument := by
    intro htrue tokens last more htokens hmore
    rw [hwritable] at htrue
    obtain ⟨text, others, hlexemes⟩ := lexemes_of_isWritable t htrue
    obtain ⟨tree, last', htake, hspells⟩ := (h htrue).reads htrue last htokens hmore.bars
    refine ⟨tree, last', (takes_argument (htokens.trans hlexemes) htake).mono ?_, hspells⟩
    have hlength := congrArg List.length (htokens.trans hlexemes)
    rw [List.length_map, List.length_cons] at hlength
    omega

theorem isWritable_of_mem {ts : List WrittenType} (h : areWritable ts = true) :
    ∀ t ∈ ts, t.isWritable true = true := by
  induction ts with
  | nil => exact fun t ht => absurd ht List.not_mem_nil
  | cons t ts ih =>
    rw [areWritable, Bool.and_eq_true] at h
    exact List.forall_mem_cons.mpr ⟨h.1, ih h.2⟩

mutual

/-- Every type that can be written is read. -/
theorem readable : (t : WrittenType) → Readable t
  | void => .of_arrays rfl fun _ => readsArrays_of_simple readsSimple_void
  | primitive keyword => .of_arrays rfl fun h => by
    rw [isWritable, List.contains_iff_mem] at h
    exact readsArrays_of_simple (readsSimple_primitive h)
  | named name arguments => .of_arrays rfl fun h => by
    rw [isWritable, Bool.and_eq_true] at h
    exact readsArrays_of_simple (readsSimple_named h.1 fun t ht =>
      (readable_of_mem arguments t ht).argument (isWritable_of_mem h.2 t ht))
  | array element => .of_arrays rfl fun h => readsArrays_array ((readable element).arrays h)
  | wildcard => ⟨fun h => absurd h (by simp [isWritable]), fun _ => reads_wildcard⟩
  | wildcardExtends bound => by
    refine ⟨fun h => absurd h (by simp [isWritable]), fun h tokens last more htokens hmore => ?_⟩
    rw [isWritable, Bool.and_eq_true] at h
    obtain ⟨mark, word, tree, last', htake, hmark, hword, hspells⟩ :=
      takes_bounded (by simp) ((readable bound).arrays h.2) h.2 last htokens hmore
    exact ⟨_, last', htake, spells_bounded hmark hword hspells⟩
  | wildcardSuper bound => by
    refine ⟨fun h => absurd h (by simp [isWritable]), fun h tokens last more htokens hmore => ?_⟩
    rw [isWritable, Bool.and_eq_true] at h
    obtain ⟨mark, word, tree, last', htake, hmark, hword, hspells⟩ :=
      takes_bounded (by simp) ((readable bound).arrays h.2) h.2 last htokens hmore
    exact ⟨_, last', htake, spells_bounded hmark hword hspells⟩
  | unknown text => .of_arrays rfl fun h => by cases h

theorem readable_of_mem : (ts : List WrittenType) → ∀ t ∈ ts, Readable t
  | [] => fun _ ht => absurd ht List.not_mem_nil
  | first :: others => List.forall_mem_cons.mpr ⟨readable first, readable_of_mem others⟩

end

/-- **The lexemes of a type are read as the type they were made from.** -/
theorem reads_type {t : WrittenType} (h : t.isWritable false = true) :
    Reads (Bars typeFollowers) (.call .type) t := by
  intro tokens last more htokens hmore
  obtain ⟨tree, last', htake, hspells⟩ := ((readable t).arrays h).reads h last htokens hmore
  exact ⟨tree, last', htake.mono (by omega), hspells⟩

end WrittenType

end Conformance.Java
