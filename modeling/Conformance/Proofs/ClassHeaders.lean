import Conformance.Proofs.Anchors
import Conformance.Proofs.Clause
import Conformance.Proofs.Items

/-!
# Headers with more interfaces

The header of a class falls into what stands in front of the place for further interfaces and what
stands behind it. The part in front is decided by the next token as long as no annotations stand
among its types, so it is read again where interfaces follow that were not there before; the part
behind it begins with a word or with the body and is read again whatever stands in front of it. With
the tokens of the inserted interfaces in between, the whole is the declaration of a class
(`class_extended`).
-/

namespace Conformance.Java

open Java.Tree

namespace Grammar

variable {place mid next : Place} {t : Token}

/-! ## Behind the list -/

/-- What follows the list of interfaces in the header of a class. -/
def listFollows : List TokenTest := [.word "permits", .symbol "\x7b"]

/-- Behind the list of interfaces the permitted classes and the body are read again, whatever stands
in front of them. -/
theorem rest_repeated
    (h : Ends Grammar.rules (.seq [.optional permits, .call .classBody]) place (some next)) :
    (∃ t, nextToken? place.rest = some t ∧ passes listFollows t = true)
      ∧ ∃ taken, place.rest = taken ++ next.rest ∧ ∀ n last others,
        Ends Grammar.rules (.seq [.optional permits, .call .classBody])
          ⟨last, taken.map (Token.moved n) ++ others⟩
          (some ⟨next.last.map (Token.moved n), others⟩) := by
  have hbody : Sealed (.call .classBody) := .call (.node (sealed_braces (by decide)))
  constructor
  · obtain ⟨t, ht, hpass⟩ := next_of_firsts h (h.ne_of_consumes fits_ranking (by decide))
    exact ⟨t, ht, passes_of_coverAll (by decide) hpass⟩
  · cases h with
    | seqCons hpermits h =>
      rcases hpermits.of_optional with hpermits | ⟨-, rfl⟩
      · cases hpermits with
        | node _ hpermits =>
          cases hpermits with
          | seqCons hword htypes =>
            obtain ⟨comments, t, hrest, hcomments, ht, haccepts, hlast⟩ := hword.exists_token
            -- behind the word the header is read again as a whole
            obtain ⟨taken, hbehind, hagain⟩ := repeats_of_seq rfl
              (by decide) (by decide) hbody (htypes.of_seq_singleton.seqCons h)
            refine ⟨comments ++ t :: taken, by simp only [hrest, hbehind, List.append_assoc,
              List.cons_append], fun n last others => ?_⟩
            have hword' : Ends Grammar.rules (word "permits")
                ⟨last, comments.map (Token.moved n) ++
                  t.moved n :: (taken.map (Token.moved n) ++ others)⟩ (some ⟨some (t.moved n), _⟩) :=
              .token last (List.forall_mem_map.mpr hcomments) ht (by rw [accepts_moved]; exact haccepts)
            have hheader := hagain n others
            rw [hlast, Option.map_some] at hheader
            rw [List.map_append, List.map_cons, List.append_assoc, List.cons_append]
            cases hheader with
            | seqCons htypes' h' =>
              exact .seqCons (.choiceHead (.node _ (hword'.seqCons htypes'.seq_singleton))) h'
      · obtain ⟨taken, u, hrest, hu, -, hagain⟩ := hbody _ _ h.of_seq_singleton
        refine ⟨taken, hrest, fun n last others => .seqCons (.optional_none ?_)
          (hagain n last others).seq_singleton⟩
        obtain ⟨t, ht, hpass⟩ := next_of_firsts (hagain n last others)
          ((hagain n last others).ne_of_consumes fits_ranking (by decide))
        have hbrace : passes [.symbol "\x7b"] t = true := passes_of_coverAll (by decide) hpass
        exact ends_none (by decide) ht hbrace

/-! ## In front of the place -/

theorem leads_of_next {o : Outlook Symbol} {tests : List TokenTest} {tokens : List Token}
    (ht : nextToken? tokens = some t) (hclear : o.clear t) (hpass : passes tests t = true) :
    Leads o tests tokens := by
  intro u hu
  obtain rfl : t = u := Option.some.inj (ht.symm.trans hu)
  exact ⟨hclear, hpass⟩

/-- A token that passes other tests is no annotation. -/
theorem clear_of_passes {tests : List TokenTest} (hapart : allApart [.symbol "@"] tests = true)
    (hpass : passes tests t = true) : headerOutlook.clear t := by
  intro s hs
  obtain rfl := List.mem_singleton.mp hs
  have hno := not_passes_of_apart hapart hpass
  rwa [passes, List.any_cons, List.any_nil, Bool.or_false] at hno

/-- The modifiers of a class and a part of its header behind them are read again in front of what may
follow. -/
theorem front_replayed {list : List Form} {exits : List TokenTest} {q : Place}
    (hpredictive : (Rule.seq (word "class" :: list)).predictive ranking headerOutlook exits = true)
    (hmodifiers : Ends Grammar.rules modifierList place (some mid))
    (hfront : Ends Grammar.rules (.seq (word "class" :: list)) mid (some q))
    (hexits : Leads headerOutlook exits q.rest) {before front : List Token}
    (hplace : place.rest = before ++ mid.rest) (hmid : mid.rest = front ++ q.rest)
    (hclear : ∀ t ∈ front, headerOutlook.clear t) (n : Nat) (last : Option Token)
    {others : List Token} (hothers : Leads headerOutlook exits others) :
    ∃ last', Ends Grammar.rules (.seq (modifierList :: word "class" :: list))
      ⟨last, (before ++ front).map (Token.moved n) ++ others⟩ (some ⟨last', others⟩) := by
  -- the word behind the modifiers comes next, here and there
  have hword : ∀ {tokens : List Token} {next : Option Place} {last : Option Token},
      Ends Grammar.rules (.seq (word "class" :: list)) ⟨last, tokens⟩ next → next ≠ none →
      Leads modifierOutlook [.word "class"] tokens := by
    intro tokens next last h hne
    cases h with
    | seqFails => exact absurd rfl hne
    | seqCons h _ =>
      obtain ⟨t, ht, haccepts, -⟩ := h.next_token
      exact leads_of_next ht (clear_modifierOutlook t) (passes_singleton haccepts)
  have hagain := hfront.replayed fits_headerOutlook hpredictive rfl hexits front hmid hclear n
  obtain ⟨last', hfront'⟩ := hagain none others hothers
  obtain ⟨between, hmodifiers'⟩ := hmodifiers.replayed fits_modifierOutlook
    (by decide) rfl (hword hfront (Option.some_ne_none _)) before hplace
    (fun t _ => clear_modifierOutlook t) n last _ (hword hfront' (Option.some_ne_none _))
  obtain ⟨last'', hfront''⟩ := hagain between others hothers
  rw [List.map_append, List.append_assoc]
  exact ⟨last'', hmodifiers'.seqCons hfront''⟩

/-! ## The whole header -/

/-- The header of a class between its modifiers and its list of interfaces. -/
def classFront : List Form :=
  [anyName, .optional (.call .typeParams), .optional superclass]

theorem classDecl_eq : Grammar.classDecl = .node .classDecl (.seq
    ((modifierList :: word "class" :: classFront)
      ++ (.optional superInterfaces :: [.optional permits, .call .classBody]))) := rfl

/-- What may come next where the list of interfaces begins. -/
def frontExits : List TokenTest := .word "implements" :: listFollows

/-- What may come next where the list of interfaces goes on. -/
def entryExits : List TokenTest := .symbol "," :: listFollows

theorem bars_of_passes {symbols : List String} {tests : List TokenTest} {tokens : List Token}
    (hapart : allApart (symbols.map .symbol) tests = true) (ht : nextToken? tokens = some t)
    (hpass : passes tests t = true) : Bars symbols tokens := by
  intro u hu s hs
  obtain rfl : t = u := Option.some.inj (ht.symm.trans hu)
  have hno := not_passes_of_apart hapart hpass
  rw [passes, List.any_eq_false] at hno
  have := hno (.symbol s) (List.mem_map_of_mem hs)
  rwa [TokenTest.accepts, Bool.not_eq_true] at this

/-- The first token of what is inserted comes next in front of it. -/
theorem next_of_lexemes {kind : TokenKind} {text : String} {lexemes : List (TokenKind × String)}
    {tokens : List Token} (h : tokens.map Token.lexeme = (kind, text) :: lexemes)
    (hkind : kind ≠ .comment) (others : List Token) :
    ∃ t, nextToken? (tokens ++ others) = some t ∧ t.lexeme = (kind, text) := by
  obtain ⟨t, tokens, rfl, ht, -⟩ := List.map_eq_cons_iff.mp h
  refine ⟨t, ?_, ht⟩
  rw [nextToken?, List.cons_append, dropWhile_isComment_cons (isComment_of_lexeme ht hkind)]
  rfl

variable {added : List WrittenType} {before front rest : List Token}

/-- A class with a list of interfaces where there was none. -/
theorem class_with_list (hne : added ≠ []) (hwritable : ∀ t ∈ added, t.isWritable false = true)
    (hmodifiers : Ends Grammar.rules modifierList place (some mid)) {q : Place}
    (hfront : Ends Grammar.rules (.seq (word "class" :: classFront)) mid (some q))
    (hrest : Ends Grammar.rules (.seq [.optional permits, .call .classBody]) q (some next))
    (hplace : place.rest = before ++ mid.rest) (hmid : mid.rest = front ++ q.rest)
    (hclear : ∀ t ∈ front, headerOutlook.clear t) (hq : q.rest = rest ++ next.rest)
    (offset : Nat) : ∀ n m last inserted others,
      inserted.map Token.lexeme = Declaration.insertedLexemes .plainClass ⟨offset, false⟩ added →
      Ends Grammar.rules (.call .classDecl)
        ⟨last, (before ++ front).map (Token.moved n) ++
          (inserted ++ (rest.map (Token.moved m) ++ others))⟩
        (some ⟨next.last.map (Token.moved m), others⟩) := by
  obtain ⟨⟨t, ht, hpass⟩, found, hfound, hagain⟩ := rest_repeated hrest
  obtain rfl : found = rest := List.append_cancel_right (hfound.symm.trans hq)
  intro n m last inserted others hinserted
  obtain ⟨⟨u, hu, hpass'⟩, -⟩ := rest_repeated (hagain m none others)
  obtain ⟨w, hw, hlexeme⟩ := next_of_lexemes hinserted (by decide)
    (found.map (Token.moved m) ++ others)
  have hword : passes [.word "implements"] w = true := passes_singleton (by
    rw [TokenTest.accepts, isWord_of_lexeme hlexeme]
    rfl)
  have hhere : Leads headerOutlook frontExits q.rest :=
    leads_of_next ht (clear_of_passes (by decide) hpass) (passes_of_coverAll (by decide) hpass)
  have hthere : Leads headerOutlook frontExits (inserted ++ (found.map (Token.moved m) ++ others)) :=
    leads_of_next hw (clear_of_passes (by decide) hword) (passes_of_coverAll (by decide) hword)
  obtain ⟨last', hfront'⟩ := front_replayed (by decide) hmodifiers hfront hhere hplace hmid hclear n
    last hthere
  obtain ⟨trees, last'', htakes, -⟩ := Declaration.readAs_inserted (by decide) hne hwritable hinserted
    (bars_of_passes (by decide) hu hpass') last'
  have hlist : Ends Grammar.rules superInterfaces _ _ :=
    htakes.ends fits_ranking (by decide)
  refine .call ?_
  change Ends Grammar.rules Grammar.classDecl _ _
  rw [classDecl_eq]
  exact .node _ (hfront'.seq_append (.seqCons (.choiceHead hlist) (hagain m last'' others)))

/-- A class with further entries in its list of interfaces. -/
theorem class_with_entries (hne : added ≠ []) (hwritable : ∀ t ∈ added, t.isWritable false = true)
    (hmodifiers : Ends Grammar.rules modifierList place (some mid)) {p q : Place}
    (hfront : Ends Grammar.rules (.seq (word "class" :: classFront)) mid (some p))
    (hlist : Ends Grammar.rules superInterfaces p (some q))
    (hrest : Ends Grammar.rules (.seq [.optional permits, .call .classBody]) q (some next))
    (hplace : place.rest = before ++ mid.rest) (hmid : mid.rest = front ++ q.rest)
    (hclear : ∀ t ∈ front, headerOutlook.clear t) (hq : q.rest = rest ++ next.rest)
    (offset : Nat) : ∀ n m last inserted others,
      inserted.map Token.lexeme = Declaration.insertedLexemes .plainClass ⟨offset, true⟩ added →
      Ends Grammar.rules (.call .classDecl)
        ⟨last, (before ++ front).map (Token.moved n) ++
          (inserted ++ (rest.map (Token.moved m) ++ others))⟩
        (some ⟨next.last.map (Token.moved m), others⟩) := by
  obtain ⟨⟨t, ht, hpass⟩, found, hfound, hagain⟩ := rest_repeated hrest
  obtain rfl : found = rest := List.append_cancel_right (hfound.symm.trans hq)
  intro n m last inserted others hinserted
  obtain ⟨⟨u, hu, hpass'⟩, -⟩ := rest_repeated (hagain m none others)
  obtain ⟨w, hw, hlexeme⟩ := next_of_lexemes hinserted (by decide)
    (found.map (Token.moved m) ++ others)
  have hcomma : passes [.symbol ","] w = true := passes_singleton (by
    rw [TokenTest.accepts, isSymbol_of_lexeme hlexeme]
    rfl)
  -- the list falls into its first entry and the further ones
  obtain ⟨between, hfirst, hmany⟩ : ∃ between,
      Ends Grammar.rules (.seq (word "class" :: (classFront ++ [word "implements", .call .type]))) mid
        (some between)
      ∧ Ends Grammar.rules Declaration.furtherEntries between (some q) := by
    cases hlist with
    | node _ hlist =>
      cases hlist with
      | seqCons hword htypes =>
        have htypes := htypes.of_seq_singleton
        cases htypes with
        | node _ htypes =>
          cases htypes with
          | seqCons htype hmany =>
            exact ⟨_, hfront.seq_append (.seqCons hword htype.seq_singleton), hmany.of_seq_singleton⟩
  obtain ⟨names, hnames, -⟩ := hfirst.taken rfl
  obtain ⟨entries, hentries, -⟩ := hmany.taken rfl
  obtain rfl : front = names ++ entries := by
    refine List.append_cancel_right (hmid.symm.trans ?_)
    rw [hnames, hentries, List.append_assoc]
  rw [List.forall_mem_append] at hclear
  have hhere : Leads headerOutlook entryExits q.rest :=
    leads_of_next ht (clear_of_passes (by decide) hpass) (passes_of_coverAll (by decide) hpass)
  have hthere : Leads headerOutlook entryExits (inserted ++ (found.map (Token.moved m) ++ others)) :=
    leads_of_next hw (clear_of_passes (by decide) hcomma) (passes_of_coverAll (by decide) hcomma)
  have hbetween : Leads headerOutlook entryExits between.rest := by
    have hleads := hmany.leads_many fits_headerOutlook hentries hclear.2 0 hhere
    rwa [map_moved_zero, ← hentries] at hleads
  obtain ⟨last', hfront'⟩ := front_replayed (by decide) hmodifiers hfirst
    hbetween hplace hnames hclear.1 n last
    (hmany.leads_many fits_headerOutlook hentries hclear.2 n hthere)
  obtain ⟨last'', hmany'⟩ := hmany.many_continued fits_headerOutlook (by decide)
    hhere hentries hclear.2 n hthere (fun last => by
      obtain ⟨trees, last', htakes, -⟩ := Declaration.readAs_inserted (by decide) hne hwritable
        hinserted (bars_of_passes (by decide) hu hpass') last
      exact ⟨last', htakes.ends fits_ranking (by decide)⟩) last'
  rw [← List.cons_append, ← List.cons_append] at hfront'
  obtain ⟨p', hfront', hlist'⟩ := hfront'.of_seq_append
  cases hlist' with
  | seqCons hword htype =>
    refine .call ?_
    change Ends Grammar.rules Grammar.classDecl _ _
    rw [classDecl_eq, ← List.append_assoc before, List.map_append, List.append_assoc]
    have hlist : Ends Grammar.rules superInterfaces p' _ := .node _ (.seqCons hword
      (.seq_singleton (.node _ (.seqCons htype.of_seq_singleton (.seq_singleton hmany')))))
    exact .node _ (hfront'.seq_append (.seqCons (.choiceHead hlist) (hagain m last'' others)))

/-! ## Where the list ends -/

open Declaration

theorem find?_comments (kind : NodeKind) {ts : List Tree} (h : ∀ t ∈ ts, t.isComment = true) :
    ts.find? (·.isNode kind) = none := by
  rw [List.find?_eq_none]
  intro t ht
  cases t with
  | leaf token => exact Bool.false_ne_true
  | node k children => cases h _ ht

theorem ownTokens_comments {ts : List Tree} (h : ∀ t ∈ ts, t.isComment = true) :
    ownTokens ts = [] := by
  rw [ownTokens, List.filterMap_eq_nil_iff]
  intro t ht
  cases t with
  | leaf token => exact if_pos (h _ ht)
  | node k children => rfl

theorem find?_dropWhile_isComment (kind : NodeKind) (ts : List Tree) :
    (ts.dropWhile Tree.isComment).find? (·.isNode kind) = ts.find? (·.isNode kind) := by
  conv_rhs => rw [← List.takeWhile_append_dropWhile (p := Tree.isComment) (l := ts)]
  rw [List.find?_append, find?_comments kind fun t ht => List.mem_takeWhile_imp ht, Option.none_or]

theorem ownTokens_dropWhile_isComment (ts : List Tree) :
    ownTokens (ts.dropWhile Tree.isComment) = ownTokens ts := by
  conv_rhs => rw [← List.takeWhile_append_dropWhile (p := Tree.isComment) (l := ts)]
  rw [ownTokens_append, ownTokens_comments fun t ht => List.mem_takeWhile_imp ht, List.nil_append]

theorem find?_gather (kind kind' : NodeKind) (ts : List Tree) :
    (gather kind ts).find? (·.isNode kind')
      = if kind = kind' then some (.node kind (ts.dropWhile Tree.isComment)) else none := by
  rw [gather, List.find?_append, find?_comments kind' fun t ht => List.mem_takeWhile_imp ht,
    Option.none_or, List.find?_singleton]
  by_cases h : kind = kind'
  · rw [if_pos h, if_pos (by rw [Tree.isNode, decide_eq_true h])]
  · rw [if_neg h, if_neg (by rw [Tree.isNode, decide_eq_false h]; exact Bool.false_ne_true)]

theorem ownTokens_gather (kind : NodeKind) (ts : List Tree) : ownTokens (gather kind ts) = [] := by
  rw [gather, ownTokens_append, ownTokens_comments fun t ht => List.mem_takeWhile_imp ht]
  rfl

theorem ofTrees_append (ts us : List Tree) : ofTrees (ts ++ us) = ofTrees ts ++ ofTrees us := by
  induction ts with
  | nil => rfl
  | cons t ts ih => rw [List.cons_append, ofTrees, ofTrees, ih, List.append_assoc]

/-- Leaves declare nothing. -/
theorem ofTrees_leaves (tokens : List Token) : ofTrees (tokens.map Tree.leaf) = [] := by
  induction tokens with
  | nil => rfl
  | cons t tokens ih => rw [List.map_cons, ofTrees, ih, ofTree, List.nil_append]

theorem ofTrees_comments {ts : List Tree} (h : ∀ t ∈ ts, t.isComment = true) : ofTrees ts = [] := by
  induction ts with
  | nil => rfl
  | cons t ts ih =>
    rw [List.forall_mem_cons] at h
    rw [ofTrees, ih h.2]
    cases t with
    | leaf token => rfl
    | node k children => cases h.1

/-- What a rule for a part of a header builds: a node that ends with the last token, or nothing. -/
def PartOf (kind : NodeKind) (ts : List Tree) (place next : Place) : Prop :=
  (ts = [] ∧ next = place) ∨ ∃ us t, ts = gather kind us ∧ next.last = some t
    ∧ (Tree.node kind (us.dropWhile Tree.isComment)).stop? = some t.stop

theorem PartOf.ownTokens_eq {kind : NodeKind} {ts : List Tree} (h : PartOf kind ts place next) :
    ownTokens ts = [] := by
  rcases h with ⟨rfl, -⟩ | ⟨us, t, rfl, -⟩
  · rfl
  · exact ownTokens_gather kind us

theorem PartOf.find?_of_ne {kind kind' : NodeKind} {ts : List Tree} (h : PartOf kind ts place next)
    (hne : kind ≠ kind') : ts.find? (·.isNode kind') = none := by
  rcases h with ⟨rfl, -⟩ | ⟨us, t, rfl, -⟩
  · rfl
  · rw [find?_gather, if_neg hne]

/-- A part that is there is found, and it ends with the last token. -/
theorem PartOf.find?_eq {kind : NodeKind} {ts : List Tree} (h : PartOf kind ts place next) :
    (ts = [] ∧ next = place ∧ ts.find? (·.isNode kind) = none)
      ∨ ∃ part t, ts ≠ [] ∧ ts.find? (·.isNode kind) = some part ∧ next.last = some t
        ∧ part.stop? = some t.stop := by
  rcases h with ⟨rfl, rfl⟩ | ⟨us, t, rfl, hlast, hstop⟩
  · exact .inl ⟨rfl, rfl, rfl⟩
  · refine .inr ⟨_, t, ?_, by rw [find?_gather, if_pos rfl], hlast, hstop⟩
    rw [gather]
    exact List.append_ne_nil_of_right_ne_nil _ (List.cons_ne_nil _ _)

theorem isComment_of_mem_tokensOf {ts : List Tree} (h : ∀ t ∈ ts, t.isComment = true) {token : Token}
    (htoken : token ∈ tokensOf ts) : token.isComment = true := by
  induction ts with
  | nil => cases htoken
  | cons t ts ih =>
    rw [List.forall_mem_cons] at h
    rw [tokensOf, List.mem_append] at htoken
    rcases htoken with htoken | htoken
    · cases t with
      | leaf found =>
        rw [Tree.tokens, List.mem_singleton] at htoken
        exact htoken ▸ h.1
      | node k children => cases h.1
    · exact ih h.2 htoken

/-- A node is a part of a header if its rule takes something. -/
theorem partOf_node {kind : NodeKind} {inner : Form} {ts : List Tree}
    (hconsumes : inner.consumes ranking = true)
    (h : Parses ranking Grammar.rules (.node kind inner) place ts next) :
    PartOf kind ts place next := by
  obtain ⟨us, rfl, hinner⟩ := h.of_node
  have hends := hinner.ends fits_ranking
  have hrest := hinner.spans.rest_eq
  obtain ⟨before, t, htokens, hlast, hcomment⟩ :=
    hends.last_of_consumes fits_ranking hconsumes hrest
  have hsplit := congrArg tokensOf
    (List.takeWhile_append_dropWhile (p := Tree.isComment) (l := us))
  rw [tokensOf_append] at hsplit
  -- the node has a token that is no comment
  have hne : tokensOf (us.dropWhile Tree.isComment) ≠ [] := by
    intro hnil
    rw [hnil, List.append_nil] at hsplit
    have ht : t ∈ tokensOf us := htokens ▸ List.mem_append_right _ (List.mem_singleton_self t)
    rw [← hsplit] at ht
    rw [isComment_of_mem_tokensOf (fun t ht => List.mem_takeWhile_imp ht) ht] at hcomment
    cases hcomment
  have hgetLast := congrArg List.getLast? (hsplit.trans htokens)
  rw [List.getLast?_append, List.getLast?_concat, List.getLast?_eq_some_getLast hne,
    Option.some_or] at hgetLast
  refine .inr ⟨us, t, rfl, hlast, ?_⟩
  rw [stop?, tokens_node, List.getLast?_eq_some_getLast hne, hgetLast]
  rfl

theorem partOf_optional {kind : NodeKind} {inner : Form} {ts : List Tree}
    (hconsumes : inner.consumes ranking = true)
    (h : Parses ranking Grammar.rules (.optional (.node kind inner)) place ts next) :
    PartOf kind ts place next := by
  rcases h.of_optional fits_ranking with h | ⟨-, rfl, rfl⟩
  · exact partOf_node hconsumes h
  · exact .inl ⟨rfl, rfl⟩

/-- A rule for one token builds a leaf. -/
theorem leaf_of_parses {test : TokenTest} {ts : List Tree}
    (h : Parses ranking Grammar.rules (.one test) place ts next) :
    ∃ (comments : List Token) (t : Token), ts = comments.map .leaf ++ [.leaf t]
      ∧ next.last = some t ∧ (∀ c ∈ comments, c.isComment = true) ∧ t.isComment = false
      ∧ test.accepts t = true := by
  obtain ⟨comments, t, hrest, hcomments, ht, haccepts, hlast⟩ := (h.ends fits_ranking).exists_token
  refine ⟨comments, t, ?_, hlast, hcomments, ht, haccepts⟩
  have hspans := h.spans
  cases hspans with
  | one htake =>
    obtain ⟨comments', t', -, rfl, hrest'⟩ := Place.take?_eq_some htake
    have hsame : comments ++ [t] = comments' ++ [t'] := by
      have htaken : comments ++ [t] ++ next.rest = comments' ++ [t'] ++ next.rest := by
        rw [List.append_assoc, List.append_assoc, List.singleton_append, List.singleton_append,
          ← hrest, hrest']
      exact List.append_cancel_right htaken
    obtain ⟨rfl, heq⟩ := List.append_inj' hsame rfl
    rw [List.singleton_inj.mp heq]

theorem ownTokens_leaf {comments : List Token} (hcomments : ∀ c ∈ comments, c.isComment = true)
    (ht : t.isComment = false) :
    ownTokens (comments.map .leaf ++ [.leaf t]) = [t] := by
  rw [ownTokens_append, ownTokens_comments (by simpa [Tree.isComment] using hcomments),
    List.nil_append]
  simp [ownTokens, ht]

theorem find?_leaf (kind : NodeKind) (tokens : List Token) :
    (tokens.map Tree.leaf).find? (·.isNode kind) = none := by
  rw [List.find?_eq_none]
  intro t ht
  obtain ⟨token, -, rfl⟩ := List.mem_map.mp ht
  exact Bool.false_ne_true

/-- **The place for further interfaces in the header of a class** is the end of the last token in
front of what follows the list. -/
theorem anchorOf_class {p₀ p₁ p₂ p₃ p₄ p₅ p₆ : Place}
    {modifiers typeParams superclass list permits body : List Tree} {comments comments' : List Token}
    {word name : Token} (hmodifiers : PartOf .modifiers modifiers place p₀)
    (hcomments : ∀ c ∈ comments, c.isComment = true) (hword : word.isComment = false)
    (hcomments' : ∀ c ∈ comments', c.isComment = true) (hname : name.isComment = false)
    (hlast : p₁.last = some name) (htypeParams : PartOf .typeParams typeParams p₁ p₂)
    (hsuperclass : PartOf .superclass superclass p₂ p₃)
    (hlist : PartOf .superInterfaces list p₃ p₄) (hpermits : PartOf .permits permits p₄ p₅)
    (hbody : PartOf .body body p₅ p₆) {ts : List Tree}
    (hts : ts = modifiers ++ (comments.map .leaf ++ [.leaf word])
      ++ (comments'.map .leaf ++ [.leaf name]) ++ typeParams ++ superclass ++ list ++ permits ++ body) :
    ∃ t, p₄.last = some t ∧ (ownTokens (ts.dropWhile Tree.isComment))[1]? = some name
      ∧ anchorOf .plainClass (ts.dropWhile Tree.isComment) = ⟨t.stop, !list.isEmpty⟩ := by
  have hown : (ownTokens (ts.dropWhile Tree.isComment))[1]? = some name := by
    rw [ownTokens_dropWhile_isComment, hts]
    simp only [ownTokens_append, hmodifiers.ownTokens_eq, htypeParams.ownTokens_eq,
      hsuperclass.ownTokens_eq, hlist.ownTokens_eq, hpermits.ownTokens_eq, hbody.ownTokens_eq,
      ownTokens_leaf hcomments hword, ownTokens_leaf hcomments' hname]
    rfl
  have hfind : ∀ kind, (ts.dropWhile Tree.isComment).find? (·.isNode kind)
      = ((((((modifiers.find? (·.isNode kind)).or (typeParams.find? (·.isNode kind))).or
        (superclass.find? (·.isNode kind))).or (list.find? (·.isNode kind))).or
        (permits.find? (·.isNode kind))).or (body.find? (·.isNode kind))) := by
    intro kind
    have hleaf : ∀ (comments : List Token) (t : Token),
        (comments.map Tree.leaf ++ [Tree.leaf t]).find? (·.isNode kind) = none := fun comments t => by
      rw [← List.map_singleton, ← List.map_append, find?_leaf]
    rw [find?_dropWhile_isComment, hts]
    simp only [List.find?_append, hleaf, Option.or_none]
  have hclause := hfind .superInterfaces
  have hbefore := hfind .superclass
  have hparameters := hfind .parameters
  have hparams := hfind .typeParams
  rw [hmodifiers.find?_of_ne (by decide), htypeParams.find?_of_ne (by decide),
    hsuperclass.find?_of_ne (by decide), hpermits.find?_of_ne (by decide),
    hbody.find?_of_ne (by decide)] at hclause
  rw [hmodifiers.find?_of_ne (by decide), htypeParams.find?_of_ne (by decide),
    hlist.find?_of_ne (by decide), hpermits.find?_of_ne (by decide),
    hbody.find?_of_ne (by decide)] at hbefore
  rw [hmodifiers.find?_of_ne (by decide), htypeParams.find?_of_ne (by decide),
    hsuperclass.find?_of_ne (by decide), hlist.find?_of_ne (by decide),
    hpermits.find?_of_ne (by decide), hbody.find?_of_ne (by decide)] at hparameters
  rw [hmodifiers.find?_of_ne (by decide), hsuperclass.find?_of_ne (by decide),
    hlist.find?_of_ne (by decide), hpermits.find?_of_ne (by decide),
    hbody.find?_of_ne (by decide)] at hparams
  simp only [Option.none_or, Option.or_none] at hclause hbefore hparameters hparams
  -- the last part that is there, or else the name
  rcases hlist.find?_eq with ⟨rfl, rfl, hnone⟩ | ⟨part, t, hne, hsome, ht, hstop⟩
  · rcases hsuperclass.find?_eq with ⟨-, rfl, hnone'⟩ | ⟨part, t, -, hsome, ht, hstop⟩
    · rcases htypeParams.find?_eq with ⟨-, rfl, hnone''⟩ | ⟨part, t, -, hsome, ht, hstop⟩
      · refine ⟨name, hlast, hown, ?_⟩
        simp [anchorOf, clause?, hclause, hbefore, hparameters, hparams, hnone, hnone', hnone'', hown]
      · refine ⟨t, ht, hown, ?_⟩
        simp [anchorOf, clause?, hclause, hbefore, hparameters, hparams, hnone, hnone', hsome, hstop]
    · refine ⟨t, ht, hown, ?_⟩
      simp [anchorOf, clause?, hclause, hbefore, hnone, hsome, hstop]
  · refine ⟨t, ht, hown, ?_⟩
    simp [anchorOf, clause?, hclause, hsome, hstop, hne]

/-! ## The class -/

/-- Whether no annotations stand among the types in the header of a class. -/
def hasPlainTypes (children : List Tree) : Bool :=
  children.all fun
    | .leaf _ => true
    | .node kind inner => !isHeaderPart kind || (tokensOf inner).all fun t => !t.isSymbol "@"

theorem clear_of_hasPlainTypes {kind : NodeKind} {children inner : List Tree}
    (hplain : hasPlainTypes children = true) (hkind : isHeaderPart kind = true)
    (hmem : Tree.node kind inner ∈ children) : ∀ t ∈ tokensOf inner, headerOutlook.clear t := by
  intro t ht s hs
  obtain rfl := List.mem_singleton.mp hs
  have hall := List.all_eq_true.mp hplain _ hmem
  dsimp only at hall
  rw [hkind, Bool.not_true, Bool.false_or, List.all_eq_true] at hall
  exact (Bool.not_eq_true' _).mp (hall t ht)

theorem clear_of_isComment (h : t.isComment = true) : headerOutlook.clear t := by
  intro s hs
  obtain rfl := List.mem_singleton.mp hs
  rw [Token.isComment, decide_eq_true_iff] at h
  rw [Token.isSymbol, h]
  rfl

/-- The tokens of such a part, with the comments in front of it. -/
theorem clear_of_partOf {kind : NodeKind} {ts children : List Tree} (h : PartOf kind ts place next)
    (hkind : isHeaderPart kind = true) (hplain : hasPlainTypes children = true)
    (hsub : ∀ t ∈ ts, t.isComment = false → t ∈ children) :
    ∀ t ∈ tokensOf ts, headerOutlook.clear t := by
  intro token htoken
  rcases h with ⟨rfl, -⟩ | ⟨us, t, rfl, -⟩
  · cases htoken
  · rw [gather, tokensOf_append, List.mem_append] at htoken
    rcases htoken with hcomment | hnode
    · exact clear_of_isComment (isComment_of_mem_tokensOf (fun t ht => List.mem_takeWhile_imp ht) hcomment)
    · rw [tokensOf, tokensOf, List.append_nil, tokens_node] at hnode
      exact clear_of_hasPlainTypes hplain hkind (hsub _ (mem_gather kind us) rfl) token hnode

/-- No annotations stand in front of the place for further interfaces. -/
theorem clear_of_front {us params upper list : List Tree} {comments comments' : List Token}
    {keyword name : Token} {p₃ p₄ p₅ p₆ : Place} {except : List String}
    (hplain : hasPlainTypes (us.dropWhile Tree.isComment) = true)
    (hcomments : ∀ c ∈ comments, c.isComment = true)
    (hkeyword : TokenTest.accepts keyword (.word "class") = true)
    (hcomments' : ∀ c ∈ comments', c.isComment = true)
    (hname : TokenTest.accepts name (.name except) = true)
    (hparams : PartOf .typeParams params p₃ p₄) (hupper : PartOf .superclass upper p₄ p₅)
    (hlist : PartOf .superInterfaces list p₅ p₆) (hsub : ∀ t ∈ params ++ upper ++ list, t ∈ us) :
    ∀ u ∈ (comments ++ [keyword]) ++ (comments' ++ [name]) ++ tokensOf params ++ tokensOf upper
      ++ tokensOf list, headerOutlook.clear u := by
  have hpart : ∀ {kind : NodeKind} {ts : List Tree} {p q : Place}, PartOf kind ts p q →
      isHeaderPart kind = true → (∀ t ∈ ts, t ∈ us) → ∀ u ∈ tokensOf ts, headerOutlook.clear u :=
    fun h hkind hsub => clear_of_partOf h hkind hplain fun t ht hno =>
      mem_dropWhile_isComment (hsub t ht) hno
  have hword : ∀ {u : Token} {test : TokenTest}, allApart [.symbol "@"] [test] = true →
      test.accepts u = true → headerOutlook.clear u := fun hapart haccepts =>
    clear_of_passes hapart (passes_singleton haccepts)
  simp only [List.forall_mem_append, List.forall_mem_singleton] at hsub ⊢
  exact ⟨⟨⟨⟨⟨fun u hu => clear_of_isComment (hcomments u hu), hword (by decide) hkeyword⟩,
    fun u hu => clear_of_isComment (hcomments' u hu), hword rfl hname⟩,
    hpart hparams rfl hsub.1.1⟩, hpart hupper rfl hsub.1.2⟩, hpart hlist rfl hsub.2⟩

theorem ofTrees_class {us : List Tree} {name : Token} {anchor : ClauseAnchor}
    (hown : (ownTokens (us.dropWhile Tree.isComment))[1]? = some name)
    (hanchor : anchorOf .plainClass (us.dropWhile Tree.isComment) = anchor) :
    ∃ d, ofTrees (gather .classDecl us) = [d] ∧ d.kind = .plainClass ∧ d.anchor = anchor := by
  rw [gather, ofTrees_append, ofTrees_comments fun t ht => List.mem_takeWhile_imp ht]
  simp [ofTrees, ofTree, kindOf?, hown, hanchor]

/-- **A class is read again with more interfaces,** if no annotations stand among the types of its
header: where its list of interfaces ends there is a place that its tokens fall into two parts at,
and in front of the second part may stand the tokens of further interfaces. -/
theorem class_extended {ts : List Tree}
    (h : Parses ranking Grammar.rules (.call .classDecl) place ts next)
    (hplain : ∀ children, Tree.node .classDecl children ∈ ts → hasPlainTypes children = true) :
    ∃ d front t rest, ofTrees ts = [d] ∧ d.kind = .plainClass ∧ t.stop = d.anchor.offset
      ∧ t.isComment = false ∧ place.rest = (front ++ [t]) ++ (rest ++ next.rest)
      ∧ ∀ added, added ≠ [] → (∀ a ∈ added, WrittenType.isWritable false a = true) →
        ∀ n m last inserted others,
          inserted.map Token.lexeme = insertedLexemes .plainClass d.anchor added →
          Ends Grammar.rules (.call .classDecl)
            ⟨last, (front ++ [t]).map (Token.moved n) ++
              (inserted ++ (rest.map (Token.moved m) ++ others))⟩
            (some ⟨next.last.map (Token.moved m), others⟩) := by
  obtain ⟨us, rfl, hinner⟩ := (h.of_call fits_ranking).of_node
  obtain ⟨modifiers, us₁, p₁, hus, hmodifiers, h₁⟩ := hinner.of_seq fits_ranking
  obtain ⟨words, us₂, p₂, rfl, hword, h₂⟩ := h₁.of_seq fits_ranking
  obtain ⟨names, us₃, p₃, rfl, hname, h₃⟩ := h₂.of_seq fits_ranking
  obtain ⟨params, us₄, p₄, rfl, hparams, h₄⟩ := h₃.of_seq fits_ranking
  obtain ⟨upper, us₅, p₅, rfl, hupper, h₅⟩ := h₄.of_seq fits_ranking
  obtain ⟨list, us₆, p₆, rfl, hlist, h₆⟩ := h₅.of_seq fits_ranking
  obtain ⟨permitted, us₇, p₇, rfl, hpermitted, h₇⟩ := h₆.of_seq fits_ranking
  obtain ⟨body, us₈, p₈, rfl, hbody, h₈⟩ := h₇.of_seq fits_ranking
  obtain ⟨rfl, rfl⟩ := h₈.of_seqNil
  -- what the parts of the header build
  have hmodifiersPart : PartOf .modifiers modifiers place p₁ := partOf_optional (by decide) hmodifiers
  obtain ⟨comments, keyword, rfl, -, hcomments, hkeyword, hkeyAccepts⟩ := leaf_of_parses hword
  obtain ⟨comments', name, rfl, hnameLast, hcomments', hnameComment, hnameAccepts⟩ :=
    leaf_of_parses hname
  have hparamsPart : PartOf .typeParams params p₃ p₄ := by
    rcases hparams.of_optional fits_ranking with hparams | ⟨-, rfl, rfl⟩
    · exact partOf_node (by decide) (hparams.of_call fits_ranking)
    · exact .inl ⟨rfl, rfl⟩
  have hupperPart : PartOf .superclass upper p₄ p₅ := partOf_optional (by decide) hupper
  have hlistPart : PartOf .superInterfaces list p₅ p₆ := partOf_optional (by decide) hlist
  obtain ⟨t, ht, hown, hanchor⟩ := anchorOf_class hmodifiersPart hcomments hkeyword hcomments'
    hnameComment hnameLast hparamsPart hupperPart hlistPart
    (partOf_optional (by decide) hpermitted) (partOf_node (by decide) (hbody.of_call fits_ranking))
    (hus.trans (by simp only [List.append_assoc, List.append_nil]))
  -- what they take
  have hmodifiersEnds := hmodifiers.ends fits_ranking
  have hfront : Ends Grammar.rules (.seq (word "class" :: classFront)) p₁ (some p₅) :=
    (hword.ends fits_ranking).seqCons ((hname.ends fits_ranking).seqCons
      ((hparams.ends fits_ranking).seqCons (hupper.ends fits_ranking).seq_singleton))
  have hrest : Ends Grammar.rules (.seq [.optional permits, .call .classBody]) p₆ (some next) :=
    (hpermitted.ends fits_ranking).seqCons (hbody.ends fits_ranking).seq_singleton
  have hplace := hmodifiers.spans.rest_eq
  have hmid : p₁.rest = ((comments ++ [keyword]) ++ (comments' ++ [name]) ++ tokensOf params
      ++ tokensOf upper ++ tokensOf list) ++ p₆.rest := by
    rw [hword.spans.rest_eq, hname.spans.rest_eq, hparams.spans.rest_eq, hupper.spans.rest_eq,
      hlist.spans.rest_eq]
    simp only [tokensOf_append, tokensOf_map_leaf, tokensOf, Tree.tokens, List.append_assoc,
      List.append_nil]
  generalize hfrontTokens : (comments ++ [keyword]) ++ (comments' ++ [name]) ++ tokensOf params
      ++ tokensOf upper ++ tokensOf list = front at hmid
  have hclear : ∀ u ∈ front, headerOutlook.clear u := by
    rw [← hfrontTokens]
    refine clear_of_front (hplain _ (mem_gather .classDecl us)) hcomments hkeyAccepts hcomments'
      hnameAccepts hparamsPart hupperPart hlistPart fun t ht => ?_
    simp only [List.mem_append] at ht
    rcases ht with (ht | ht) | ht <;> simp [hus, ht]
  -- the last token in front of it
  have hwhole : Ends Grammar.rules (.seq (modifierList :: word "class" :: (classFront ++
      [.optional superInterfaces]))) place (some p₆) :=
    hmodifiersEnds.seqCons (hfront.seq_append (hlist.ends fits_ranking).seq_singleton)
  have htaken : place.rest = tokensOf modifiers ++ front ++ p₆.rest := by
    rw [hplace, hmid, List.append_assoc]
  obtain ⟨before, t', hbefore, ht', hplainToken⟩ :=
    hwhole.last_of_consumes fits_ranking (by decide) htaken
  obtain rfl : t = t' := Option.some.inj (ht.symm.trans ht')
  obtain ⟨rest, hrestTokens, -⟩ := hrest.taken rfl
  obtain ⟨d, hd, hdkind, hdanchor⟩ := ofTrees_class hown hanchor
  refine ⟨d, before, t, rest, hd, hdkind, by rw [hdanchor], hplainToken, ?_, ?_⟩
  · rw [hplace, hmid, ← List.append_assoc, hbefore, hrestTokens]
  · intro added hne hwritable n m last inserted others hinserted
    rw [hdanchor] at hinserted
    rw [← hbefore]
    rcases hlist.of_optional fits_ranking with hlist | ⟨-, rfl, rfl⟩
    · have hsome : list.isEmpty = false := by
        obtain ⟨vs, rfl, -⟩ := hlist.of_node
        rw [List.isEmpty_eq_false_iff, gather]
        exact List.append_ne_nil_of_right_ne_nil _ (List.cons_ne_nil _ _)
      rw [hsome] at hinserted
      exact class_with_entries hne hwritable hmodifiersEnds hfront (hlist.ends fits_ranking) hrest
        hplace hmid hclear hrestTokens _ n m last inserted others hinserted
    · exact class_with_list hne hwritable hmodifiersEnds hfront hrest hplace hmid hclear hrestTokens _
        n m last inserted others hinserted

end Grammar

end Conformance.Java
