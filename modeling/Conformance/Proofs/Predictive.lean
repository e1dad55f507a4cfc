import Conformance.Proofs.Brackets

/-!
# Rules that the next token decides

In the header of a declaration the next token tells which alternative is meant: each part begins with
a word or a symbol of its own, and none of these can go on with the part in front of it. A rule that
is built like this (`Rule.predictive`) does not look further than one token behind what it takes. So
it takes the same tokens again in front of something else, if what comes next may follow the rule
there as well (`Ends.replayed`).

What may come first and what may follow is said by an `Outlook`, and that it is right is checked by
running over the rules. Brackets are passed over as a whole, with what stands in them.
-/

namespace Conformance.Java

/-! ## Tests -/

namespace TokenTest

/-- The kind of the tokens that pass a test. -/
def kindOf : TokenTest → TokenKind
  | .symbol _ => .symbol
  | .name _ | .word _ => .word
  | .kind k => k

/-- Whether no token passes both of two tests, as far as can be seen from the tests. -/
def apart : TokenTest → TokenTest → Bool
  | .symbol s, .symbol t | .word s, .word t => s ≠ t
  | .word s, .name except | .name except, .word s => except.contains s
  | a, b => a.kindOf ≠ b.kindOf

/-- Whether all tokens that pass the second test pass the first one. -/
def covers : TokenTest → TokenTest → Bool
  | .kind k, b => b.kindOf = k
  | .symbol s, .symbol t | .word s, .word t => s = t
  | .name except, .name except' => except = except'
  | .name except, .word s => !except.contains s
  | _, _ => false

variable {a b : TokenTest} {t : Token}

theorem kind_of_accepts (h : a.accepts t = true) : t.kind = a.kindOf := by
  cases a with
  | name except =>
    rw [accepts, Bool.and_eq_true, decide_eq_true_iff] at h
    exact h.1
  | word text =>
    rw [accepts, Token.isWord, Bool.and_eq_true, decide_eq_true_iff] at h
    exact h.1
  | symbol text =>
    rw [accepts, Token.isSymbol, Bool.and_eq_true, decide_eq_true_iff] at h
    exact h.1
  | kind k => exact of_decide_eq_true h

theorem not_accepts_of_apart (h : apart a b = true) (ha : a.accepts t = true) :
    b.accepts t = false := by
  rw [← Bool.not_eq_true]
  intro hb
  have hkind := (kind_of_accepts ha).symm.trans (kind_of_accepts hb)
  unfold apart at h
  split at h
  all_goals simp_all [accepts, Token.isSymbol, Token.isWord]

theorem accepts_of_covers (h : covers a b = true) (hb : b.accepts t = true) :
    a.accepts t = true := by
  have hkind := kind_of_accepts hb
  unfold covers at h
  split at h
  all_goals simp_all [accepts, Token.isWord]

end TokenTest

/-- Whether a token passes one of some tests. -/
def passes (tests : List TokenTest) (t : Token) : Bool := tests.any (·.accepts t)

/-- Whether no token passes a test of each of two lists. -/
def allApart (tests tests' : List TokenTest) : Bool :=
  tests.all fun a => tests'.all fun b => a.apart b

/-- Whether all tokens that pass one of the second tests pass one of the first. -/
def coverAll (tests tests' : List TokenTest) : Bool :=
  tests'.all fun b => tests.any fun a => a.covers b

section

variable {tests tests' : List TokenTest} {t : Token}

theorem passes_append : passes (tests ++ tests') t = (passes tests t || passes tests' t) :=
  List.any_append

theorem not_passes_of_apart (h : allApart tests tests' = true) (ht : passes tests' t = true) :
    passes tests t = false := by
  rw [passes, List.any_eq_true] at ht
  obtain ⟨b, hb, haccepts⟩ := ht
  rw [← Bool.not_eq_true, passes, List.any_eq_true]
  rintro ⟨a, ha, haccepts'⟩
  have hab := List.all_eq_true.mp (List.all_eq_true.mp h a ha) b hb
  rw [TokenTest.not_accepts_of_apart hab haccepts'] at haccepts
  cases haccepts

/-- A test that a token passes, as a list. -/
theorem passes_singleton {test : TokenTest} (h : test.accepts t = true) : passes [test] t = true := by
  rw [passes, List.any_cons, h, Bool.true_or]

theorem passes_of_coverAll (h : coverAll tests tests' = true) (ht : passes tests' t = true) :
    passes tests t = true := by
  rw [passes, List.any_eq_true] at ht ⊢
  obtain ⟨b, hb, haccepts⟩ := ht
  obtain ⟨a, ha, hcovers⟩ := List.any_eq_true.mp (List.all_eq_true.mp h b hb)
  exact ⟨a, ha, TokenTest.accepts_of_covers hcovers haccepts⟩

end

/-! ## What may come first -/

variable {S : Type}

/-- What is said of the rules that have names. -/
structure Outlook (S : Type) where
  /-- The tokens that the rule may begin with. -/
  firsts : S → List TokenTest
  /-- The tokens that may follow the rule. -/
  exits : S → List TokenTest
  /-- Whether the rule is decided by the next token. -/
  known : S → Bool
  /-- The symbols that do not occur. -/
  banned : List String

/-- Whether a token is none that does not occur. -/
def Outlook.clear (o : Outlook S) (t : Token) : Prop := ∀ s ∈ o.banned, t.isSymbol s = false

/-- Whether no token that occurs passes a test. -/
def Outlook.bans (o : Outlook S) : TokenTest → Bool
  | .symbol text => o.banned.contains text
  | _ => false

theorem Outlook.not_clear {o : Outlook S} {test : TokenTest} {t : Token} (h : o.bans test = true)
    (ht : test.accepts t = true) : ¬o.clear t := by
  unfold bans at h
  split at h
  · next text =>
    intro hclear
    have hno := hclear text (List.contains_iff_mem.mp h)
    rw [TokenTest.accepts, hno] at ht
    cases ht
  · cases h

namespace Rule

variable (k : Ranking S) (o : Outlook S)

mutual

/-- The tokens that a rule may begin with. -/
@[simp]
def firsts : Rule S → List TokenTest
  | .one test => if o.bans test then [] else [test]
  | .seq list => firstsOfSeq list
  | .choice list => firstsOfChoice list
  | .many inner | .node _ inner => firsts inner
  | .absent _ | .joined | .assignable => []
  | .call symbol => o.firsts symbol
  | .extended _ inner extension =>
    firsts inner ++ if consumes k inner then [] else firsts extension

@[simp]
def firstsOfSeq : List (Rule S) → List TokenTest
  | [] => []
  | rule :: others => firsts rule ++ if consumes k rule then [] else firstsOfSeq others

@[simp]
def firstsOfChoice : List (Rule S) → List TokenTest
  | [] => []
  | rule :: others => firsts rule ++ firstsOfChoice others

end

/-- What may come next in front of a rule that something may follow. -/
def leading (exits : List TokenTest) (rule : Rule S) : List TokenTest :=
  firsts k o rule ++ if consumes k rule then [] else exits

end Rule

section

variable {k : Ranking S} {o : Outlook S} {rules : S → Rule S} {rule : Rule S} {place next : Place}
  {result : Option Place}

open Rule

/-- A rule that takes something begins with one of its tokens. -/
theorem Ends.first (hfits : k.Fits rules)
    (hfirsts : ∀ s, coverAll (o.firsts s) ((rules s).firsts k o) = true)
    (h : Ends rules rule place result) (hresult : result = some next) :
    next = place ∨ ∃ t, nextToken? place.rest = some t
      ∧ (o.clear t → passes (rule.firsts k o) t = true) := by
  induction h generalizing next with
  | one test place =>
    have htest : Ends rules (.one test) place (some next) := hresult ▸ .one test place
    obtain ⟨t, ht, haccepts, -⟩ := htest.next_token
    refine .inr ⟨t, ht, fun hclear => ?_⟩
    rw [firsts]
    split
    · next hbans => exact absurd hclear (o.not_clear hbans haccepts)
    · rw [passes, List.any_cons, haccepts, Bool.true_or]
  | seqNil | manyNil | absent =>
    cases hresult
    exact .inl rfl
  | seqFails | choiceNil | present | extendedFails => cases hresult
  | seqCons h h' ih ih' =>
    rcases ih rfl with rfl | ⟨t, ht, hpass⟩
    · -- the first rule takes nothing
      refine (ih' hresult).imp_right fun ⟨t, ht, hpass⟩ => ⟨t, ht, fun hclear => ?_⟩
      rw [firsts, firstsOfSeq, if_neg fun hconsumes => h.ne_of_consumes hfits hconsumes rfl,
        passes_append]
      exact (Bool.or_eq_true ..).mpr (.inr (hpass hclear))
    · refine .inr ⟨t, ht, fun hclear => ?_⟩
      rw [firsts, firstsOfSeq, passes_append, hpass hclear, Bool.true_or]
  | choiceHead _ ih =>
    refine (ih hresult).imp_right fun ⟨t, ht, hpass⟩ => ⟨t, ht, fun hclear => ?_⟩
    rw [firsts, firstsOfChoice, passes_append, hpass hclear, Bool.true_or]
  | choiceTail _ _ _ ih =>
    refine (ih hresult).imp_right fun ⟨t, ht, hpass⟩ => ⟨t, ht, fun hclear => ?_⟩
    rw [firsts, firstsOfChoice, passes_append]
    exact (Bool.or_eq_true ..).mpr (.inr (hpass hclear))
  | manyCons _ _ ih ih' =>
    rcases ih rfl with rfl | ⟨t, ht, hpass⟩
    · exact ih' hresult
    · exact .inr ⟨t, ht, hpass⟩
  | joined place | assignable place =>
    split at hresult
    · cases hresult
      exact .inl rfl
    · cases hresult
  | call _ ih =>
    refine (ih hresult).imp_right fun ⟨t, ht, hpass⟩ => ⟨t, ht, fun hclear => ?_⟩
    exact passes_of_coverAll (hfirsts _) (hpass hclear)
  | node kind _ ih => exact ih hresult
  | unextended _ _ ih _ =>
    refine (ih hresult).imp_right fun ⟨t, ht, hpass⟩ => ⟨t, ht, fun hclear => ?_⟩
    rw [firsts, passes_append, hpass hclear, Bool.true_or]
  | extended h _ ih ih' =>
    rcases ih rfl with rfl | ⟨t, ht, hpass⟩
    · refine (ih' hresult).imp_right fun ⟨t, ht, hpass⟩ => ⟨t, ht, fun hclear => ?_⟩
      rw [firsts, if_neg fun hconsumes => h.ne_of_consumes hfits hconsumes rfl, passes_append]
      exact (Bool.or_eq_true ..).mpr (.inr (hpass hclear))
    · refine .inr ⟨t, ht, fun hclear => ?_⟩
      rw [firsts, passes_append, hpass hclear, Bool.true_or]

/-- What comes next is a token that occurs and passes a test, if there is any. -/
def Leads (o : Outlook S) (tests : List TokenTest) (tokens : List Token) : Prop :=
  ∀ t, nextToken? tokens = some t → o.clear t ∧ passes tests t = true

/-- A rule that takes something does not match where nothing it may begin with comes next. -/
theorem Ends.refused_of_leads (hfits : k.Fits rules)
    (hfirsts : ∀ s, coverAll (o.firsts s) ((rules s).firsts k o) = true)
    (hranked : rule.isRanked k = true) (hconsumes : rule.consumes k = true)
    {tests : List TokenTest} (hapart : allApart (rule.firsts k o) tests = true)
    (h : Leads o tests place.rest) : Ends rules rule place none := by
  obtain ⟨result, hends⟩ := exists_ends hfits hranked place
  cases result with
  | none => exact hends
  | some next =>
    rcases hends.first hfits hfirsts rfl with rfl | ⟨t, ht, hpass⟩
    · exact absurd rfl (hends.ne_of_consumes hfits hconsumes)
    · obtain ⟨hclear, htests⟩ := h t ht
      have hno := not_passes_of_apart hapart htests
      rw [hpass hclear] at hno
      cases hno

theorem nextToken?_moved (n : Nat) (tokens : List Token) :
    nextToken? (tokens.map (Token.moved n)) = (nextToken? tokens).map (Token.moved n) := by
  rw [nextToken?, nextToken?, List.dropWhile_map, isComment_comp_moved, List.head?_map]

theorem passes_moved (tests : List TokenTest) (n : Nat) (t : Token) :
    passes tests (t.moved n) = passes tests t := by
  rw [passes, passes]
  exact congrArg tests.any (funext fun test => accepts_moved n t test)

/-- What comes next where a rule has taken some tokens, also where these stand in front of something
else. -/
theorem Ends.leads (hfits : k.Fits rules)
    (hfirsts : ∀ s, coverAll (o.firsts s) ((rules s).firsts k o) = true)
    (h : Ends rules rule place (some next)) {taken : List Token}
    (hrest : place.rest = taken ++ next.rest) (hclear : ∀ t ∈ taken, o.clear t)
    {exits : List TokenTest} (n : Nat) {others : List Token} (hexits : Leads o exits others) :
    Leads o (rule.leading k o exits) (taken.map (Token.moved n) ++ others) := by
  obtain ⟨found, hfound, hsome⟩ := h.taken rfl
  obtain rfl : found = taken := List.append_cancel_right (hfound.symm.trans hrest)
  rcases hsome with rfl | hsome
  · -- nothing was taken
    obtain rfl : found = [] := List.self_eq_append_left.mp hrest
    intro t ht
    obtain ⟨hoccurs, hpass⟩ := hexits t ht
    refine ⟨hoccurs, ?_⟩
    rw [leading, if_neg fun hconsumes => h.ne_of_consumes hfits hconsumes rfl, passes_append]
    exact (Bool.or_eq_true ..).mpr (.inr hpass)
  · have hsome' : ∃ t ∈ found.map (Token.moved n), t.isComment = false := by
      obtain ⟨t, ht, hcomment⟩ := hsome
      exact ⟨_, List.mem_map_of_mem ht, hcomment⟩
    intro t ht
    rw [nextToken?_append_of_mem hsome', nextToken?_moved, Option.map_eq_some_iff] at ht
    obtain ⟨t, ht, rfl⟩ := ht
    have hmem : t ∈ found := (List.dropWhile_suffix _).subset (List.mem_of_head? ht)
    refine ⟨hclear t hmem, ?_⟩
    rcases h.first hfits hfirsts rfl with rfl | ⟨t', ht', hpass⟩
    · obtain rfl : found = [] := List.self_eq_append_left.mp hrest
      cases hmem
    · rw [hrest, nextToken?_append_of_mem hsome, ht, Option.some.injEq] at ht'
      subst ht'
      rw [passes_moved, leading, passes_append, hpass (hclear t hmem), Bool.true_or]

/-! ## The next token decides -/

namespace Rule

variable (k : Ranking S) (o : Outlook S)

/-- Whether a rule takes something that cannot come next where it is passed over. -/
def yields (exits : List TokenTest) (rule : Rule S) : Bool :=
  consumes k rule && isRanked k rule && allApart (firsts k o rule) exits

mutual

/-- Whether the next token decides what a rule does, if a token that passes one of some tests follows
the rule. What begins with tokens that do not occur is never taken. -/
@[simp]
def predictive (exits : List TokenTest) : Rule S → Bool
  | .one _ => true
  | .seq list => isGroup list || predictiveSeq exits list
  | .choice list => predictiveChoice exits list
  | .many inner =>
    yields k o exits inner
      && ((firsts k o inner).isEmpty || predictive (firsts k o inner ++ exits) inner)
  | .absent _ | .joined | .assignable => false
  | .call symbol => o.known symbol && coverAll (o.exits symbol) exits
  | .node _ inner => predictive exits inner
  | .extended _ inner extension =>
    predictive (firsts k o extension ++ exits) inner && yields k o exits extension
      && ((firsts k o extension).isEmpty || predictive exits extension)

@[simp]
def predictiveSeq (exits : List TokenTest) : List (Rule S) → Bool
  | [] => true
  | rule :: others => predictive (leading k o exits (.seq others)) rule && predictiveSeq exits others

@[simp]
def predictiveChoice (exits : List TokenTest) : List (Rule S) → Bool
  | [] => true
  | [rule] => predictive exits rule
  | rule :: others =>
    yields k o (leading k o exits (.choice others)) rule
      && ((firsts k o rule).isEmpty || predictive exits rule) && predictiveChoice exits others

end

end Rule

/-- What an outlook says is true of the rules. -/
structure Outlook.Fits (k : Ranking S) (o : Outlook S) (rules : S → Rule S) : Prop where
  ranking : k.Fits rules
  brackets : ∀ s, (rules s).after? .free 0 = some 0
  firsts : ∀ s, coverAll (o.firsts s) ((rules s).firsts k o) = true
  known : ∀ s, o.known s = true → (rules s).predictive k o (o.exits s) = true

/-- What is taken begins with something. -/
theorem Ends.of_isEmpty_or (ho : o.Fits k rules) (h : Ends rules rule place (some next))
    (hconsumes : rule.consumes k = true) {taken : List Token}
    (hrest : place.rest = taken ++ next.rest) (hclear : ∀ t ∈ taken, o.clear t) {b : Bool}
    (hrule : ((rule.firsts k o).isEmpty || b) = true) : b = true := by
  obtain ⟨t, ht, hpass⟩ := (h.first ho.ranking ho.firsts rfl).resolve_left
    (h.ne_of_consumes ho.ranking hconsumes)
  obtain ⟨found, hfound, hsome⟩ := h.taken rfl
  obtain rfl : found = taken := List.append_cancel_right (hfound.symm.trans hrest)
  rw [hrest, nextToken?_append_of_mem (hsome.resolve_left (h.ne_of_consumes ho.ranking hconsumes))]
    at ht
  have hmem : t ∈ found := (List.dropWhile_suffix _).subset (List.mem_of_head? ht)
  rcases (Bool.or_eq_true ..).mp hrule with hempty | hb
  · have hno := hpass (hclear t hmem)
    rw [List.isEmpty_iff.mp hempty] at hno
    cases hno
  · exact hb

theorem yields_iff {exits : List TokenTest} : rule.yields k o exits = true
    ↔ rule.consumes k = true ∧ rule.isRanked k = true ∧ allApart (rule.firsts k o) exits = true := by
  rw [yields, Bool.and_eq_true, Bool.and_eq_true, and_assoc]

/-- What is passed over is passed over where something comes next that may follow. -/
theorem Ends.refused_of_yields (ho : o.Fits k rules) {exits : List TokenTest}
    (hrule : rule.yields k o exits = true) (h : Leads o exits place.rest) :
    Ends rules rule place none := by
  obtain ⟨hconsumes, hranked, hapart⟩ := yields_iff.mp hrule
  exact .refused_of_leads ho.ranking ho.firsts hranked hconsumes hapart h

theorem Leads.mono {tests tests' : List TokenTest} {tokens : List Token} (h : Leads o tests tokens)
    (hsub : ∀ t, passes tests t = true → passes tests' t = true) : Leads o tests' tokens :=
  fun t ht => ⟨(h t ht).1, hsub t (h t ht).2⟩

/-- A rule takes the same tokens again in front of what may follow it. -/
def Replays (o : Outlook S) (rules : S → Rule S) (exits : List TokenTest) (rule : Rule S)
    (place next : Place) : Prop :=
  ∀ taken, place.rest = taken ++ next.rest → (∀ t ∈ taken, o.clear t) → ∀ n last others,
    Leads o exits others → ∃ last',
      Ends rules rule ⟨last, taken.map (Token.moved n) ++ others⟩ (some ⟨last', others⟩)

/-- Two rules one after the other, of which the first is followed by what the second begins with. -/
theorem Replays.andThen (ho : o.Fits k rules) {first second : Rule S} {mid : Place}
    {exits exits' : List TokenTest} (hends : Ends rules first place (some mid))
    (hends' : Ends rules second mid (some next)) (hexits : Leads o exits next.rest)
    (hfirst : Leads o exits' mid.rest → Replays o rules exits' first place mid)
    (hsecond : Replays o rules exits second mid next)
    (hsub : ∀ t, passes (second.leading k o exits) t = true → passes exits' t = true)
    {taken : List Token} (hrest : place.rest = taken ++ next.rest)
    (hclear : ∀ t ∈ taken, o.clear t) (n : Nat) (last : Option Token) {others : List Token}
    (hothers : Leads o exits others) :
    ∃ mid' last', Ends rules first ⟨last, taken.map (Token.moved n) ++ others⟩ (some mid')
      ∧ Ends rules second mid' (some ⟨last', others⟩) := by
  obtain ⟨before, hplace, -⟩ := hends.taken rfl
  obtain ⟨after, hmid, -⟩ := hends'.taken rfl
  obtain rfl : taken = before ++ after := by
    refine List.append_cancel_right (hrest.symm.trans ?_)
    rw [hplace, hmid, List.append_assoc]
  rw [List.forall_mem_append] at hclear
  have hleads := fun (n : Nat) (others : List Token) (h : Leads o exits others) =>
    (hends'.leads ho.ranking ho.firsts hmid hclear.2 n h).mono hsub
  have hhere : Leads o exits' mid.rest := by
    have h := hleads 0 next.rest hexits
    rwa [map_moved_zero, ← hmid] at h
  obtain ⟨between, hagain⟩ := hfirst hhere before hplace hclear.1 n last _ (hleads n others hothers)
  obtain ⟨last', hagain'⟩ := hsecond after hmid hclear.2 n between others hothers
  rw [List.map_append, List.append_assoc]
  exact ⟨_, last', hagain, hagain'⟩

/-- **A rule that the next token decides takes the same tokens again**, in front of anything that may
follow it. -/
theorem Ends.replayed (ho : o.Fits k rules) {exits : List TokenTest}
    (hrule : rule.predictive k o exits = true) (h : Ends rules rule place result)
    (hresult : result = some next) (hexits : Leads o exits next.rest) :
    Replays o rules exits rule place next := by
  induction h generalizing next exits with
  | one test place =>
    intro taken hrest _ n last others _
    have htest : Ends rules (.one test) place (some next) := hresult ▸ .one test place
    obtain ⟨comments, t, hplace, hcomments, ht, haccepts, -⟩ := htest.exists_token
    obtain rfl : taken = comments ++ [t] := by
      refine List.append_cancel_right (hrest.symm.trans ?_)
      rw [hplace, List.append_assoc, List.singleton_append]
    refine ⟨some (t.moved n), ?_⟩
    rw [List.map_append, List.append_assoc]
    exact .token last (List.forall_mem_map.mpr hcomments) ht (by rw [accepts_moved]; exact haccepts)
  | seqNil place =>
    cases hresult
    intro taken hrest _ n last others _
    obtain rfl : taken = [] := List.self_eq_append_left.mp hrest
    exact ⟨last, .seqNil _⟩
  | seqFails | choiceNil | present | extendedFails => cases hresult
  | seqCons h h' ih ih' =>
    subst hresult
    rw [predictive, Bool.or_eq_true] at hrule
    intro taken hrest hclear n last others hothers
    rcases hrule with hgroup | hrule
    · obtain ⟨found, hfound, hagain⟩ := (h.seqCons h').group_repeated ho.brackets hgroup
      obtain rfl : found = taken := List.append_cancel_right (hfound.symm.trans hrest)
      exact ⟨_, hagain n last others⟩
    · rw [predictiveSeq, Bool.and_eq_true] at hrule
      obtain ⟨mid', last', hagain, hagain'⟩ := Replays.andThen ho h h' hexits (ih hrule.1 rfl)
        (ih' (by rw [predictive, hrule.2, Bool.or_true]) rfl hexits) (fun _ ht => ht) hrest hclear n
        last hothers
      exact ⟨last', hagain.seqCons hagain'⟩
  | @choiceHead first alternatives place _ h ih =>
    cases hresult
    intro taken hrest hclear n last others hothers
    rw [predictive] at hrule
    have hfirst : first.predictive k o exits = true := by
      cases alternatives with
      | nil => rwa [predictiveChoice] at hrule
      | cons second alternatives =>
        rw [predictiveChoice, Bool.and_eq_true, Bool.and_eq_true] at hrule
        · exact h.of_isEmpty_or ho (yields_iff.mp hrule.1.1).1 hrest hclear hrule.1.2
        · simp
    obtain ⟨last', hagain⟩ := ih hfirst rfl hexits taken hrest hclear n last others hothers
    exact ⟨last', .choiceHead hagain⟩
  | @choiceTail first alternatives place _ _ h' _ ih' =>
    subst hresult
    cases alternatives with
    | nil => cases h'
    | cons second alternatives =>
      intro taken hrest hclear n last others hothers
      rw [predictive, predictiveChoice, Bool.and_eq_true, Bool.and_eq_true] at hrule
      · have hleads := h'.leads ho.ranking ho.firsts hrest hclear n hothers
        obtain ⟨last', hagain⟩ := ih' (by rw [predictive]; exact hrule.2) rfl hexits taken hrest hclear
          n last others hothers
        exact ⟨last', .choiceTail (.refused_of_yields ho hrule.1.1 hleads) hagain⟩
      · simp
  | manyNil _ =>
    cases hresult
    intro taken hrest _ n last others hothers
    obtain rfl : taken = [] := List.self_eq_append_left.mp hrest
    rw [predictive, Bool.and_eq_true] at hrule
    exact ⟨last, .manyNil (.refused_of_yields ho hrule.1 hothers)⟩
  | @manyCons inner place mid _ h h' ih ih' =>
    subst hresult
    have hparts := hrule
    rw [predictive, Bool.and_eq_true] at hparts
    intro taken hrest hclear n last others hothers
    obtain ⟨mid', last', hagain, hagain'⟩ := Replays.andThen ho h h' hexits
      (fun hleads before hplace hbefore => ih (h.of_isEmpty_or ho (yields_iff.mp hparts.1).1 hplace
        hbefore hparts.2) rfl hleads before hplace hbefore)
      (ih' hrule rfl hexits)
      (fun t ht => by rwa [leading, firsts, consumes, if_neg Bool.false_ne_true] at ht) hrest hclear
      n last hothers
    exact ⟨last', hagain.manyCons hagain'⟩
  | absent | joined | assignable => cases hrule
  | call h ih =>
    rw [predictive, Bool.and_eq_true] at hrule
    have hsub := fun t (ht : passes exits t = true) => passes_of_coverAll hrule.2 ht
    intro taken hrest hclear n last others hothers
    obtain ⟨last', hagain⟩ := ih (ho.known _ hrule.1) hresult (hexits.mono hsub) taken hrest hclear n
      last others (hothers.mono hsub)
    exact ⟨last', .call hagain⟩
  | node kind _ ih =>
    rw [predictive] at hrule
    intro taken hrest hclear n last others hothers
    obtain ⟨last', hagain⟩ := ih hrule hresult hexits taken hrest hclear n last others hothers
    exact ⟨last', .node kind hagain⟩
  | unextended _ _ ih _ =>
    rw [predictive, Bool.and_eq_true, Bool.and_eq_true] at hrule
    have hsub : ∀ {extension : Rule S} t, passes exits t = true →
        passes (extension.firsts k o ++ exits) t = true := fun t ht => by
      rw [passes_append, ht, Bool.or_true]
    intro taken hrest hclear n last others hothers
    obtain ⟨last', hagain⟩ := ih hrule.1.1 hresult (hexits.mono hsub) taken hrest hclear n
      last others (hothers.mono hsub)
    exact ⟨last', .unextended hagain (.refused_of_yields ho hrule.1.2 hothers)⟩
  | extended h h' ih ih' =>
    cases hresult
    rw [predictive, Bool.and_eq_true, Bool.and_eq_true] at hrule
    intro taken hrest hclear n last others hothers
    obtain ⟨mid', last', hagain, hagain'⟩ := Replays.andThen ho h h' hexits (ih hrule.1.1 rfl)
      (fun after hmid hafter => ih' (h'.of_isEmpty_or ho (yields_iff.mp hrule.1.2).1 hmid hafter
        hrule.2) rfl hexits after hmid hafter)
      (fun t ht => by
        rw [leading, passes_append, Bool.or_eq_true] at ht
        rw [passes_append, Bool.or_eq_true]
        refine ht.imp_right fun hexit => ?_
        split at hexit
        · cases hexit
        · exact hexit) hrest hclear n last hothers
    exact ⟨last', hagain.extended hagain'⟩

/-- A repeated rule begins with its own tokens, or what follows it comes next. -/
theorem Ends.leads_many (ho : o.Fits k rules) {inner : Rule S} {exits : List TokenTest}
    (h : Ends rules (.many inner) place (some next)) {taken : List Token}
    (hrest : place.rest = taken ++ next.rest) (hclear : ∀ t ∈ taken, o.clear t) (n : Nat)
    {others : List Token} (hothers : Leads o (inner.firsts k o ++ exits) others) :
    Leads o (inner.firsts k o ++ exits) (taken.map (Token.moved n) ++ others) := by
  refine (h.leads ho.ranking ho.firsts hrest hclear n hothers).mono fun t ht => ?_
  rw [leading, firsts, consumes, if_neg Bool.false_ne_true, passes_append, passes_append,
    Bool.or_eq_true, Bool.or_eq_true] at ht
  rw [passes_append, Bool.or_eq_true]
  exact ht.elim .inl id

/-- A repeated rule that has taken some tokens takes them again where it goes on with more. -/
theorem Ends.many_continued (ho : o.Fits k rules) {inner : Rule S} {exits : List TokenTest}
    (hinner : inner.predictive k o (inner.firsts k o ++ exits) = true)
    (h : Ends rules (.many inner) place (some next))
    (hexits : Leads o (inner.firsts k o ++ exits) next.rest) {taken : List Token}
    (hrest : place.rest = taken ++ next.rest) (hclear : ∀ t ∈ taken, o.clear t) (n : Nat)
    {others rest : List Token} (hothers : Leads o (inner.firsts k o ++ exits) others)
    (hmore : ∀ last, ∃ last', Ends rules (.many inner) ⟨last, others⟩ (some ⟨last', rest⟩))
    (last : Option Token) : ∃ last', Ends rules (.many inner)
      ⟨last, taken.map (Token.moved n) ++ others⟩ (some ⟨last', rest⟩) := by
  generalize hrule : Rule.many inner = rule at h
  generalize hresult : some next = result at h
  induction h generalizing taken last with
  | manyNil h =>
    cases hrule
    cases hresult
    obtain rfl : taken = [] := List.self_eq_append_left.mp hrest
    exact hmore last
  | @manyCons _ place mid _ h h' ih ih' =>
    cases hrule
    cases hresult
    obtain ⟨before, hplace, -⟩ := h.taken rfl
    obtain ⟨after, hmid, -⟩ := h'.taken rfl
    obtain rfl : taken = before ++ after := by
      refine List.append_cancel_right (hrest.symm.trans ?_)
      rw [hplace, hmid, List.append_assoc]
    rw [List.forall_mem_append] at hclear
    have hhere : Leads o (inner.firsts k o ++ exits) mid.rest := by
      have hleads := h'.leads_many ho hmid hclear.2 0 hexits
      rwa [map_moved_zero, ← hmid] at hleads
    obtain ⟨between, hagain⟩ := h.replayed ho hinner rfl hhere before hplace hclear.1 n last _
      (h'.leads_many ho hmid hclear.2 n hothers)
    obtain ⟨last', hagain'⟩ := ih' hmid hclear.2 between rfl rfl
    rw [List.map_append, List.append_assoc]
    exact ⟨last', hagain.manyCons hagain'⟩
  | _ => cases hrule

end

/-! ## The grammar of Java -/

namespace Grammar

/-- Every token that is no comment. -/
def anyToken : List TokenTest :=
  [.kind .word, .kind .number, .kind .string, .kind .character, .kind .symbol]

/-- What rules may begin with, if some symbols do not occur. -/
def firstTokens (banned : List String) : Symbol → List TokenTest
  | .annotationUse => at_
  | .modifiers => at_ ++ modifierWords.map .word
  | .type => at_ ++ [.kind .word]
  | .plainType | .simpleType => [.kind .word]
  | .typeParams | .typeArguments => [.symbol "<"]
  | .dimensions => at_ ++ [.symbol "["]
  | .block | .classBody => [.symbol "\x7b"]
  | .parameters | .argumentList => [.symbol "("]
  | _ => anyToken
where
  /-- The symbol of annotations. -/
  at_ : List TokenTest := if banned.contains "@" then [] else [.symbol "@"]

/-- The modifiers of a declaration: they are followed by the word of the declaration. -/
def modifierOutlook : Outlook Symbol where
  firsts := firstTokens []
  exits _ := .symbol "@" :: .word "class" :: modifierWords.map .word
  known symbol := symbol = .annotationUse
  banned := []

/-- What may follow the types in the header of a class. -/
def typeExits : List TokenTest :=
  [.symbol ",", .symbol ">", .symbol "&", .word "implements", .word "permits", .symbol "\x7b"]

/-- The header of a class behind its modifiers, where no annotations occur. -/
def headerOutlook : Outlook Symbol where
  firsts := firstTokens ["@"]
  exits
    | .type | .plainType | .dimensions => typeExits
    | .simpleType => .symbol "[" :: typeExits
    | .typeArguments => .symbol "." :: .symbol "[" :: typeExits
    | .typeParams => [.word "extends", .word "implements", .word "permits", .symbol "\x7b"]
    | _ => []
  known symbol :=
    [.type, .plainType, .simpleType, .typeArguments, .typeParams, .dimensions].contains symbol
  banned := ["@"]

theorem after?_free (symbol : Symbol) : (Grammar.rules symbol).after? .free 0 = some 0 := by
  cases symbol <;> decide

theorem fits_modifierOutlook : modifierOutlook.Fits ranking Grammar.rules where
  ranking := fits_ranking
  brackets := after?_free
  firsts symbol := by cases symbol <;> decide
  known symbol := by cases symbol <;> decide

theorem fits_headerOutlook : headerOutlook.Fits ranking Grammar.rules where
  ranking := fits_ranking
  brackets := after?_free
  firsts symbol := by cases symbol <;> decide
  known symbol := by cases symbol <;> decide

end Grammar

end Conformance.Java
