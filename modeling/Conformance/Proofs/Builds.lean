import Conformance.Proofs.Tokens

/-!
# What a rule may build

Which alternative of a rule is taken depends on the tokens that follow. For the shape of the
trees this does not matter: `Builds` says which trees a rule may build at all, and it has one case
for each way to make a rule out of others. So what all trees of a kind have in common is proved by
looking at the rules, without tokens, places or a bound on the depth.

If the rules for the nodes of a grammar all pass a test, then every node of a tree is built by a
rule that passes it (`forall_of_builds`). A grammar is data, so such a test is decided by running
it on the rules (`Rule.check`).
-/

namespace Conformance.Java

variable {S : Type}

/-- The trees that a rule may build. -/
inductive Builds (rules : S → Rule S) : Rule S → List Tree → Prop
  | one {test : TokenTest} (comments : List Token) {t : Token} (ht : t.isComment = false) :
      Builds rules (.one test) (comments.map .leaf ++ [.leaf t])
  | seqNil : Builds rules (.seq []) []
  | seqCons {first : Rule S} {others : List (Rule S)} {ts us : List Tree}
      (h : Builds rules first ts) (h' : Builds rules (.seq others) us) :
      Builds rules (.seq (first :: others)) (ts ++ us)
  | choice {list : List (Rule S)} {rule : Rule S} {ts : List Tree} (hmem : rule ∈ list)
      (h : Builds rules rule ts) : Builds rules (.choice list) ts
  | manyNil {inner : Rule S} : Builds rules (.many inner) []
  | manyCons {inner : Rule S} {ts us : List Tree} (h : Builds rules inner ts)
      (h' : Builds rules (.many inner) us) : Builds rules (.many inner) (ts ++ us)
  | absent {inner : Rule S} : Builds rules (.absent inner) []
  | joined : Builds rules .joined []
  | assignable : Builds rules .assignable []
  | call {symbol : S} {ts : List Tree} (h : Builds rules (rules symbol) ts) :
      Builds rules (.call symbol) ts
  | node (kind : NodeKind) {inner : Rule S} {ts : List Tree} (h : Builds rules inner ts) :
      Builds rules (.node kind inner) (gather kind ts)
  | unextended {kind : NodeKind} {inner extension : Rule S} {ts : List Tree}
      (h : Builds rules inner ts) : Builds rules (.extended kind inner extension) ts
  | extended (kind : NodeKind) {inner extension : Rule S} {ts us : List Tree}
      (h : Builds rules inner ts) (h' : Builds rules extension us) :
      Builds rules (.extended kind inner extension) (gather kind (ts ++ us))

variable {rules : S → Rule S}

theorem Builds.choice_tail {first : Rule S} {others : List (Rule S)} {ts : List Tree}
    (h : Builds rules (.choice others) ts) : Builds rules (.choice (first :: others)) ts := by
  cases h with
  | choice hmem h => exact .choice (List.mem_cons_of_mem _ hmem) h

/-- **What a rule takes is something that it may build.** -/
theorem Spans.builds {rule : Rule S} {place next : Place} {ts : List Tree}
    (h : Spans rules rule place ts next) : Builds rules rule ts := by
  induction h with
  | one h =>
    obtain ⟨comments, t, ht, rfl, -⟩ := Place.take?_eq_some h
    exact .one comments ht
  | seqNil => exact .seqNil
  | seqCons _ _ ih ih' => exact .seqCons ih ih'
  | choiceHead _ ih => exact .choice (List.mem_cons_self ..) ih
  | choiceTail _ ih => exact ih.choice_tail
  | manyNil => exact .manyNil
  | manyCons _ _ ih ih' => exact .manyCons ih ih'
  | absent => exact .absent
  | joined => exact .joined
  | assignable => exact .assignable
  | call _ ih => exact .call ih
  | node kind _ ih => exact .node kind ih
  | unextended _ ih => exact .unextended ih
  | extended kind _ _ ih ih' => exact .extended kind ih ih'

/-- What the last rule of a sequence builds comes last. -/
theorem Builds.of_seq_concat {list : List (Rule S)} {last : Rule S} {ts : List Tree}
    (h : Builds rules (.seq (list ++ [last])) ts) :
    ∃ us vs, ts = us ++ vs ∧ Builds rules (.seq list) us ∧ Builds rules last vs := by
  induction list generalizing ts with
  | nil =>
    cases h with
    | seqCons hlast hnil =>
      cases hnil
      exact ⟨[], _, by rw [List.append_nil, List.nil_append], .seqNil, hlast⟩
  | cons first list ih =>
    cases h with
    | seqCons hfirst hothers =>
      obtain ⟨us, vs, rfl, hlist, hlast⟩ := ih hothers
      exact ⟨_, vs, (List.append_assoc ..).symm, .seqCons hfirst hlist, hlast⟩

/-! ## All nodes of a tree -/

/-- Every node of a tree has a property of its kind and what is right below it. -/
inductive Tree.Forall (P : NodeKind → List Tree → Prop) : Tree → Prop
  | leaf (token : Token) : Tree.Forall P (.leaf token)
  | node {kind : NodeKind} {children : List Tree} (h : P kind children)
      (hchildren : ∀ t ∈ children, Tree.Forall P t) : Tree.Forall P (.node kind children)

variable {P : NodeKind → List Tree → Prop}

theorem Tree.forall_gather {kind : NodeKind} {ts : List Tree}
    (h : P kind (ts.dropWhile Tree.isComment)) (hts : ∀ t ∈ ts, t.Forall P) :
    ∀ t ∈ gather kind ts, t.Forall P := by
  intro t ht
  rcases List.mem_append.mp ht with ht | ht
  · exact hts t ((List.takeWhile_prefix _).subset ht)
  · rw [List.mem_singleton.mp ht]
    exact .node h fun u hu => hts u ((List.dropWhile_suffix _).subset hu)

mutual

/-- Whether the rules for nodes within a rule pass a test. -/
def Rule.check (test : NodeKind → Rule S → Bool) : Rule S → Bool
  | .one _ | .joined | .assignable | .call _ => true
  | .seq list | .choice list => Rule.checkAll test list
  | .many inner | .absent inner => Rule.check test inner
  | .node kind inner => test kind inner && Rule.check test inner
  | .extended kind inner extension =>
    test kind (.seq [inner, extension]) && Rule.check test inner && Rule.check test extension

def Rule.checkAll (test : NodeKind → Rule S → Bool) : List (Rule S) → Bool
  | [] => true
  | rule :: others => Rule.check test rule && Rule.checkAll test others

end

theorem Rule.check_of_mem {test : NodeKind → Rule S → Bool} {list : List (Rule S)}
    (h : Rule.checkAll test list = true) {rule : Rule S} (hmem : rule ∈ list) :
    rule.check test = true := by
  induction list with
  | nil => cases hmem
  | cons first others ih =>
    rw [Rule.checkAll, Bool.and_eq_true] at h
    rcases List.mem_cons.mp hmem with rfl | hmem
    · exact h.1
    · exact ih h.2 hmem

/-- **What the rules for nodes guarantee holds of all nodes.** -/
theorem forall_of_builds {test : NodeKind → Rule S → Bool}
    (hrules : ∀ symbol, (rules symbol).check test = true)
    (htest : ∀ kind inner ts, test kind inner = true → Builds rules inner ts →
      P kind (ts.dropWhile Tree.isComment))
    {rule : Rule S} {ts : List Tree} (hrule : rule.check test = true) (h : Builds rules rule ts) :
    ∀ t ∈ ts, t.Forall P := by
  induction h with
  | one comments ht =>
    intro t hmem
    rw [← List.map_singleton, ← List.map_append] at hmem
    obtain ⟨token, -, rfl⟩ := List.mem_map.mp hmem
    exact .leaf token
  | seqNil | manyNil | absent | joined | assignable => simp
  | seqCons _ _ ih ih' =>
    rw [Rule.check, Rule.checkAll, Bool.and_eq_true] at hrule
    exact List.forall_mem_append.mpr ⟨ih hrule.1, ih' (by rw [Rule.check]; exact hrule.2)⟩
  | choice hmem _ ih =>
    rw [Rule.check] at hrule
    exact ih (Rule.check_of_mem hrule hmem)
  | manyCons _ _ ih ih' =>
    refine List.forall_mem_append.mpr ⟨ih ?_, ih' hrule⟩
    rwa [Rule.check] at hrule
  | call _ ih => exact ih (hrules _)
  | node kind hinner ih =>
    rw [Rule.check, Bool.and_eq_true] at hrule
    exact Tree.forall_gather (htest _ _ _ hrule.1 hinner) (ih hrule.2)
  | unextended _ ih =>
    rw [Rule.check, Bool.and_eq_true, Bool.and_eq_true] at hrule
    exact ih hrule.1.2
  | extended kind hinner hextension ih ih' =>
    rw [Rule.check, Bool.and_eq_true, Bool.and_eq_true] at hrule
    obtain ⟨⟨hkind, hinnerCheck⟩, hextensionCheck⟩ := hrule
    have hseq := Builds.seqCons hinner (.seqCons hextension .seqNil)
    rw [List.append_nil] at hseq
    refine Tree.forall_gather (htest _ _ _ hkind hseq) ?_
    exact List.forall_mem_append.mpr ⟨ih hinnerCheck, ih' hextensionCheck⟩

end Conformance.Java
