import Mathlib.Data.List.TakeWhile
import Conformance.Proofs.Reading

/-!
# What a tree is made of

A rule takes tokens off the front of a list, and the trees that it builds have these tokens at
their leaves, in order and with none left out (`Spans.rest_eq`). So a tree of a source file
has no words but those of the text, and what a declaration says in words it has from there. A
word of the text has no dot in it, and neither has the name of a type parameter
(`dotless_of_parse?`).
-/

namespace Conformance.Java

namespace Tree

theorem tokensOf_append (ts us : List Tree) : tokensOf (ts ++ us) = tokensOf ts ++ tokensOf us := by
  induction ts with
  | nil => rfl
  | cons t ts ih => rw [List.cons_append, tokensOf, tokensOf, ih, List.append_assoc]

theorem tokensOf_map_leaf (tokens : List Token) : tokensOf (tokens.map leaf) = tokens := by
  induction tokens with
  | nil => rfl
  | cons t tokens ih => rw [List.map_cons, tokensOf, ih, Tree.tokens, List.singleton_append]

theorem tokensOf_gather (kind : NodeKind) (ts : List Tree) :
    tokensOf (gather kind ts) = tokensOf ts := by
  rw [gather, tokensOf_append, tokensOf, tokensOf, Tree.tokens, List.append_nil,
    ← tokensOf_append, List.takeWhile_append_dropWhile]

/-- The tokens of one of some trees are among theirs. -/
theorem mem_tokensOf {t : Tree} {ts : List Tree} (ht : t ∈ ts) {token : Token}
    (h : token ∈ t.tokens) : token ∈ tokensOf ts := by
  obtain ⟨before, after, rfl⟩ := List.append_of_mem ht
  rw [tokensOf_append, tokensOf]
  exact List.mem_append_right _ (List.mem_append_left _ h)

theorem tokens_node (kind : NodeKind) (children : List Tree) :
    (node kind children).tokens = tokensOf children := by
  rw [Tree.tokens]

end Tree

/-! ## What a rule takes -/

open Java.Tree

theorem Place.take?_eq_some {place next : Place} {test : TokenTest} {ts : List Tree}
    (h : place.take? test = some (ts, next)) : ∃ (comments : List Token) (t : Token),
      t.isComment = false ∧ ts = comments.map .leaf ++ [.leaf t]
        ∧ place.rest = comments ++ t :: next.rest := by
  unfold Place.take? at h
  split at h
  · cases h
  · next t rest hdrop =>
    split at h
    · cases h
      refine ⟨_, t, ?_, rfl, ?_⟩
      · have := List.head?_dropWhile_not Token.isComment place.rest
        rwa [hdrop] at this
      · rw [← hdrop, List.takeWhile_append_dropWhile]
    · cases h

section

variable {S : Type} {rules : S → Rule S}

/-- A rule takes the tokens between two places and builds trees of them. What was tried there before
and did not match is left out, and so is how deep rules nest. -/
inductive Spans (rules : S → Rule S) : Rule S → Place → List Tree → Place → Prop
  | one {test : TokenTest} {place next : Place} {ts : List Tree}
      (h : place.take? test = some (ts, next)) : Spans rules (.one test) place ts next
  | seqNil {place : Place} : Spans rules (.seq []) place [] place
  | seqCons {first : Rule S} {others : List (Rule S)} {place mid next : Place} {ts us : List Tree}
      (h : Spans rules first place ts mid) (h' : Spans rules (.seq others) mid us next) :
      Spans rules (.seq (first :: others)) place (ts ++ us) next
  | choiceHead {first : Rule S} {others : List (Rule S)} {place next : Place} {ts : List Tree}
      (h : Spans rules first place ts next) : Spans rules (.choice (first :: others)) place ts next
  | choiceTail {first : Rule S} {others : List (Rule S)} {place next : Place} {ts : List Tree}
      (h : Spans rules (.choice others) place ts next) :
      Spans rules (.choice (first :: others)) place ts next
  | manyNil {inner : Rule S} {place : Place} : Spans rules (.many inner) place [] place
  | manyCons {inner : Rule S} {place mid next : Place} {ts us : List Tree}
      (h : Spans rules inner place ts mid) (h' : Spans rules (.many inner) mid us next) :
      Spans rules (.many inner) place (ts ++ us) next
  | absent {inner : Rule S} {place : Place} : Spans rules (.absent inner) place [] place
  | joined {place : Place} (h : place.isJoined = true) : Spans rules .joined place [] place
  | assignable {place : Place} (h : place.isAssignable = true) :
      Spans rules .assignable place [] place
  | call {symbol : S} {place next : Place} {ts : List Tree}
      (h : Spans rules (rules symbol) place ts next) : Spans rules (.call symbol) place ts next
  | node (kind : NodeKind) {inner : Rule S} {place next : Place} {ts : List Tree}
      (h : Spans rules inner place ts next) :
      Spans rules (.node kind inner) place (gather kind ts) next
  | unextended {kind : NodeKind} {inner extension : Rule S} {place next : Place} {ts : List Tree}
      (h : Spans rules inner place ts next) :
      Spans rules (.extended kind inner extension) place ts next
  | extended (kind : NodeKind) {inner extension : Rule S} {place mid next : Place}
      {ts us : List Tree} (h : Spans rules inner place ts mid)
      (h' : Spans rules extension mid us next) :
      Spans rules (.extended kind inner extension) place (gather kind (ts ++ us)) next

theorem spans_of_matchRule {fuel : Nat} {rule : Rule S} {place next : Place} {ts : List Tree}
    (h : matchRule rules fuel rule place = some (ts, next)) : Spans rules rule place ts next := by
  induction fuel generalizing rule place next ts with
  | zero => cases h
  | succ fuel ih =>
    cases rule with
    | one test => exact .one h
    | seq list =>
      cases list with
      | nil =>
        cases h
        exact .seqNil
      | cons first others =>
        simp only [matchRule, Option.bind_eq_bind, Option.bind_eq_some_iff, Option.pure_def,
          Option.some.injEq, Prod.mk.injEq] at h
        obtain ⟨⟨ts₁, mid⟩, hfirst, ⟨ts₂, last⟩, hothers, rfl, rfl⟩ := h
        exact .seqCons (ih hfirst) (ih hothers)
    | choice list =>
      cases list with
      | nil => cases h
      | cons first others =>
        rw [matchRule] at h
        split at h
        · next found hfirst =>
          cases h
          exact .choiceHead (ih hfirst)
        · exact .choiceTail (ih h)
    | many inner =>
      rw [matchRule] at h
      split at h
      · cases h
        exact .manyNil
      · next ts₁ mid hinner =>
        simp only [Option.bind_eq_bind, Option.bind_eq_some_iff, Option.pure_def,
          Option.some.injEq, Prod.mk.injEq] at h
        obtain ⟨⟨ts₂, last⟩, hmore, rfl, rfl⟩ := h
        exact .manyCons (ih hinner) (ih hmore)
    | absent inner =>
      rw [matchRule] at h
      split at h
      · cases h
      · cases h
        exact .absent
    | joined =>
      rw [matchRule] at h
      split at h
      · next hjoined =>
        cases h
        exact .joined hjoined
      · cases h
    | assignable =>
      rw [matchRule] at h
      split at h
      · next hassignable =>
        cases h
        exact .assignable hassignable
      · cases h
    | call symbol => exact .call (ih h)
    | node kind inner =>
      rw [matchRule, Option.map_eq_some_iff] at h
      obtain ⟨⟨ts₁, mid⟩, hinner, heq⟩ := h
      cases heq
      exact .node kind (ih hinner)
    | extended kind inner extension =>
      simp only [matchRule, Option.bind_eq_bind, Option.bind_eq_some_iff] at h
      obtain ⟨⟨ts₁, mid⟩, hinner, h⟩ := h
      dsimp only at h
      split at h
      · next ts₂ last hextension =>
        cases h
        exact .extended kind (ih hinner) (ih hextension)
      · cases h
        exact .unextended (ih hinner)

/-- **The tokens that a rule takes are those of the trees that it builds.** -/
theorem Spans.rest_eq {rule : Rule S} {place next : Place} {ts : List Tree}
    (h : Spans rules rule place ts next) : place.rest = tokensOf ts ++ next.rest := by
  induction h with
  | one h =>
    obtain ⟨comments, t, -, rfl, hrest⟩ := Place.take?_eq_some h
    rw [hrest, tokensOf_append, tokensOf_map_leaf, List.append_assoc]
    rfl
  | seqCons _ _ ih ih' | manyCons _ _ ih ih' =>
    rw [ih, ih', tokensOf_append, List.append_assoc]
  | choiceHead _ ih | choiceTail _ ih | call _ ih | unextended _ ih => exact ih
  | seqNil | manyNil | absent | joined | assignable => rfl
  | node kind _ ih => rw [ih, tokensOf_gather]
  | extended kind _ _ ih ih' =>
    rw [ih, ih', tokensOf_gather, tokensOf_append, List.append_assoc]

end

/-- The trees of a file have the tokens of its text. -/
theorem tokensOf_treesOf? {tokens : List Token} {ts : List Tree}
    (h : treesOf? tokens = some ts) : tokensOf ts = tokens := by
  unfold treesOf? at h
  dsimp only at h
  split at h
  · next taken place hmatch =>
    split at h
    · rw [Option.some.injEq] at h
      subst h
      rw [tokensOf_append, tokensOf_map_leaf]
      exact (spans_of_matchRule hmatch).rest_eq.symm
    · cases h
  · cases h

/-! ## The words of a text -/

/-- What was passed over by looking for the first character that fails a test. -/
theorem take_length_sub_dropWhile (p : Char → Bool) (text : List Char) :
    text.take (text.length - (text.dropWhile p).length) = text.takeWhile p := by
  have hlength : text.length = (text.takeWhile p).length + (text.dropWhile p).length := by
    rw [← List.length_append, List.takeWhile_append_dropWhile]
  have happend := List.takeWhile_append_dropWhile (p := p) (l := text)
  calc text.take (text.length - (text.dropWhile p).length)
      = text.take (text.takeWhile p).length := by rw [hlength, Nat.add_sub_cancel]
    _ = (text.takeWhile p ++ text.dropWhile p).take (text.takeWhile p).length := by rw [happend]
    _ = text.takeWhile p := List.take_left

theorem eq_append_of_afterText? {text rest after : List Char}
    (h : afterText? text rest = some after) : rest = text ++ after := by
  induction text generalizing rest with
  | nil =>
    rw [afterText?, Option.some.injEq] at h
    exact h
  | cons c text ih =>
    cases rest with
    | nil => cases h
    | cons d rest =>
      rw [afterText?] at h
      split at h
      · next hc =>
        rw [hc, ih h, List.cons_append]
      · cases h

theorem isNamePart_dot : isNamePart '.' = false := by decide

/-- A word goes on for as long as characters of names follow, but for one with a dash. -/
theorem dotless_of_afterToken? {text rest : List Char}
    (h : afterToken? text = some (.word, rest)) :
    '.' ∉ text.take (text.length - rest.length) := by
  have hname : '.' ∉ text.take (text.length - (text.dropWhile isNamePart).length) := by
    rw [take_length_sub_dropWhile]
    intro hdot
    have hpart := List.mem_takeWhile_imp hdot
    rw [isNamePart_dot] at hpart
    cases hpart
  unfold afterToken? at h
  split at h
  · cases h
  · obtain ⟨_, -, h⟩ := Option.map_eq_some_iff.mp h
    cases h
  · obtain ⟨_, -, h⟩ := Option.map_eq_some_iff.mp h
    cases h
  · obtain ⟨_, -, h⟩ := Option.map_eq_some_iff.mp h
    cases h
  · obtain ⟨_, -, h⟩ := Option.map_eq_some_iff.mp h
    cases h
  · split at h <;> cases h
  · split at h
    · cases h
    · split at h
      · dsimp only at h
        split at h
        · next after hafter =>
          rw [Option.some.injEq, Prod.mk.injEq] at h
          obtain ⟨-, rfl⟩ := h
          split
          · exact hname
          · rw [eq_append_of_afterText? hafter, List.length_append, Nat.add_sub_cancel,
              List.take_left]
            decide
        · rw [Option.some.injEq, Prod.mk.injEq] at h
          obtain ⟨-, rfl⟩ := h
          exact hname
      · obtain ⟨_, -, h⟩ := Option.map_eq_some_iff.mp h
        cases h

/-- There is no dot in a word. -/
theorem dotless_of_tokensFrom? {fuel start : Nat} {text : List Char} {tokens : List Token}
    (h : tokensFrom? fuel start text = some tokens) :
    ∀ t ∈ tokens, t.kind = .word → '.' ∉ t.text.toList := by
  induction fuel generalizing start text tokens with
  | zero =>
    cases text with
    | nil =>
      cases h
      simp
    | cons c text => cases h
  | succ fuel ih =>
    cases text with
    | nil =>
      cases h
      simp
    | cons c text =>
      rw [tokensFrom?] at h
      dsimp only at h
      split at h
      · exact ih h
      · simp only [Option.bind_eq_bind, Option.bind_eq_some_iff, Option.pure_def,
          Option.some.injEq] at h
        obtain ⟨⟨kind, rest⟩, htoken, others, hothers, rfl⟩ := h
        rw [List.forall_mem_cons]
        refine ⟨fun hkind => ?_, ih hothers⟩
        dsimp only at hkind ⊢
        rw [hkind] at htoken
        rw [String.toList_ofList]
        exact dotless_of_afterToken? htoken

theorem dotless_of_tokens? {text : List Char} {tokens : List Token}
    (h : tokens? text = some tokens) : ∀ t ∈ tokens, t.kind = .word → '.' ∉ t.text.toList := by
  unfold tokens? at h
  split at h
  · exact dotless_of_tokensFrom? h
  · exact dotless_of_tokensFrom? h

/-! ## The words of a declaration -/

namespace Declaration

theorem mem_children_of_inside {kind : NodeKind} {trees : List Tree} {t : Tree}
    (h : t ∈ inside kind trees) : ∃ u ∈ trees, t ∈ u.children := by
  unfold inside at h
  cases hfind : trees.find? (·.isNode kind) with
  | none => simp [hfind] at h
  | some u =>
    rw [hfind] at h
    exact ⟨u, List.mem_of_find?_eq_some hfind, h⟩

/-- The tokens below a child of a tree are tokens of the tree. -/
theorem mem_tokens_of_children {t u : Tree} (ht : t ∈ u.children) {token : Token}
    (h : token ∈ t.tokens) : token ∈ u.tokens := by
  cases u with
  | leaf _ => cases ht
  | node kind children =>
    rw [tokens_node]
    exact mem_tokensOf ht h

/-- A word right below a node is the text of a token there. -/
theorem exists_token_of_ownWords {trees : List Tree} {name : String}
    (h : name ∈ ownWords trees) :
    ∃ token ∈ tokensOf trees, token.kind = .word ∧ token.text = name := by
  obtain ⟨token, htoken, hword⟩ := List.mem_filterMap.mp h
  obtain ⟨t, ht, hleaf⟩ := List.mem_filterMap.mp htoken
  have hmem : token ∈ t.tokens := by
    cases t with
    | node kind children => cases hleaf
    | leaf token' =>
      dsimp only at hleaf
      split at hleaf
      · cases hleaf
      · rw [Option.some.injEq] at hleaf
        rw [hleaf, Tree.tokens]
        exact List.mem_singleton_self _
  split at hword
  · next hkind =>
    rw [Option.some.injEq] at hword
    exact ⟨token, mem_tokensOf ht hmem, hkind, hword⟩
  · cases hword

theorem exists_token_of_typeParamsOf {trees : List Tree} {p : WrittenTypeParam}
    (h : p ∈ typeParamsOf trees) :
    ∃ token ∈ tokensOf trees, token.kind = .word ∧ token.text = p.name := by
  obtain ⟨t, ht, hparam⟩ := List.mem_filterMap.mp h
  obtain ⟨u, hu, htu⟩ := mem_children_of_inside ht
  split at hparam
  · unfold typeParam? at hparam
    obtain ⟨name, hhead, rfl⟩ := Option.map_eq_some_iff.mp hparam
    obtain ⟨token, htoken, hfacts⟩ := exists_token_of_ownWords (List.mem_of_head? hhead)
    refine ⟨token, mem_tokensOf hu (mem_tokens_of_children htu ?_), hfacts⟩
    cases t with
    | leaf _ => cases htoken
    | node kind children => rwa [tokens_node]
  · cases hparam

mutual

/-- The type parameters of the declarations that a tree stands for are words in the tree. -/
theorem exists_token_of_ofTree : (t : Tree) → ∀ d ∈ ofTree t, ∀ p ∈ d.typeParams,
    ∃ token ∈ t.tokens, token.kind = .word ∧ token.text = p.name
  | .leaf _ => by simp [ofTree]
  | .node kind children => by
    intro d hd p hp
    rw [tokens_node]
    rw [ofTree] at hd
    split at hd
    · split at hd
      · cases hd
      · rw [List.mem_singleton] at hd
        subst hd
        exact exists_token_of_typeParamsOf hp
    · split at hd
      · exact exists_token_of_ofTrees children d hd p hp
      · cases hd

theorem exists_token_of_ofTrees : (ts : List Tree) → ∀ d ∈ ofTrees ts, ∀ p ∈ d.typeParams,
    ∃ token ∈ tokensOf ts, token.kind = .word ∧ token.text = p.name
  | [] => by simp [ofTrees]
  | t :: ts => by
    intro d hd p hp
    rw [ofTrees, List.mem_append] at hd
    rw [tokensOf]
    rcases hd with hd | hd
    · obtain ⟨token, htoken, hfacts⟩ := exists_token_of_ofTree t d hd p hp
      exact ⟨token, List.mem_append_left _ htoken, hfacts⟩
    · obtain ⟨token, htoken, hfacts⟩ := exists_token_of_ofTrees ts d hd p hp
      exact ⟨token, List.mem_append_right _ htoken, hfacts⟩

end

end Declaration

/-- **There is no dot in the name of a type parameter.** -/
theorem SourceFile.dotless_of_parse? {path text : String} {f : SourceFile}
    (h : parse? path text = some f) {d : Declaration} (hd : d ∈ f.types) :
    ∀ p ∈ d.typeParams, '.' ∉ p.name.toList := by
  simp only [parse?, Option.bind_eq_bind, Option.bind_eq_some_iff, Option.pure_def,
    Option.some.injEq] at h
  obtain ⟨tokens, htokens, trees, htrees, rfl⟩ := h
  intro p hp
  obtain ⟨token, htoken, hkind, hname⟩ :=
    Declaration.exists_token_of_ofTrees trees d hd p hp
  rw [tokensOf_treesOf? htrees] at htoken
  rw [← hname]
  exact dotless_of_tokens? htokens token htoken hkind

end Conformance.Java
