import Conformance.Proofs.ClassHeaders
import Conformance.Proofs.Gaps
import Conformance.Proofs.SavedClauses

/-!
# Files with more interfaces

Where interfaces are inserted into a text, the tokens of the text stay as they are and those of the
interfaces come in between (`Widened`). Item by item such a file is read as before: an item that
nothing is inserted into is read again as it is, and a class that gets interfaces is read with them
(`item_widened`). So the whole file is (`items_widened`).
-/

namespace Conformance.Java

open Java.Tree

/-! ## Tokens with others between them -/

/-- Tokens of a text with those of the interfaces that are inserted for some declarations, each at
the place of its declaration. The ones that are not inserted stand so many bytes further on. -/
inductive Widened : Nat → List Declaration → List Token → List Token → Prop
  | done (n : Nat) (tokens : List Token) : Widened n [] tokens (tokens.map (Token.moved n))
  | insert {n m : Nat} {d : Declaration} {ds : List Declaration} {before after inserted others : List Token}
      {t : Token} (hplace : t.stop = d.anchor.offset)
      (hinserted : inserted.map Token.lexeme = Declaration.insertedLexemes d.kind d.anchor d.added)
      (h : Widened m ds after others) :
      Widened n (d :: ds) (before ++ t :: after)
        ((before ++ [t]).map (Token.moved n) ++ (inserted ++ others))

namespace Widened

variable {n k : Nat} {d : Declaration} {ds : List Declaration} {tokens tokens' taken rest : List Token}

/-- All of them may stand further on. -/
theorem moved (h : Widened n ds tokens tokens') (k : Nat) :
    Widened (n + k) ds tokens (tokens'.map (Token.moved k)) := by
  have hmoved : ∀ (n : Nat) (tokens : List Token),
      (tokens.map (Token.moved n)).map (Token.moved k) = tokens.map (Token.moved (n + k)) := by
    intro n tokens
    rw [List.map_map]
    refine List.map_congr_left fun t _ => ?_
    simp only [Function.comp_apply, Token.moved, Nat.add_assoc]
  induction h with
  | done n tokens =>
    rw [hmoved]
    exact .done (n + k) tokens
  | @insert n m d ds before after inserted others t hplace hinserted h ih =>
    have hlexemes : (inserted.map (Token.moved k)).map Token.lexeme
        = Declaration.insertedLexemes d.kind d.anchor d.added := by
      rw [List.map_map]
      exact hinserted
    have hothers : (inserted ++ others).map (Token.moved k)
        = inserted.map (Token.moved k) ++ others.map (Token.moved k) := List.map_append
    rw [List.map_append, hmoved, hothers]
    exact .insert hplace hlexemes ih

/-- Tokens that no place is at the end of stay as they are. -/
theorem split (h : Widened n ds (taken ++ rest) tokens')
    (hplaces : ∀ d ∈ ds, ∀ t ∈ taken, t.stop ≠ d.anchor.offset) :
    ∃ others, tokens' = taken.map (Token.moved n) ++ others ∧ Widened n ds rest others := by
  generalize htokens : taken ++ rest = tokens at h
  cases h with
  | done n tokens =>
    subst htokens
    exact ⟨rest.map (Token.moved n), List.map_append, .done n rest⟩
  | @insert n m d ds before after inserted others t hplace hinserted h =>
    have hhead := hplaces d (List.mem_cons_self ..)
    obtain ⟨front, rfl, hrest⟩ : ∃ front, before = taken ++ front ∧ rest = front ++ t :: after := by
      rcases List.append_eq_append_iff.mp htokens with ⟨front, rfl, rfl⟩ | ⟨front, rfl, hfront⟩
      · exact ⟨front, rfl, rfl⟩
      · cases front with
        | nil => exact ⟨[], by simp, hfront.symm⟩
        | cons u front =>
          obtain ⟨rfl, -⟩ := List.cons.inj hfront
          exact absurd hplace (hhead t (by simp))
    subst hrest
    refine ⟨(front ++ [t]).map (Token.moved n) ++ (inserted ++ others), ?_, .insert hplace hinserted h⟩
    simp only [List.append_assoc, List.map_append]

/-- At the first place the tokens fall into those in front of it and those behind it. -/
theorem insertion {front : List Token} {t : Token} (h : Widened n (d :: ds) (front ++ t :: rest) tokens')
    (hordered : (front ++ t :: rest).Pairwise fun s t => s.stop < t.stop)
    (hplace : t.stop = d.anchor.offset) :
    ∃ m inserted others,
      inserted.map Token.lexeme = Declaration.insertedLexemes d.kind d.anchor d.added
      ∧ tokens' = (front ++ [t]).map (Token.moved n) ++ (inserted ++ others)
      ∧ Widened m ds rest others := by
  generalize htokens : front ++ t :: rest = tokens at h
  cases h with
  | @insert n m d ds before after inserted others u hplace' hinserted h =>
    have hsame : u.stop = t.stop := hplace'.trans hplace.symm
    -- no two tokens end at the same place
    obtain ⟨rfl, rfl, rfl⟩ : front = before ∧ t = u ∧ rest = after := by
      rcases List.append_eq_append_iff.mp htokens with ⟨more, rfl, hmore⟩ | ⟨more, rfl, hmore⟩
      · cases more with
        | nil => simpa using hmore
        | cons v more =>
          obtain ⟨rfl, rfl⟩ := List.cons.inj hmore
          have hlt := (List.pairwise_cons.mp (List.pairwise_append.mp hordered).2.1).1 u (by simp)
          exact absurd hsame (Nat.ne_of_gt hlt)
      · cases more with
        | nil => simpa [eq_comm] using hmore
        | cons v more =>
          obtain ⟨rfl, rfl⟩ := List.cons.inj hmore
          have hlt := (List.pairwise_append.mp hordered).2.2 u (by simp) t (List.mem_cons_self ..)
          exact absurd hsame (Nat.ne_of_lt hlt)
    exact ⟨m, inserted, others, hinserted, rfl, h⟩

end Widened

/-! ## What the items of a file declare -/

namespace Grammar

open Declaration

variable {place mid next : Place} {ts : List Tree} {d : Declaration}

theorem ofTrees_gather {kind : NodeKind} {us : List Tree} (hkind : kind ≠ .enumMembers)
    (hd : d ∈ ofTrees (gather kind us)) : kindOf? kind = some d.kind := by
  rw [gather, ofTrees_append, ofTrees_comments fun t ht => List.mem_takeWhile_imp ht,
    List.nil_append, ofTrees, ofTrees, List.append_nil, ofTree] at hd
  split at hd
  · next kind' hkind' =>
    split at hd
    · cases hd
    · rw [List.mem_singleton] at hd
      rw [hd, hkind']
  · rw [if_neg hkind] at hd
    cases hd

/-- Only the declaration of a class declares one. -/
theorem classDecl_of_item (h : Parses ranking Grammar.rules item place ts next)
    (hd : d ∈ ofTrees ts) (hkind : d.kind = .plainClass) :
    Parses ranking Grammar.rules (.call .classDecl) place ts next := by
  have hno : ∀ {kind : NodeKind} {inner : Form}, kind ≠ .enumMembers →
      kindOf? kind ≠ some .plainClass →
      ¬Parses ranking Grammar.rules (.node kind inner) place ts next := by
    intro kind inner hmembers hplain hnode
    obtain ⟨us, rfl, -⟩ := hnode.of_node
    exact hplain (hkind ▸ ofTrees_gather hmembers hd)
  rcases h.of_choice fits_ranking with h | ⟨-, h⟩
  · exact absurd (h.of_call fits_ranking) (hno (by decide) (by decide))
  · obtain ⟨r, hr, h⟩ := h.exists_of_choice fits_ranking
    rw [List.mem_singleton] at hr
    subst hr
    obtain ⟨r, hr, h⟩ := (h.of_call fits_ranking).exists_of_choice fits_ranking
    simp only [typeDecls, List.mem_append, List.mem_cons, List.not_mem_nil, or_false] at hr
    rcases hr with ((rfl | rfl | rfl | rfl | rfl) | (rfl | rfl | rfl | rfl | rfl)) | rfl
    · obtain ⟨comments, t, rfl, -⟩ := leaf_of_parses h
      rw [← List.map_singleton, ← List.map_append, ofTrees_leaves] at hd
      cases hd
    · exact absurd (h.of_call fits_ranking) (hno (by decide) (by decide))
    · exact absurd h (hno (by decide) (by decide))
    · exact absurd h (hno (by decide) (by decide))
    · exact absurd h (hno (by decide) (by decide))
    · exact h
    · exact absurd (h.of_call fits_ranking) (hno (by decide) (by decide))
    · exact absurd (h.of_call fits_ranking) (hno (by decide) (by decide))
    · exact absurd (h.of_call fits_ranking) (hno (by decide) (by decide))
    · exact absurd (h.of_call fits_ranking) (hno (by decide) (by decide))
    · exact absurd h (hno (by decide) (by decide))

/-- Where only comments are left there is no further item. -/
theorem ends_item_none (h : place.rest.all Token.isComment = true) :
    Ends Grammar.rules item place none := by
  obtain ⟨result, hresult⟩ : ∃ result, Ends Grammar.rules item place result :=
    exists_ends fits_ranking (by decide) place
  cases result with
  | none => exact hresult
  | some next =>
    obtain ⟨taken, hrest, htaken⟩ := hresult.taken rfl
    obtain ⟨t, ht, hcomment⟩ :=
      htaken.resolve_left (hresult.ne_of_consumes fits_ranking (by decide))
    rw [List.all_eq_true] at h
    have := h t (hrest ▸ List.mem_append_left _ ht)
    rw [hcomment] at this
    cases this

/-! ## Item by item -/

/-- A declaration as it was read, and the same one with interfaces that were added. Only classes get
interfaces, and what they get can be written. -/
structure Widens (d e : Declaration) : Prop where
  declaration : e = { d with added := e.added }
  plain : e.isExtended = true → d.kind = .plainClass
  writable : ∀ t ∈ e.added, t.isWritable false = true

theorem Widens.kind {e : Declaration} (h : Widens d e) : e.kind = d.kind := by rw [h.declaration]

theorem Widens.anchor {e : Declaration} (h : Widens d e) : e.anchor = d.anchor := by
  rw [h.declaration]

theorem Widens.members {e : Declaration} (h : Widens d e) : e.members = d.members := by
  rw [h.declaration]

theorem Widens.asRead {e : Declaration} (h : Widens d e) : e.asRead = d.asRead := by
  rw [h.declaration]
  cases d
  rw [Declaration.asRead, Declaration.asRead]

/-- Whether a tree at the top of a file is no statement, and no class with annotations among the
types of its header. -/
def isPlainItem (t : Tree) : Bool :=
  !isStatement t && (!t.isNode .classDecl || hasPlainTypes t.children)

theorem plainTypes_of_items (hitems : ∀ t ∈ ts, isPlainItem t = true) (children : List Tree)
    (hmem : Tree.node .classDecl children ∈ ts) : hasPlainTypes children = true := by
  have hitem := hitems _ hmem
  rw [isPlainItem, Bool.and_eq_true, Bool.or_eq_true] at hitem
  exact hitem.2.resolve_left (by simp [isNode])

theorem not_isStatement_of_items (hitems : ∀ t ∈ ts, isPlainItem t = true) :
    ∀ t ∈ ts, isStatement t = false := by
  intro t ht
  have hitem := hitems t ht
  rw [isPlainItem, Bool.and_eq_true, Bool.not_eq_true'] at hitem
  exact hitem.1

theorem preorder_eq (d : Declaration) : d.preorder = d :: preorderAll d.members := by
  cases d
  rw [preorder]

theorem mem_preorderAll {ds : List Declaration} (hd : d ∈ ds) {e : Declaration}
    (he : e ∈ d.preorder) : e ∈ preorderAll ds := by
  induction ds with
  | nil => cases hd
  | cons d' ds ih =>
    rw [preorderAll, List.mem_append]
    rcases List.mem_cons.mp hd with rfl | hd
    · exact .inl he
    · exact .inr (ih hd)

/-- The places of what some trees declare are the ends of tokens. -/
theorem exists_place {es : List Declaration} (hshaped : ∀ t ∈ ts, Shaped t)
    (hes : List.Forall₂ Widens (ofTrees ts) es) {e : Declaration} (he : e ∈ es) :
    ∃ t ∈ tokensOf ts, t.stop = e.anchor.offset := by
  obtain ⟨d, hd, hde⟩ := exists_left_of_mem hes he
  have hsub := offsets_ofTrees_sublist fun t ht => (offsets_sublist (hshaped t ht)).1
  have hmem : d ∈ preorderAll (ofTrees ts) :=
    mem_preorderAll hd (by rw [preorder_eq]; exact List.mem_cons_self ..)
  obtain ⟨t, ht, hstop⟩ := List.mem_map.mp (hsub.subset (List.mem_map_of_mem hmem))
  exact ⟨t, ht, by rw [hde.anchor, ← hstop]⟩

/-- The places of classes are the ends of tokens that are no comments. -/
theorem exists_plain_place (h : Parses ranking Grammar.rules (.many item) place ts next)
    (hitems : ∀ t ∈ ts, isPlainItem t = true) (hd : d ∈ ofTrees ts) (hkind : d.kind = .plainClass) :
    ∃ t ∈ place.rest, t.stop = d.anchor.offset ∧ t.isComment = false := by
  refine h.many_induction fits_ranking (motive := fun place ts =>
    (∀ t ∈ ts, isPlainItem t = true) → d ∈ ofTrees ts →
    ∃ t ∈ place.rest, t.stop = d.anchor.offset ∧ t.isComment = false) ?_ ?_ hitems hd
  · intro _ _ hd
    cases hd
  · intro place mid us vs hitem _ ih hitems hd
    rw [List.forall_mem_append] at hitems
    rw [ofTrees_append, List.mem_append] at hd
    rcases hd with hd | hd
    · obtain ⟨d', front, t, rest, hdeclared, -, hstop, hcomment, hplace, -⟩ :=
        class_extended (classDecl_of_item hitem hd hkind) (plainTypes_of_items hitems.1)
      obtain rfl : d = d' := by
        rw [hdeclared, List.mem_singleton] at hd
        exact hd
      exact ⟨t, by rw [hplace]; simp, hstop, hcomment⟩
    · obtain ⟨t, ht, hplace⟩ := ih hitems.2 hd
      exact ⟨t, by rw [hitem.spans.rest_eq]; exact List.mem_append_right _ ht, hplace⟩

/-- **An item is read again with the interfaces that it gets,** and behind it stand the tokens of the
further items with what these get. -/
theorem item_widened {us : List Tree} (hitem : Parses ranking Grammar.rules item place us mid)
    (hplain : ∀ t ∈ us, isPlainItem t = true) {first others : List Declaration}
    (hfirst : List.Forall₂ Widens (ofTrees us) first)
    (hbehind : ∀ e ∈ others, ∀ t ∈ tokensOf us, t.stop ≠ e.anchor.offset)
    (hordered : place.rest.Pairwise fun s t => s.stop < t.stop) {n : Nat} {tokens : List Token}
    (hwidened : Widened n (first.filter isExtended ++ others) place.rest tokens) :
    ∃ m more, Ends Grammar.rules item ⟨place.last.map (Token.moved n), tokens⟩
        (some ⟨mid.last.map (Token.moved m), more⟩)
      ∧ Widened m others mid.rest more := by
  have hrest := hitem.spans.rest_eq
  cases hextended : first.filter isExtended with
  | nil =>
    rw [hextended, List.nil_append, hrest] at hwidened
    obtain ⟨more, rfl, hmore⟩ := hwidened.split hbehind
    obtain ⟨taken, htaken, hagain⟩ := item_repeated (not_isStatement_of_items hplain) hitem
    obtain rfl : taken = tokensOf us := List.append_cancel_right (htaken.symm.trans hrest)
    exact ⟨n, more, hagain n more, hmore⟩
  | cons e es =>
    have he : e ∈ first.filter isExtended := hextended ▸ List.mem_cons_self ..
    rw [List.mem_filter] at he
    obtain ⟨d, hd, hde⟩ := exists_left_of_mem hfirst he.1
    obtain ⟨d', front, t, rest, hdeclared, hkind, hstop, -, hplace, hagain⟩ :=
      class_extended (classDecl_of_item hitem hd (hde.plain he.2)) (plainTypes_of_items hplain)
    -- the class is all that the item declares
    obtain rfl : d = d' := by
      rw [hdeclared, List.mem_singleton] at hd
      exact hd
    rw [hdeclared] at hfirst
    obtain ⟨e', _, -, hnil, rfl⟩ := List.forall₂_cons_left_iff.mp hfirst
    obtain rfl := List.forall₂_nil_left_iff.mp hnil
    obtain rfl : e = e' := List.mem_singleton.mp he.1
    rw [List.filter_cons_of_pos he.2, List.filter_nil, List.singleton_append] at hwidened
    -- its tokens fall into those in front of its place and those behind it
    have hsplit : place.rest = front ++ t :: (rest ++ mid.rest) := by
      rw [hplace, List.append_assoc, List.singleton_append]
    rw [hsplit] at hwidened hordered
    obtain ⟨m, inserted, behind, hinserted, rfl, hbehindWidened⟩ :=
      hwidened.insertion hordered (by rw [hstop, hde.anchor])
    have htaken : tokensOf us = (front ++ [t]) ++ rest := by
      refine List.append_cancel_right (hrest.symm.trans ?_)
      rw [hplace, List.append_assoc _ rest]
    obtain ⟨more, rfl, hmore⟩ := hbehindWidened.split fun e he u hu =>
      hbehind e he u (htaken ▸ List.mem_append_right _ hu)
    rw [hde.kind, hde.anchor, hkind] at hinserted
    have hadded : e.added ≠ [] := by
      have hsome := he.2
      rw [isExtended, Bool.not_eq_true', List.isEmpty_eq_false_iff] at hsome
      exact hsome
    have hends := hagain e.added hadded hde.writable n m (place.last.map (Token.moved n)) inserted
      more hinserted
    exact ⟨m, more, ends_item_of_type (e := (.classDecl, .word "class")) (List.mem_cons_self ..) hends,
      hmore⟩

/-- **Item by item a file is read again with the interfaces that its classes get.** -/
theorem items_widened (h : Parses ranking Grammar.rules (.many item) place ts next)
    (hcomments : next.rest.all Token.isComment = true)
    (hordered : place.rest.Pairwise fun s t => s.stop < t.stop) (hshaped : ∀ t ∈ ts, Shaped t)
    (hitems : ∀ t ∈ ts, isPlainItem t = true)
    {es : List Declaration} (hes : List.Forall₂ Widens (ofTrees ts) es) {n : Nat}
    {tokens : List Token} (hwidened : Widened n (es.filter isExtended) place.rest tokens) :
    ∃ next', Ends Grammar.rules (.many item) ⟨place.last.map (Token.moved n), tokens⟩ (some next')
      ∧ next'.rest.all Token.isComment = true := by
  refine h.many_induction fits_ranking (motive := fun place ts =>
    place.rest.Pairwise (fun s t => s.stop < t.stop) → (∀ t ∈ ts, Shaped t) →
    (∀ t ∈ ts, isPlainItem t = true) → ∀ es, List.Forall₂ Widens (ofTrees ts) es → ∀ n tokens,
      Widened n (es.filter isExtended) place.rest tokens →
      ∃ next', Ends Grammar.rules (.many item) ⟨place.last.map (Token.moved n), tokens⟩ (some next')
        ∧ next'.rest.all Token.isComment = true) ?_ ?_ hordered hshaped hitems es hes n tokens hwidened
  · intro _ _ _ _ es hes n tokens hwidened
    cases hes
    cases hwidened
    have hmoved : (next.rest.map (Token.moved n)).all Token.isComment = true := by
      rw [List.all_map]
      exact hcomments
    exact ⟨_, .manyNil (ends_item_none hmoved), hmoved⟩
  · intro place mid us vs hitem hmany ih hordered hshaped hitems es hes n tokens hwidened
    rw [List.forall_mem_append] at hshaped hitems
    rw [ofTrees_append] at hes
    -- what the item declares, and what the further ones declare
    obtain ⟨first, others, rfl, hfirst, hothers⟩ : ∃ first others, es = first ++ others
        ∧ List.Forall₂ Widens (ofTrees us) first ∧ List.Forall₂ Widens (ofTrees vs) others :=
      ⟨_, _, (List.take_append_drop (ofTrees us).length es).symm,
        (List.forall₂_take_append _ _ _ hes.flip).flip, (List.forall₂_drop_append _ _ _ hes.flip).flip⟩
    have hparts := hordered
    rw [hitem.spans.rest_eq, List.pairwise_append] at hparts
    -- the further ones have their places further on
    have hbehind : ∀ e ∈ others.filter isExtended, ∀ t ∈ tokensOf us, t.stop ≠ e.anchor.offset := by
      intro e he t ht
      obtain ⟨u, hu, hstop⟩ := exists_place hshaped.2 hothers (List.mem_of_mem_filter he)
      have hmem : u ∈ mid.rest := by
        rw [hmany.spans.rest_eq]
        exact List.mem_append_left _ hu
      exact hstop ▸ Nat.ne_of_lt (hparts.2.2 t ht u hmem)
    rw [List.filter_append] at hwidened
    obtain ⟨m, more, hitem', hmore⟩ :=
      item_widened hitem hitems.1 hfirst hbehind hordered hwidened
    obtain ⟨next', hnext, hcomments'⟩ := ih hparts.2.1 hshaped.2 hitems.2 others hothers m more hmore
    exact ⟨next', hitem'.manyCons hnext, hcomments'⟩

end Grammar

end Conformance.Java
