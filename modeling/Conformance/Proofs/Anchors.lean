import Conformance.Proofs.Builds
import Conformance.Proofs.TokenPlaces

/-!
# Where the lists of interfaces end

The place for further interfaces is looked up among the parts of a header by their kinds. That it
is a place in the header at all rests on the grammar: a declaration is a header with one body
behind it, and the parts of a header that are looked for have words in them (`Headed`). Then the
place is the end of a token of the header, and what the declaration contains has its places in
the body. So the places of all declarations of a file, those of nested ones after that of the
declaration around them, increase strictly, and each of them lies between two characters
(`anchors_of_parse?`).
-/

namespace Conformance.Java

open Java.Tree Grammar

/-! ## The shape of a declaration -/

/-- The parts of a header that a list of interfaces may have to follow, and the lists. -/
def isHeaderPart (kind : NodeKind) : Bool :=
  kind = .superclass || kind = .superInterfaces || kind = .extendsInterfaces
    || kind = .parameters || kind = .typeParams

/-- What stands before the body of a declaration. -/
structure InHeader (t : Tree) : Prop where
  no_body : t.isNode .body = false
  nonempty : ∀ kind, isHeaderPart kind = true → t.isNode kind = true → t.tokens ≠ []

/-- A header with a body behind it. -/
def Headed (children : List Tree) : Prop :=
  ∃ header body, children = header ++ [.node .body body] ∧ ∀ t ∈ header, InHeader t

theorem inHeader_leaf (token : Token) : InHeader (.leaf token) where
  no_body := rfl
  nonempty _ _ h := by cases h

theorem inHeader_of_isComment {t : Tree} (h : t.isComment = true) : InHeader t := by
  cases t with
  | leaf token => exact inHeader_leaf token
  | node kind children => cases h

/-- Whether a rule takes a token to begin with. -/
def opens : Form → Bool
  | .seq (.one _ :: _) => true
  | _ => false

mutual

/-- Whether a rule builds parts of a header only. -/
def buildsHeader : Form → Bool
  | .one _ | .absent _ | .joined | .assignable => true
  | .seq list | .choice list => allBuildHeader list
  | .many inner => buildsHeader inner
  | .call symbol => symbol = .typeParams || symbol = .parameters
  | .node .body _ => false
  | .node kind inner => !isHeaderPart kind || opens inner
  | .extended .. => false

def allBuildHeader : List Form → Bool
  | [] => true
  | rule :: others => buildsHeader rule && allBuildHeader others

end

/-- Whether a rule builds a body. -/
def buildsBody : Form → Bool
  | .node .body _ => true
  | .call symbol => symbol = .classBody
  | _ => false

/-- Whether a rule for a declaration has parts of a header and a body behind them. -/
def buildsHeaded (kind : NodeKind) (inner : Form) : Bool :=
  (Declaration.kindOf? kind).isNone || match inner with
    | .seq list => allBuildHeader list.dropLast && list.getLast?.any buildsBody
    | _ => false

/-- The rules of the grammar are as they should be. -/
theorem check_rules (symbol : Symbol) : (rules symbol).check buildsHeaded = true := by
  cases symbol <;> decide

variable {rule : Form} {ts : List Tree}

theorem buildsHeader_of_mem {list : List Form} (h : allBuildHeader list = true) {rule : Form}
    (hmem : rule ∈ list) : buildsHeader rule = true := by
  induction list with
  | nil => cases hmem
  | cons first others ih =>
    rw [allBuildHeader, Bool.and_eq_true] at h
    rcases List.mem_cons.mp hmem with rfl | hmem
    · exact h.1
    · exact ih h.2 hmem

/-- A part of a header begins with a token. -/
theorem opens_of_buildsHeader {kind : NodeKind} {inner : Form}
    (h : buildsHeader (.node kind inner) = true) :
    kind ≠ .body ∧ (isHeaderPart kind = true → opens inner = true) := by
  have hkind : kind ≠ .body := by
    rintro rfl
    rw [buildsHeader] at h
    cases h
  refine ⟨hkind, fun hpart => ?_⟩
  rw [buildsHeader, hpart] at h
  · exact h
  · exact hkind

theorem mem_dropWhile_isComment {t : Tree} (ht : t ∈ ts) (hcomment : t.isComment = false) :
    t ∈ ts.dropWhile Tree.isComment := by
  rw [← List.takeWhile_append_dropWhile (p := Tree.isComment) (l := ts)] at ht
  rcases List.mem_append.mp ht with ht | ht
  · rw [List.mem_takeWhile_imp ht] at hcomment
    cases hcomment
  · exact ht

theorem dropWhile_isComment_concat {t : Tree} (hcomment : t.isComment = false) :
    (ts ++ [t]).dropWhile Tree.isComment = ts.dropWhile Tree.isComment ++ [t] := by
  rw [List.dropWhile_append]
  split
  · next hempty =>
    rw [List.isEmpty_iff] at hempty
    rw [hempty, List.nil_append, List.dropWhile_cons_of_neg (by rw [hcomment]; decide)]
  · rfl

/-- What begins with a token has tokens, also without the comments in front. -/
theorem tokensOf_ne_nil_of_builds (hopens : opens rule = true) (h : Builds rules rule ts) :
    tokensOf (ts.dropWhile Tree.isComment) ≠ [] := by
  unfold opens at hopens
  split at hopens
  · cases h with
    | @seqCons _ _ _ us hfirst _ =>
      cases hfirst with
      | @one _ comments t ht =>
        intro hnil
        have hleaf : Tree.leaf t ∈ (comments.map Tree.leaf ++ [Tree.leaf t]) ++ us :=
          List.mem_append_left _ (List.mem_append_right _ (List.mem_singleton_self _))
        have htoken := mem_tokensOf (mem_dropWhile_isComment hleaf ht)
          (by rw [Tree.tokens]; exact List.mem_singleton_self t)
        rw [hnil] at htoken
        cases htoken
  · cases hopens

theorem inHeader_of_builds (hrule : buildsHeader rule = true) (h : Builds rules rule ts) :
    ∀ t ∈ ts, InHeader t := by
  induction h with
  | one comments ht =>
    intro t hmem
    rw [← List.map_singleton, ← List.map_append] at hmem
    obtain ⟨token, -, rfl⟩ := List.mem_map.mp hmem
    exact inHeader_leaf token
  | seqNil | manyNil | absent | joined | assignable => simp
  | seqCons _ _ ih ih' =>
    rw [buildsHeader, allBuildHeader, Bool.and_eq_true] at hrule
    exact List.forall_mem_append.mpr ⟨ih hrule.1, ih' (by rw [buildsHeader]; exact hrule.2)⟩
  | choice hmem _ ih =>
    rw [buildsHeader] at hrule
    exact ih (buildsHeader_of_mem hrule hmem)
  | manyCons _ _ ih ih' =>
    refine List.forall_mem_append.mpr ⟨ih ?_, ih' hrule⟩
    rwa [buildsHeader] at hrule
  | @call symbol ts _ ih =>
    rw [buildsHeader, Bool.or_eq_true, decide_eq_true_eq, decide_eq_true_eq] at hrule
    rcases hrule with rfl | rfl
    · exact ih (by decide)
    · exact ih (by decide)
  | @node kind inner ts hinner _ =>
    obtain ⟨hkind, hopens⟩ := opens_of_buildsHeader hrule
    intro t ht
    rcases List.mem_append.mp ht with ht | ht
    · exact inHeader_of_isComment (List.mem_takeWhile_imp ht)
    · rw [List.mem_singleton.mp ht]
      refine ⟨decide_eq_false hkind, fun part hpart hnode => ?_⟩
      rw [tokens_node]
      exact tokensOf_ne_nil_of_builds (hopens (by rwa [of_decide_eq_true hnode])) hinner
  | unextended _ _ | extended _ _ _ _ _ =>
    rw [buildsHeader] at hrule
    cases hrule

/-- A body, with the comments in front of it. -/
theorem exists_body_of_builds (hrule : buildsBody rule = true) (h : Builds rules rule ts) :
    ∃ comments body, ts = comments ++ [.node .body body] ∧ ∀ t ∈ comments, t.isComment = true := by
  have hnode : ∀ {inner : Form} {ts : List Tree}, Builds rules (.node .body inner) ts →
      ∃ comments body, ts = comments ++ [.node .body body]
        ∧ ∀ t ∈ comments, t.isComment = true := by
    intro inner ts h
    cases h with
    | node => exact ⟨_, _, rfl, fun t ht => List.mem_takeWhile_imp ht⟩
  unfold buildsBody at hrule
  split at hrule
  · exact hnode h
  · rw [of_decide_eq_true hrule] at h
    cases h with
    | call h => exact hnode h
  · cases hrule

/-- **A declaration is a header with a body behind it.** -/
theorem headed_of_builds {kind : NodeKind} {inner : Form}
    (hinner : buildsHeaded kind inner = true) (hkind : Declaration.kindOf? kind ≠ none)
    (h : Builds rules inner ts) : Headed (ts.dropWhile Tree.isComment) := by
  unfold buildsHeaded at hinner
  rw [Bool.or_eq_true, Option.isNone_iff_eq_none] at hinner
  replace hinner := hinner.resolve_left hkind
  split at hinner
  · next list =>
    rw [Bool.and_eq_true] at hinner
    obtain ⟨hheader, hlast⟩ := hinner
    obtain ⟨last, hgetLast⟩ : ∃ last, list.getLast? = some last := by
      cases hgetLast : list.getLast? with
      | none =>
        rw [hgetLast] at hlast
        cases hlast
      | some last => exact ⟨last, rfl⟩
    rw [hgetLast, Option.any_some] at hlast
    rw [← List.dropLast_append_getLast? last hgetLast] at h
    obtain ⟨us, vs, rfl, hus, hvs⟩ := h.of_seq_concat
    obtain ⟨comments, body, rfl, hcomments⟩ := exists_body_of_builds hlast hvs
    refine ⟨(us ++ comments).dropWhile Tree.isComment, body, ?_, fun t ht => ?_⟩
    · rw [← List.append_assoc, dropWhile_isComment_concat rfl]
    · rcases List.mem_append.mp ((List.dropWhile_suffix _).subset ht) with ht | ht
      · exact inHeader_of_builds (by rw [buildsHeader]; exact hheader) hus t ht
      · exact inHeader_of_isComment (hcomments t ht)
  · cases hinner

/-- The shape of all declarations in a tree. -/
def Shaped : Tree → Prop :=
  Tree.Forall fun kind children => Declaration.kindOf? kind ≠ none → Headed children

theorem shaped_of_treesOf? {tokens : List Token} (h : treesOf? tokens = some ts) :
    ∀ t ∈ ts, Shaped t := by
  unfold treesOf? at h
  dsimp only at h
  split at h
  · next taken place hmatch =>
    split at h
    · cases h
      refine List.forall_mem_append.mpr ⟨?_, fun t ht => ?_⟩
      · exact forall_of_builds check_rules (fun _ _ _ hinner hbuilds hkind =>
          headed_of_builds hinner hkind hbuilds) rfl (spans_of_matchRule hmatch).builds
      · obtain ⟨token, -, rfl⟩ := List.mem_map.mp ht
        exact .leaf token
    · cases h
  · cases h

/-! ## The places in a header -/

namespace Declaration

theorem ownTokens_append (ts us : List Tree) :
    ownTokens (ts ++ us) = ownTokens ts ++ ownTokens us := List.filterMap_append

/-- A word or symbol right below a node is one of the tokens below it. -/
theorem mem_tokensOf_of_ownTokens {token : Token} (h : token ∈ ownTokens ts) :
    token ∈ tokensOf ts := by
  obtain ⟨t, ht, hleaf⟩ := List.mem_filterMap.mp h
  refine mem_tokensOf ht ?_
  cases t with
  | node kind children => cases hleaf
  | leaf found =>
    dsimp only at hleaf
    split at hleaf
    · cases hleaf
    · cases hleaf
      rw [Tree.tokens]
      exact List.mem_singleton_self _

variable {header body : List Tree} {part : NodeKind}

/-- A part of the header that is found ends with a token of the header. -/
theorem exists_stop_of_find? (hheader : ∀ t ∈ header, InHeader t) (hpart : isHeaderPart part = true)
    {t : Tree} (h : (header ++ [Tree.node .body body]).find? (·.isNode part) = some t) :
    ∃ token ∈ tokensOf header, t.stop? = some token.stop := by
  have hbody : Tree.isNode part (.node .body body) = false := by
    cases part <;> first | rfl | cases hpart
  rw [List.find?_append, List.find?_singleton, hbody, if_neg Bool.false_ne_true, Option.or_none] at h
  have hmem := List.mem_of_find?_eq_some h
  have hne := (hheader t hmem).nonempty part hpart (List.find?_some h)
  refine ⟨t.tokens.getLast hne, mem_tokensOf hmem (List.getLast_mem hne), ?_⟩
  rw [stop?, List.getLast?_eq_some_getLast hne]
  rfl

/-- **The place for further interfaces is the end of a token of the header.** -/
theorem exists_anchorOf (hheader : ∀ t ∈ header, InHeader t) (kind : ClassKind) {name : Token}
    (hname : (ownTokens (header ++ [Tree.node .body body]))[1]? = some name) :
    ∃ token ∈ tokensOf header,
      (anchorOf kind (header ++ [Tree.node .body body])).offset = token.stop := by
  have hmem : name ∈ tokensOf header := by
    rw [ownTokens_append] at hname
    exact mem_tokensOf_of_ownTokens (List.mem_of_getElem? (List.append_nil _ ▸ hname))
  unfold anchorOf
  dsimp only
  split
  · next clause hclause =>
    have hfind : ∃ part, isHeaderPart part = true
        ∧ (header ++ [Tree.node .body body]).find? (·.isNode part) = some clause := by
      unfold clause? at hclause
      split at hclause
      · exact ⟨_, rfl, hclause⟩
      · cases hclause
      · exact ⟨_, rfl, hclause⟩
    obtain ⟨part, hpart, hfind⟩ := hfind
    obtain ⟨token, htoken, hstop⟩ := exists_stop_of_find? hheader hpart hfind
    exact ⟨token, htoken, by rw [hstop, Option.getD_some]⟩
  · cases hbefore : (((header ++ [Tree.node .body body]).find? (·.isNode .superclass)).or
        ((header ++ [Tree.node .body body]).find? (·.isNode .parameters))).or
        ((header ++ [Tree.node .body body]).find? (·.isNode .typeParams)) with
    | none =>
      refine ⟨name, hmem, ?_⟩
      rw [hname]
      rfl
    | some t =>
      have hfind : ∃ part, isHeaderPart part = true
          ∧ (header ++ [Tree.node .body body]).find? (·.isNode part) = some t := by
        rw [Option.or_eq_some_iff, Option.or_eq_some_iff] at hbefore
        rcases hbefore with (h | ⟨-, h⟩) | ⟨-, h⟩
        · exact ⟨_, rfl, h⟩
        · exact ⟨_, rfl, h⟩
        · exact ⟨_, rfl, h⟩
      obtain ⟨part, hpart, hfind⟩ := hfind
      obtain ⟨token, htoken, hstop⟩ := exists_stop_of_find? hheader hpart hfind
      refine ⟨token, htoken, ?_⟩
      rw [Option.bind_some, hstop]
      rfl

mutual

/-- A declaration with those nested in it, in the order of the text. -/
def preorder : Declaration → List Declaration
  | d@{ members, .. } => d :: preorderAll members

/-- Some declarations with those nested in them. -/
def preorderAll : List Declaration → List Declaration
  | [] => []
  | d :: others => d.preorder ++ preorderAll others

end

/-- Where the interfaces of some declarations go. -/
def offsets (ds : List Declaration) : List Nat := (preorderAll ds).map (·.anchor.offset)

theorem preorderAll_append (ds es : List Declaration) :
    preorderAll (ds ++ es) = preorderAll ds ++ preorderAll es := by
  induction ds with
  | nil => rfl
  | cons d ds ih => rw [List.cons_append, preorderAll, preorderAll, ih, List.append_assoc]

/-! ## The places in a file -/

/-- The members of a declaration stand in its body. -/
theorem ofBody_headed (hheader : ∀ t ∈ header, InHeader t) :
    ofBody (header ++ [.node .body body]) = ofTrees body := by
  induction header with
  | nil => rw [List.nil_append, ofBody]
  | cons t header ih =>
    rw [List.forall_mem_cons] at hheader
    rw [List.cons_append, ofBody]
    · exact ih hheader.2
    · rintro children rfl
      cases hheader.1.no_body

/-- The places of the declarations among some trees, if this is known of each tree. -/
theorem offsets_ofTrees_sublist
    (h : ∀ t ∈ ts, (offsets (ofTree t)).Sublist (t.tokens.map Token.stop)) :
    (offsets (ofTrees ts)).Sublist ((tokensOf ts).map Token.stop) := by
  induction ts with
  | nil => exact .slnil
  | cons t ts ih =>
    rw [List.forall_mem_cons] at h
    rw [ofTrees, offsets, preorderAll_append, List.map_append, tokensOf, List.map_append]
    exact h.1.append (ih h.2)

/-- Declarations have their places at the ends of tokens, one after the other. Of a declaration
this is known once it is known of the trees in its body, and these are two steps below. -/
theorem offsets_sublist {t : Tree} (h : Shaped t) :
    (offsets (ofTree t)).Sublist (t.tokens.map Token.stop)
      ∧ (offsets (ofTrees t.children)).Sublist ((tokensOf t.children).map Token.stop) := by
  induction h with
  | leaf token =>
    rw [ofTree]
    exact ⟨List.nil_sublist _, List.nil_sublist _⟩
  | @node kind children hshape _ ih =>
    have hchildren := offsets_ofTrees_sublist fun t ht => (ih t ht).1
    refine ⟨?_, hchildren⟩
    rw [tokens_node, ofTree]
    split
    · next kind' hkind =>
      obtain ⟨header, body, rfl, hheader⟩ := hshape (by rw [hkind]; exact Option.some_ne_none _)
      split
      · exact List.nil_sublist _
      · next name hname =>
        obtain ⟨token, htoken, hoffset⟩ := exists_anchorOf hheader kind' hname
        have hbody := (ih _ (List.mem_append_right _ (List.mem_singleton_self _))).2
        rw [offsets, preorderAll, preorderAll, preorder, List.append_nil, List.map_cons]
        dsimp only
        rw [hoffset, ofBody_headed hheader, tokensOf_append, List.map_append, tokensOf, tokensOf,
          List.append_nil, tokens_node]
        exact (List.singleton_sublist.mpr (List.mem_map_of_mem htoken)).append hbody
    · split
      · exact hchildren
      · exact List.nil_sublist _

end Declaration

open Declaration in
/-- **The places for further interfaces increase from declaration to declaration, and each of them
is between two characters of the text.** -/
theorem SourceFile.anchors_of_parse? {path text : String} {f : SourceFile}
    (h : parse? path text = some f) :
    (preorderAll f.types).Pairwise (fun d e => d.anchor.offset < e.anchor.offset)
      ∧ ∀ d ∈ preorderAll f.types, Text.isBoundary text.toList d.anchor.offset = true := by
  simp only [parse?, Option.bind_eq_bind, Option.bind_eq_some_iff, Option.pure_def,
    Option.some.injEq] at h
  obtain ⟨tokens, htokens, trees, htrees, rfl⟩ := h
  have hsub : (offsets (Declaration.ofTrees trees)).Sublist ((tokensOf trees).map Token.stop) :=
    offsets_ofTrees_sublist fun t ht => (offsets_sublist (shaped_of_treesOf? htrees t ht)).1
  rw [tokensOf_treesOf? htrees] at hsub
  obtain ⟨hordered, hboundary⟩ := places_of_tokens? htokens
  constructor
  · exact List.pairwise_map.mp ((List.pairwise_map.mpr hordered).sublist hsub)
  · intro d hd
    obtain ⟨token, htoken, hstop⟩ := List.mem_map.mp (hsub.subset (List.mem_map_of_mem hd))
    rw [← hstop]
    exact hboundary token htoken

end Conformance.Java
