import Conformance.Proofs.Rereading
import Conformance.Proofs.TypeRules

/-!
# Reading back the clause of an interface

The interfaces that a class gets are written into its header, behind the list that it has or as
a new list. What is written is a text between two other texts, so it can only be read again if
its names are names of classes, if wildcards stand nowhere but as type arguments, and if the
header goes on neither with a word nor with something that belongs to a type. Then the tokens
in front of the rest of the file are those of the list, the rule for the list takes exactly
these, and what it builds declares the interfaces that were added (`readAs_inserted`).

The types that a class gets come from the store and from comparing methods, so their names are
whatever names classes have (`JavaType.isNameable`).
-/

namespace Conformance

/-! ## Types that have a spelling -/

namespace JavaType

open Java

mutual

/-- Whether a type has a spelling where a type is expected, or, if so said, a type argument. -/
def isNameable (argument : Bool) : JavaType → Bool
  | void => true
  | primitive _ => true
  | classType name arguments => WrittenType.isClassName name && areNameable arguments
  | array element => isNameable false element
  | typeVar name => WrittenType.isClassName name
  | wildcard => argument
  | wildcardExtends bound => argument && isNameable false bound
  | wildcardSuper bound => argument && isNameable false bound

/-- Whether some types have a spelling as type arguments. -/
def areNameable : List JavaType → Bool
  | [] => true
  | first :: others => isNameable true first && areNameable others

end

end JavaType

namespace Java

theorem split_intercalate {first : String} {others : List String}
    (h : ∀ part ∈ first :: others, '.' ∉ part.toList) :
    Text.split '.' (".".intercalate (first :: others)) = first :: others := by
  induction others generalizing first with
  | nil =>
    rw [String.intercalate_singleton, Text.split,
      Text.splitOnChar_eq_singleton (h first (List.mem_singleton_self _)), List.map_singleton,
      String.ofList_toList]
  | cons next others ih =>
    rw [List.forall_mem_cons] at h
    have hrest := ih h.2
    rw [Text.split] at hrest ⊢
    rw [String.intercalate_cons_cons, String.toList_append, String.toList_append]
    have hdot : ".".toList = ['.'] := rfl
    rw [hdot, List.append_assoc, List.singleton_append, Text.splitOnChar_append_cons,
      Text.splitOnChar_eq_singleton h.1, List.map_append, hrest, List.map_singleton,
      String.ofList_toList, List.singleton_append]

namespace WrittenType

/-- The end of the name of a class is the name of a class. -/
theorem isClassName_ending {name written : String} (h : isClassName name = true)
    (hwritten : written ∈ Scope.endings name) : isClassName written = true := by
  obtain ⟨n, hn, rfl⟩ := List.mem_map.mp hwritten
  rw [List.mem_range] at hn
  have hparts : ∀ part ∈ Text.split '.' name, '.' ∉ part.toList := by
    intro part hpart
    obtain ⟨text, htext, rfl⟩ := List.mem_map.mp hpart
    rw [String.toList_ofList]
    exact Text.not_mem_of_mem_splitOnChar htext
  rw [isClassName, List.all_eq_true] at h
  cases hdrop : (Text.split '.' name).drop ((Text.split '.' name).length - 1 - n) with
  | nil =>
    rw [List.drop_eq_nil_iff] at hdrop
    omega
  | cons first others =>
    have hmem : ∀ part ∈ first :: others, part ∈ Text.split '.' name := fun part hpart =>
      List.mem_of_mem_drop (hdrop ▸ hpart)
    rw [isClassName, split_intercalate fun part hpart => hparts part (hmem part hpart),
      List.all_eq_true]
    exact fun part hpart => h part (hmem part hpart)

end WrittenType

namespace Scope

open WrittenType

variable (s : Scope) (c : Context)

theorem isClassName_shortestName {name : String} (h : isClassName name = true) :
    isClassName (s.shortestName c name) = true := by
  rw [shortestName]
  cases hfound : (endings name).find? fun written =>
      !isHidden c written && decide (s.resolve? c written = some name) with
  | none => exact h
  | some written => exact isClassName_ending h (List.mem_of_find?_eq_some hfound)

mutual

/-- What has a spelling is spelled as a type that can be written. -/
theorem isWritable_spell : (t : JavaType) → {argument : Bool} → t.isNameable argument = true →
    (s.spell c t).isWritable argument = true
  | .void, _, _ => by rw [spell, isWritable]
  | .primitive p, _, _ => by
    rw [spell, isWritable]
    cases p <;> decide
  | .classType name arguments, _, h => by
    rw [JavaType.isNameable, Bool.and_eq_true] at h
    rw [spell, isWritable, isClassName_shortestName s c h.1, areWritable_spellAll arguments h.2]
    rfl
  | .array element, _, h => by
    rw [JavaType.isNameable] at h
    rw [spell, isWritable]
    exact isWritable_spell element h
  | .typeVar name, _, h => by
    rw [JavaType.isNameable] at h
    rw [spell, isWritable, h]
    rfl
  | .wildcard, _, h => h
  | .wildcardExtends bound, _, h => by
    rw [JavaType.isNameable, Bool.and_eq_true] at h
    rw [spell, isWritable, isWritable_spell bound h.2, h.1]
    rfl
  | .wildcardSuper bound, _, h => by
    rw [JavaType.isNameable, Bool.and_eq_true] at h
    rw [spell, isWritable, isWritable_spell bound h.2, h.1]
    rfl

theorem areWritable_spellAll : (ts : List JavaType) → JavaType.areNameable ts = true →
    areWritable (s.spellAll c ts) = true
  | [], _ => by rw [spellAll, areWritable]
  | first :: others, h => by
    rw [JavaType.areNameable, Bool.and_eq_true] at h
    rw [spellAll, areWritable, isWritable_spell first h.1, areWritable_spellAll others h.2]
    rfl

end

end Scope

/-! ## Insertions -/

namespace Declaration

open Grammar WrittenType

/-- The node for the list of interfaces of a declaration of some kind. -/
def clauseNode : ClassKind → NodeKind
  | .interface => .extendsInterfaces
  | _ => .superInterfaces

/-- The rule for the list of interfaces of a declaration of some kind. -/
def clauseRule : ClassKind → Form
  | .interface => extendsInterfaces
  | _ => superInterfaces

theorem clauseRule_eq (kind : ClassKind) : clauseRule kind
    = .node (clauseNode kind) (.seq [word (clauseKeyword kind), typeList]) := by
  cases kind <;> rfl

/-- The rule for the entries of a list of interfaces after those that it has. -/
def furtherEntries : Form := .many (.seq [sym ",", .call .type])

/-- The symbols that go on with a list of types. -/
def listFollowers : List String := "," :: typeFollowers

theorem intercalate_text (first : WrittenType) (others : List WrittenType) :
    ", ".intercalate ((first :: others).map text) = first.text ++ textOthers others := by
  induction others generalizing first with
  | nil => rw [List.map_singleton, String.intercalate_singleton, textOthers, String.append_empty]
  | cons next others ih =>
    rw [List.map_cons, List.map_cons, String.intercalate_cons_cons, ← List.map_cons, ih, textOthers]
    simp only [String.append_assoc]

theorem areWritable_of_forall {ts : List WrittenType} (h : ∀ t ∈ ts, t.isWritable false = true) :
    areWritable ts = true := by
  induction ts with
  | nil => rw [areWritable]
  | cons t ts ih =>
    rw [List.forall_mem_cons] at h
    rw [areWritable, isWritable_true h.1, ih h.2]
    rfl

/-- A list of types in a text falls into its lexemes. -/
theorem lexesTo_list {added : List WrittenType} (hne : added ≠ [])
    (h : ∀ t ∈ added, t.isWritable false = true) {rest : List Char}
    (hrest : breaksWord rest = true) :
    LexesTo (", ".intercalate (added.map text)).toList (listLexemes added) rest := by
  cases added with
  | nil => exact absurd rfl hne
  | cons first others =>
    rw [List.forall_mem_cons] at h
    rw [intercalate_text, String.toList_append, listLexemes]
    exact (lexesTo_text first h.1 (breaksWord_textOthers others hrest)).append
      (lexesTo_textOthers others (areWritable_of_forall h.2) hrest)

/-- The lexemes of what is inserted for interfaces that were added. -/
def insertedLexemes (kind : ClassKind) (anchor : ClauseAnchor) (added : List WrittenType) :
    List (TokenKind × String) :=
  (if anchor.hasClause then (.symbol, ",") else (.word, clauseKeyword kind)) :: listLexemes added

theorem isIdentifier_clauseKeyword (kind : ClassKind) :
    isIdentifier (clauseKeyword kind) = true := by
  cases kind <;> decide

theorem lexesTo_insertion {kind : ClassKind} {anchor : ClauseAnchor} {added : List WrittenType}
    {edit : TextEdit} (hedit : insertion? kind anchor added = some edit)
    (h : ∀ t ∈ added, t.isWritable false = true) {rest : List Char}
    (hrest : breaksWord rest = true) :
    LexesTo edit.replacement.toList (insertedLexemes kind anchor added) rest := by
  unfold insertion? at hedit
  split at hedit
  · cases hedit
  · next hempty =>
    rw [Bool.not_eq_true, List.isEmpty_eq_false_iff] at hempty
    have hlist := (lexesTo_list hempty h hrest).space
    cases hedit
    dsimp only [TextEdit.insert]
    unfold insertedLexemes
    split
    · rw [String.toList_append]
      exact (lexesTo_plainSymbol (c := ',') (by simp)).append hlist
    · have hkeyword := (lexesTo_word (isIdentifier_clauseKeyword kind)
        (breaksWord_of_mem (c := ' ') (by simp) _)).space.append hlist
      simpa using hkeyword

/-! ### Reading -/

/-- The list that the trees of a header have for a declaration of some kind. -/
def listed (kind : ClassKind) (trees : List Tree) : List WrittenType :=
  WrittenType.ofTrees (inside .typeList (((clause? kind trees).map Tree.children).getD []))

/-- Some tokens in front of others go on with the list of a header, or are a list of their own
if it has none, and declare some interfaces. -/
def ReadAs (kind : ClassKind) (anchor : ClauseAnchor) (added : List WrittenType)
    (tokens others : List Token) : Prop :=
  ∀ last, ∃ trees last', Takes rules (100 * tokens.length + 1)
      (if anchor.hasClause then furtherEntries else clauseRule kind) ⟨last, tokens ++ others⟩
      trees ⟨last', others⟩
    ∧ (if anchor.hasClause then WrittenType.ofTrees trees else listed kind trees) = added

theorem follows_comma (t : Token) (rest : List Token) (h : t.lexeme = (.symbol, ",")) :
    Bars typeFollowers (t :: rest) :=
  bars_symbol h (by decide) rest

/-- A list with a word in front is taken as a node. -/
theorem takes_clause (kind : ClassKind) {added : List WrittenType} (hne : added ≠ [])
    (h : ∀ t ∈ added, t.isWritable false = true) {tokens others : List Token} (last : Option Token)
    (htokens : tokens.map Token.lexeme = (.word, clauseKeyword kind) :: listLexemes added)
    (hothers : Bars listFollowers others) :
    ∃ keyword trees last', Takes rules (100 * tokens.length + 1) (clauseRule kind)
        ⟨last, tokens ++ others⟩
        [.node (clauseNode kind) [.leaf keyword, .node .typeList trees]] ⟨last', others⟩
      ∧ WrittenType.ofTrees trees = added := by
  cases added with
  | nil => exact absurd rfl hne
  | cons t ts =>
    obtain ⟨keyword, tokens, rfl, hkeyword, htokens⟩ := List.map_eq_cons_iff.mp htokens
    obtain ⟨tree, trees, last', htrees, hspells, hread⟩ := takes_commas follows_comma
      (fun u hu => reads_type (h u hu)) (some keyword) htokens (hothers.mono (by decide))
      (hothers.mono (by decide))
    have hlist := (htrees.node .typeList).seq (k := 100 * tokens.length + 6) .seqNil (by omega)
      (by omega)
    rw [gather_cons _ hspells.node, List.append_nil] at hlist
    have hword : Takes rules 1 (word (clauseKeyword kind)) ⟨last, keyword :: (tokens ++ others)⟩
        [.leaf keyword] ⟨some keyword, tokens ++ others⟩ := Takes.word hkeyword
    have hclause := (hword.seq (k := 100 * tokens.length + 7) hlist (by omega)
      (by omega)).node (clauseNode kind)
    rw [List.singleton_append, gather_cons _ (isComment_leaf hkeyword (by decide))] at hclause
    refine ⟨keyword, tree :: trees, last', ?_, ?_⟩
    · rw [clauseRule_eq, List.cons_append, List.length_cons]
      exact hclause.mono (by omega)
    · rw [ofTrees_spells hspells, hread]

/-- The tokens of an insertion are read as the interfaces that were added. -/
theorem readAs_inserted {kind : ClassKind} (hkind : kind ≠ .annotationType) {anchor : ClauseAnchor}
    {added : List WrittenType} (hne : added ≠ []) (h : ∀ t ∈ added, t.isWritable false = true)
    {tokens others : List Token}
    (htokens : tokens.map Token.lexeme = insertedLexemes kind anchor added)
    (hothers : Bars listFollowers others) : ReadAs kind anchor added tokens others := by
  intro last
  unfold insertedLexemes at htokens
  split at htokens
  · next hclause =>
    rw [if_pos hclause]
    have hlist : tokens.map Token.lexeme = lexemesOthers added := by
      cases added with
      | nil => exact absurd rfl hne
      | cons first others =>
        rw [htokens, lexemesOthers, listLexemes, List.append_assoc, List.singleton_append]
    obtain ⟨-, trees, last', htrees, hread⟩ := reads_others follows_comma
      (fun t ht => reads_type (h t ht)) last hlist (hothers.mono (by decide))
      (hothers.mono (by decide))
    exact ⟨trees, last', htrees, (if_pos hclause).trans hread⟩
  · next hclause =>
    rw [if_neg hclause]
    obtain ⟨keyword, trees, last', htake, hread⟩ := takes_clause kind hne h last htokens hothers
    refine ⟨_, last', htake, ?_⟩
    rw [if_neg hclause, ← hread]
    cases kind with
    | annotationType => exact absurd rfl hkind
    | _ => rfl

end Declaration

end Java

end Conformance
