import Conformance.Proofs.Widening

/-!
# Saved files are read again

What is saved is the text of the file with the clauses spliced in. Where a blank, a comma, a brace or a
comment comes next behind the place of a clause, the tokens of the saved text are those of the file
with the tokens of the clauses between them (`widened_of_spliced`). If the file is plain, which it is
without statements at its top and without annotations among the types in the headers of the classes
there, these are declarations with the clauses as well, and so the file can be read again
(`exists_savedText`). A pass inserts only what it found, so for the file that a pass returns it is
enough that the interfaces have a spelling and that the gaps are there (`saved_reread`).

Without a gap the clause and the word behind it can become one word. Then the file is not read again,
although it could be read before (`gapless_unreadable`).
-/

namespace Conformance

open Java

namespace TextEdit

open Text

variable {text result : List Char} {edits : List TextEdit} {position : Nat} {c : Char}

/-- A text stays as it is in front of the first edit. -/
theorem Spliced.exists_cons (h : Spliced position (c :: text) edits result)
    (hstart : ∀ e ∈ edits, position < e.start) :
    ∃ more, result = c :: more ∧ Spliced (position + c.utf8Size) text edits more := by
  generalize htext : c :: text = whole at h
  cases h with
  | rest =>
    subst htext
    exact ⟨text, rfl, .rest _ _⟩
  | @next _ before old left result e edits hstart' hstop h =>
    cases before with
    | nil =>
      have hlt := hstart e (List.mem_cons_self ..)
      rw [hstart'] at hlt
      exact absurd hlt (Nat.lt_irrefl _)
    | cons d before =>
      rw [List.append_assoc, List.cons_append, ← List.append_assoc] at htext
      obtain ⟨rfl, rfl⟩ := List.cons.inj htext
      refine ⟨_, by rw [List.cons_append, List.cons_append], .next ?_ hstop h⟩
      rw [hstart', byteSize_cons, Nat.add_assoc]

end TextEdit

namespace Java

namespace Declaration

open TextEdit Text

/-! ## The tokens of a saved text -/

/-- What is known of a declaration that was added to in a text with some tokens. -/
structure Insertable (text : List Char) (tokens : List Token) (d : Declaration) : Prop where
  extended : d.isExtended = true
  writable : ∀ t ∈ d.added, t.isWritable false = true
  place : ∃ t ∈ tokens, t.stop = d.anchor.offset ∧ t.isComment = false
  gap : opensGap (dropBytes d.anchor.offset text) = true

variable {text result passed : List Char} {tokens : List Token} {ds : List Declaration} {d : Declaration}
  {position : Nat}

/-- A declaration is added to behind a token, so not where the tokens begin. -/
theorem Insertable.lt_offset (h : d.Insertable text tokens) {fuel : Nat} {rest : List Char}
    (htokens : tokensFrom? fuel position rest = some tokens) : position < d.anchor.offset := by
  obtain ⟨t, ht, hstop, -⟩ := h.place
  have hafter := ((places_of_tokensFrom? htokens).2 t ht).after_start
  rwa [hstop] at hafter

/-- Where a declaration is added to behind another place, its token is one of those behind it. -/
theorem Insertable.behind {front after : List Token} {t : Token}
    (h : d.Insertable text (front ++ t :: after))
    (hordered : (front ++ t :: after).Pairwise fun s t => s.stop < t.stop)
    (hlt : t.stop < d.anchor.offset) : d.Insertable text after := by
  obtain ⟨hextended, hwritable, ⟨u, hu, hstop, hcomment⟩, hgap⟩ := h
  refine ⟨hextended, hwritable, ⟨u, ?_, hstop, hcomment⟩, hgap⟩
  rw [← hstop] at hlt
  rcases List.mem_append.mp hu with hu | hu
  · have hfront := (List.pairwise_append.mp hordered).2.2 u hu t (List.mem_cons_self ..)
    exact absurd hlt (Nat.lt_asymm hfront)
  · rcases List.mem_cons.mp hu with rfl | hu
    · exact absurd hlt (Nat.lt_irrefl _)
    · exact hu

/-- What is inserted begins with a gap. -/
theorem opensPlainGap_clause (d : Declaration) (rest : List Char) :
    opensPlainGap (d.clauseEdit.replacement.toList ++ rest) = true := by
  unfold clauseEdit clauseText
  dsimp only [TextEdit.insert]
  split
  · rw [String.toList_append]
    rfl
  · rw [String.toList_append, String.toList_append, String.toList_append]
    rfl

theorem breaksWord_of_opensGap {rest : List Char} (h : opensGap rest = true) :
    breaksWord rest = true := by
  obtain ⟨c, hc, others, rfl⟩ := exists_gap h
  have hbreaks : gaps.all (fun c => !(isNamePart c || c = '-')) = true := by decide
  rw [breaksWord_cons]
  exact List.all_eq_true.mp hbreaks c hc

/-- **The tokens of a text with insertions** are its own with those of what was inserted. -/
theorem widened_of_spliced (h : Spliced position text (ds.map clauseEdit) result) {fuel : Nat}
    (htokens : tokensFrom? fuel position text = some tokens) (hpassed : byteSize passed = position)
    (hds : ∀ d ∈ ds, d.Insertable (passed ++ text) tokens)
    (hincreasing : ds.Pairwise fun d e => d.anchor.offset < e.anchor.offset) :
    ∃ tokens', tokensFrom? result.length position result = some tokens'
      ∧ Widened 0 ds tokens tokens' := by
  induction ds generalizing position text result tokens fuel passed with
  | nil =>
    cases h
    have hdone := Widened.done 0 tokens
    rw [map_moved_zero] at hdone
    exact ⟨tokens, tokensFrom?_length htokens, hdone⟩
  | cons d ds ih =>
    rw [List.forall_mem_cons] at hds
    rw [List.pairwise_cons] at hincreasing
    obtain ⟨hextended, hwritable, ⟨t, ht, hstop, hcomment⟩, hgap⟩ := hds.1
    rw [List.map_cons] at h
    cases h with
    | @next _ before old text result e edits hstart hstop' h =>
      -- nothing is taken out of the text
      have hold : old = [] := eq_nil_of_byteSize_eq_zero (Nat.add_left_cancel hstop'.symm)
      subst hold
      rw [List.append_nil] at htokens hds hgap
      have hoffset : d.anchor.offset = position + byteSize before := hstart
      have hbehind : dropBytes d.anchor.offset (passed ++ (before ++ text)) = text := by
        rw [hoffset, ← hpassed, ← byteSize_append, ← List.append_assoc, dropBytes_append]
      rw [hbehind] at hgap
      obtain ⟨front, after, rfl, hafter, hagain⟩ :=
        tokensFrom?_gap htokens ht (hstop.trans hoffset) hcomment hgap
      rw [← hoffset] at hafter hagain
      have hlater : ∀ e ∈ ds, e.Insertable (passed ++ before ++ text) after := by
        intro e he
        rw [List.append_assoc]
        refine (hds.2 e he).behind (places_of_tokensFrom? htokens).1 ?_
        rw [hstop]
        exact hincreasing.1 e he
      obtain ⟨more, hmore, hwidened⟩ := ih h hafter
        (by rw [byteSize_append, hpassed]; exact hoffset.symm) hlater hincreasing.2
      have hbreaks : breaksWord result = true := by
        obtain ⟨c, hc, tail, rfl⟩ := exists_gap hgap
        obtain ⟨tail', rfl, -⟩ := h.exists_cons (by
          rw [List.forall_mem_map]
          exact hincreasing.1)
        exact breaksWord_of_opensGap (List.contains_iff_mem.mpr hc)
      have hedit : insertion? d.kind d.anchor d.added = some d.clauseEdit := by
        rw [insertion?_eq, if_pos hextended]
      obtain ⟨inserted, hinserted, hlex⟩ :=
        lexesTo_insertion hedit hwritable hbreaks d.anchor.offset
      have hclause := hlex _ _ (tokensFrom?_moved hmore (byteSize d.clauseEdit.replacement.toList) 0)
      have hwhole := hagain _ _ (opensPlainGap_clause d result) (tokensFrom?_length hclause)
      rw [← List.append_assoc] at hwhole
      have hinsert : Widened 0 (d :: ds) (front ++ t :: after) ((front ++ [t]).map (Token.moved 0)
          ++ (inserted ++ more.map (Token.moved (byteSize d.clauseEdit.replacement.toList)))) :=
        .insert hstop hinserted (hwidened.moved _)
      rw [map_moved_zero, List.append_assoc, List.singleton_append] at hinsert
      exact ⟨_, hwhole, hinsert⟩

/-- The same with a byte order mark at the beginning, which stays where it is. -/
theorem widened_of_tokens? (h : Spliced 0 text (ds.map clauseEdit) result)
    (htokens : tokens? text = some tokens) (hds : ∀ d ∈ ds, d.Insertable text tokens)
    (hincreasing : ds.Pairwise fun d e => d.anchor.offset < e.anchor.offset) :
    ∃ tokens', tokens? result = some tokens' ∧ Widened 0 ds tokens tokens' := by
  unfold tokens? at htokens
  split at htokens
  · next rest =>
    have hstart : ∀ e ∈ ds.map clauseEdit, '\ufeff'.utf8Size < e.start :=
      List.forall_mem_map.mpr fun d hd => (hds d hd).lt_offset htokens
    obtain ⟨more, rfl, hmore⟩ := h.exists_cons fun e he => Nat.zero_lt_of_lt (hstart e he)
    rw [Nat.zero_add] at hmore
    have hds' : ∀ d ∈ ds, d.Insertable (['\ufeff'] ++ rest) tokens := hds
    exact widened_of_spliced hmore htokens rfl hds' hincreasing
  · next hmark =>
    have hds' : ∀ d ∈ ds, d.Insertable ([] ++ text) tokens := hds
    obtain ⟨tokens', htokens', hwidened⟩ := widened_of_spliced h htokens rfl hds' hincreasing
    refine ⟨tokens', ?_, hwidened⟩
    unfold tokens?
    split
    · next rest =>
      -- the first character of the text stays
      cases text with
      | nil =>
        cases ds with
        | nil => exact absurd h.splice_eq (by simp [TextEdit.splice])
        | cons d ds =>
          obtain ⟨t, ht, -⟩ := (hds d (List.mem_cons_self ..)).place
          cases htokens
          cases ht
      | cons c text =>
        have hstart : ∀ e ∈ ds.map clauseEdit, 0 < e.start :=
          List.forall_mem_map.mpr fun d hd => (hds d hd).lt_offset htokens
        obtain ⟨more, hmore, -⟩ := h.exists_cons hstart
        obtain ⟨rfl, -⟩ := List.cons.inj hmore
        exact absurd rfl (hmark text)
    · exact htokens'

/-- Where nothing was added to the nested ones, only those at the top were added to. -/
theorem extendedOf_eq_filter (h : ∀ d ∈ ds, ∀ e ∈ preorderAll d.members, e.added = []) :
    extendedOf ds = ds.filter isExtended := by
  induction ds with
  | nil => rfl
  | cons d ds ih =>
    rw [List.forall_mem_cons] at h
    have hnone : (preorderAll d.members).filter isExtended = [] := by
      rw [List.filter_eq_nil_iff]
      intro e he
      rw [isExtended, h.1 e he]
      decide
    rw [extendedOf_cons, ih h.2, extendedOf, preorderAll, preorderAll, List.append_nil]
    rw [Grammar.preorder_eq, List.filter_cons, List.filter_cons, hnone]
    split <;> rfl

end Declaration

/-! ## The file -/

namespace SourceFile

open Declaration

/-- Whether there are no statements at the top of a file, and no annotations among the types in the
headers of the classes there. -/
def isPlain (f : SourceFile) : Bool :=
  ((tokens? f.text.toList).bind treesOf?).all fun trees => trees.all Grammar.isPlainItem

variable {f g : SourceFile}

theorem asReadAll_of_widens {ds es : List Declaration} (h : List.Forall₂ Grammar.Widens ds es) :
    asReadAll es = asReadAll ds := by
  induction h with
  | nil => rfl
  | cons hde _ ih => rw [asReadAll, asReadAll, hde.asRead, ih]

/-- **A plain file is read again where its classes have got interfaces,** if what they have got can be
written and a gap comes next behind each place. -/
theorem exists_savedText (hparsed : parse? f.path f.text = some f) (hplain : f.isPlain = true)
    (hpath : g.path = f.path) (htext : g.text = f.text)
    (htypes : List.Forall₂ Grammar.Widens f.types g.types)
    (hgap : ∀ e ∈ g.types, e.isExtended = true →
      opensGap (Text.dropBytes e.anchor.offset f.text.toList) = true) :
    ∃ text, g.savedText = .ok text ∧ (parse? f.path text).isSome = true := by
  have hanchored : g.Anchored :=
    anchored_of_parse? (by rw [hpath, htext]; exact hparsed) (asReadAll_of_widens htypes)
  obtain ⟨text, hsaved, hsavedAs⟩ := hanchored.savedText
  obtain ⟨-, hincreasing, hspliced, -⟩ := hsavedAs { g with text } rfl rfl
  refine ⟨text, hsaved, ?_⟩
  -- the tokens and the trees of the file
  simp only [parse?, Option.bind_eq_bind, Option.bind_eq_some_iff, Option.pure_def,
    Option.some.injEq] at hparsed
  obtain ⟨tokens, htokens, trees, htrees, hread⟩ := hparsed
  have hdeclared : f.types = Declaration.ofTrees trees := by rw [← hread]; rfl
  have hitems : ∀ t ∈ trees, Grammar.isPlainItem t = true := by
    rw [isPlain, htokens, Option.bind_some, htrees] at hplain
    exact List.all_eq_true.mp hplain
  have hshaped := shaped_of_treesOf? htrees
  obtain ⟨us, next, hparses, hcomments, rfl⟩ := parses_of_treesOf? htrees
  have hmany := hparses.of_call Grammar.fits_ranking
  rw [hdeclared, Grammar.ofTrees_append, Grammar.ofTrees_leaves, List.append_nil] at htypes
  rw [List.forall_mem_append] at hitems hshaped
  -- only classes at the top were added to
  have hextended : extendedOf g.types = g.types.filter isExtended := by
    refine extendedOf_eq_filter fun e he e' he' => ?_
    obtain ⟨d, hd, hde⟩ := exists_left_of_mem htypes he
    rw [hde.members] at he'
    exact added_ofTrees us e' (Grammar.mem_preorderAll hd (by
      rw [Grammar.preorder_eq]
      exact List.mem_cons_of_mem _ he'))
  rw [hextended, htext] at hspliced
  rw [hextended] at hincreasing
  obtain ⟨tokens', htokens', hwidened⟩ := widened_of_tokens? hspliced htokens (by
    intro e he
    rw [List.mem_filter] at he
    obtain ⟨d, hd, hde⟩ := exists_left_of_mem htypes he.1
    obtain ⟨t, ht, hplace⟩ := Grammar.exists_plain_place hmany hitems.1 hd (hde.plain he.2)
    rw [← hde.anchor] at hplace
    exact ⟨he.2, hde.writable, ⟨t, ht, hplace⟩, hgap e he.1 he.2⟩) hincreasing
  obtain ⟨next', hends, hcomments'⟩ := Grammar.items_widened hmany hcomments
    (places_of_tokens? htokens).1 hshaped.1 hitems.1 htypes hwidened
  obtain ⟨trees', htrees'⟩ := Option.isSome_iff_exists.mp
    (isSome_treesOf? (.call hends) hcomments')
  rw [parse?, htokens', Option.bind_eq_bind, Option.bind_some, htrees']
  rfl

end SourceFile

end Java

namespace Retrofit

open Java

variable {store : Store} {catalog : Catalog} {pass : Nat} {f : SourceFile}
  {saved : SourceFile × List Addition}

/-- **What a pass makes of a plain file is read again after it is saved,** if each of the interfaces
that were added has a spelling and a gap comes next behind each place that something is inserted at. -/
theorem saved_reread (hparsed : SourceFile.parse? f.path f.text = some f) (hplain : f.isPlain = true)
    (hfile : file? store catalog pass f = some saved)
    (hnameable : ∀ a ∈ saved.2, a.type.isNameable false = true)
    (hgap : ∀ d ∈ saved.1.types, d.isExtended = true →
      opensGap (Text.dropBytes d.anchor.offset f.text.toList) = true) :
    ∃ text, saved.1.savedText = .ok text ∧ (SourceFile.parse? f.path text).isSome = true := by
  have hread : ∀ d ∈ f.types, d.added = [] :=
    added_of_not_anyModified (SourceFile.isModified_of_parse? hparsed)
  obtain ⟨results, hresults, rfl⟩ := file?_eq_some.mp hfile
  refine SourceFile.exists_savedText hparsed hplain rfl rfl ?_ hgap
  rw [List.forall₂_map_right_iff]
  refine (forall₂_mem hresults).imp ?_
  rintro d result ⟨hd, hresult, hdeclaration⟩
  have hextended := extended_of_declaration? hdeclaration
  have hadded : result.1.added = result.2.map (·.clause) := by
    rw [hextended.declaration, hread d hd, List.nil_append]
  refine ⟨?_, ?_, ?_⟩
  · rw [hextended.declaration]
  · intro hsome
    rw [Declaration.isExtended, hadded, Bool.not_eq_true', List.isEmpty_eq_false_iff, ne_eq,
      List.map_eq_nil_iff] at hsome
    obtain ⟨a, ha⟩ := List.exists_mem_of_ne_nil _ hsome
    exact hextended.kind a ha
  · rw [hadded, List.forall_mem_map]
    intro a ha
    rw [clause_eq_spell hdeclaration ha]
    exact Scope.isWritable_spell _ _ a.type (hnameable a (List.mem_flatMap.mpr ⟨result, hresult, ha⟩))

/-- The class without a member type is read again with the interface it gets. -/
theorem plain_saved_reread : ∃ saved,
    (saved.2 ≠ [] ∧ SourceFile.parse? plainFile.path plainFile.text = some plainFile
      ∧ plainFile.isPlain = true
      ∧ file? (taskLibrary.withSources [plainFile]) ⟨[wantsRun "api.Task"]⟩ 1 plainFile = some saved
      ∧ (∀ a ∈ saved.2, a.type.isNameable false = true)
      ∧ (∀ d ∈ saved.1.types, d.isExtended = true →
        opensGap (Text.dropBytes d.anchor.offset plainFile.text.toList) = true))
    ∧ ∃ text, saved.1.savedText = .ok text
      ∧ (SourceFile.parse? plainFile.path text).isSome = true := by
  have hf : plainFile ∈ [plainFile, nestedFile] := List.mem_cons_self ..
  have hparsed : SourceFile.parse? plainFile.path plainFile.text = some plainFile :=
    parse?_importing plainFile hf
  have hplain : plainFile.isPlain = true := by decide +kernel
  have hfile := file?_of_forall _ fun d hd => declaration_importing hf hd
  have hnameable : ∀ a ∈ plainFile.types.flatMap fun _ => [{
      pass := 1, className := "p.Job", path := "Job.java", type := .raw "api.Task"
      clause := .named "Task" [] : Addition }], a.type.isNameable false = true := by
    decide
  have hgap : ∀ d ∈ plainFile.types.map fun (d : Declaration) =>
      { d with added := d.added ++ [WrittenType.named "Task" []] },
      d.isExtended = true →
      opensGap (Text.dropBytes d.anchor.offset plainFile.text.toList) = true := by
    decide +kernel
  exact ⟨_, ⟨List.cons_ne_nil _ _, hparsed, hplain, hfile, hnameable, hgap⟩,
    saved_reread hparsed hplain hfile hnameable hgap⟩

/-! ## A header without a gap -/

/-- An interface, and a class with nothing between its type parameters and the word that comes
after them. -/
def gaplessFile : SourceFile where
  path := "Job.java"
  text := "interface Task \x7b void run(); \x7d\nsealed class Job<T>permits Chore \x7b\n"
    ++ "  public void run() \x7b\x7d\n\x7d\n"
  package? := none
  imports := []
  types := [
    { kind := .interface, name := "Task", typeParams := [], superclass := none, declared := []
      added := [], members := [], anchor := ⟨14, false⟩
      methods := [{
        name := "run", typeParams := [], params := [], returnType := .void
        isStatic := false, isPrivate := false, isAbstract := true, isDefault := false }] },
    { jobDeclaration with typeParams := [⟨"T", []⟩], anchor := ⟨50, false⟩ }]

/-- The file as it is saved: what was inserted and the word after it are one word. -/
def gaplessSaved : String :=
  "interface Task \x7b void run(); \x7d\nsealed class Job<T> implements Taskpermits Chore \x7b\n"
    ++ "  public void run() \x7b\x7d\n\x7d\n"

theorem parse?_gapless : SourceFile.parse? "Job.java" gaplessFile.text = some gaplessFile
    ∧ SourceFile.parse? "Job.java" gaplessSaved = none := by
  decide +kernel

/-- What the store of the file knows. -/
theorem gapless_facts :
    (Snapshot.storeOf .empty [gaplessFile]).find? "Task"
      = some { name := "Task", kind := .interface, methods := [runMethod true] }
    ∧ (Snapshot.storeOf .empty [gaplessFile]).contains "Job" = true
    ∧ ((Snapshot.storeOf .empty [gaplessFile]).matchClass "Job" (wantsRun "Task")).isSome = true
    ∧ (Snapshot.storeOf .empty [gaplessFile]).ancestors "Job" = .ok [.object]
    ∧ (Snapshot.storeOf .empty [gaplessFile]).assignableWithin 4 (.raw "Task") .object
      = some (.ok false)
    ∧ (gaplessFile.scope (Snapshot.storeOf .empty [gaplessFile])).shortestName
      { typeVars := ["T"] } "Task" = "Task" := by
  decide +kernel

/-- The class gets the interface, and the interface gets nothing. -/
theorem file_gapless : ∃ additions,
    file? (Snapshot.storeOf .empty [gaplessFile]) ⟨[wantsRun "Task"]⟩ 1 gaplessFile
      = some ({ gaplessFile with types := gaplessFile.types.map fun d =>
          if d.kind = .plainClass then { d with added := [.named "Task" []] } else d }, additions) := by
  obtain ⟨-, hcontains, hmatch, hancestors, habove, hshortest⟩ := gapless_facts
  generalize Snapshot.storeOf .empty [gaplessFile] = store at *
  have hshape : ∀ d ∈ gaplessFile.types, d.kind = .plainClass →
      gaplessFile.qualify d.name = "Job" ∧ d.interfaces = []
        ∧ header d = { typeVars := ["T"] } ∧ d.added = [] := by
    decide
  refine ⟨_, (file?_of_forall (fun d =>
    (if d.kind = .plainClass then { d with added := [.named "Task" []] } else d,
      if d.kind = .plainClass then [{ pass := 1, className := "Job", path := "Job.java"
                                      type := .raw "Task", clause := .named "Task" [] }]
      else [])) fun d hd => ?_)⟩
  split
  · next hkind =>
    obtain ⟨hname, hinterfaces, hheader, hadded⟩ := hshape d hd hkind
    have hother : "Task" ≠ gaplessFile.qualify d.name := by
      rw [hname]
      decide
    rw [← hname] at hcontains hmatch hancestors
    rw [← hheader] at hshortest
    rw [declaration_wantsRun ⟨hkind, hcontains⟩ hother hinterfaces hmatch hancestors habove
      hshortest, hadded, hname]
    rfl
  · next hkind => exact declaration?_of_not_known _ _ fun h => hkind h.1

/-- **A file that was retrofitted need not be readable.** The header goes on without a gap where
the interface is inserted. -/
theorem gapless_unreadable : ∃ (index : ClasspathIndex) (descriptors : List InterfaceDescriptor)
    (f : SourceFile) (saved : SourceFile × List Addition) (text : String),
      SourceFile.parse? f.path f.text = some f
      ∧ (∀ i ∈ descriptors, ∃ name origin,
        (Snapshot.storeOf index [f]).describe name origin = some i)
      ∧ file? (Snapshot.storeOf index [f]) (Catalog.ofList descriptors) 1 f = some saved
      ∧ saved.1.savedText = .ok text
      ∧ SourceFile.parse? f.path text = none := by
  have hcatalog : Catalog.ofList [wantsRun "Task"] = ⟨[wantsRun "Task"]⟩ := by
    rw [Catalog.ofList, List.mergeSort_singleton]
  obtain ⟨additions, hfile⟩ := file_gapless
  refine ⟨.empty, [wantsRun "Task"], gaplessFile, _, gaplessSaved, parse?_gapless.1, ?_,
    hcatalog ▸ hfile, ?_, parse?_gapless.2⟩
  · rw [List.forall_mem_singleton]
    exact ⟨_, _, describe_run gapless_facts.1⟩
  · have hsaved : SourceFile.savedText { gaplessFile with types := gaplessFile.types.map fun d =>
        if d.kind = .plainClass then { d with added := [.named "Task" []] } else d }
        = .ok gaplessSaved := by decide +kernel
    exact hsaved

end Retrofit

end Conformance
