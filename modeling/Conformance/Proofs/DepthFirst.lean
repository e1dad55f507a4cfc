import Mathlib.Data.Finset.Max
import Mathlib.Data.Finset.SymmDiff
import Mathlib.Data.List.Infix
import Mathlib.Data.List.Lex
import Conformance.Proofs.Described
import Conformance.Proofs.Reach

/-!
# Visiting interfaces depth first

Which interfaces are visited above an interface, and as uses of which arguments, is said here by
the ways that lead to them. A *chain* is a list of positions: it leads from an interface to one of
those that it extends, from there to one of those that this one extends, and so on. Chains are
ordered like the words of a dictionary, which is the order in which a visit that goes depth first
comes to them.

An interface is visited on the first chain to it that goes on from a visited interface
(`DepthFirst`). This settles on which chains something is visited (`DepthFirst.unique`), and
`interfaceVisits` visits just that, in this order (`exists_depthFirst`). The invariant is one of
the stack: whatever goes on from a chain on it comes before all chains below it on the stack.

Every interface is visited that can be reached (`DepthFirst.reaches`). Where no interface extends
a type variable, arguments make no difference to where a chain leads, and an interface is visited
on the very first chain that leads to it and meets no interface twice (`DepthFirst.first_chain`).
-/

namespace Conformance

namespace Store

/-! ## Chains -/

/-- The use of an interface that a chain leads to: each position says which of the interfaces that
the one before extends comes next. -/
def useOn? (store : Store) (start : String × Substitution) :
    List Nat → Option (String × Substitution)
  | [] => some start
  | position :: chain => do
    let d ← store.find? start.1
    let next ← (store.superInterfaceUses d start.2)[position]?
    store.useOn? next chain

/-- The stored interface that a chain leads to, with what its type parameters stand for. -/
def metOn? (store : Store) (start : String × Substitution) (chain : List Nat) :
    Option (ClassDef × Substitution) :=
  (store.useOn? start chain).bind fun use => (store.find? use.1).map (·, use.2)

/-- The name of the stored interface that a chain leads to. -/
def nameOn? (store : Store) (start : String × Substitution) (chain : List Nat) : Option String :=
  (store.metOn? start chain).map (·.1.name)

/-- A chain that may be taken: one to begin with, or one that goes on from a chain taken. -/
def Candidate (starts taken : List (List Nat)) (chain : List Nat) : Prop :=
  chain ∈ starts ∨ ∃ front ∈ taken, ∃ position, chain = front ++ [position]

/-- The chains on which a visit that goes depth first comes to interfaces that it did not see
before. -/
structure DepthFirst (store : Store) (start : String × Substitution) (seen : List String)
    (starts taken : List (List Nat)) : Prop where
  ordered : taken.Pairwise (· < ·)
  candidates : ∀ chain ∈ taken, Candidate starts taken chain
  leads : ∀ chain ∈ taken, ∃ name, store.nameOn? start chain = some name ∧ name ∉ seen
  distinct : ∀ chain ∈ taken, ∀ other ∈ taken,
    store.nameOn? start chain = store.nameOn? start other → chain = other
  /-- What a chain that may be taken leads to is visited by then. -/
  first : ∀ chain, Candidate starts taken chain → ∀ name, store.nameOn? start chain = some name →
    name ∉ seen → ∃ other ∈ taken, other ≤ chain ∧ store.nameOn? start other = some name

/-- The use of an interface where it is described: its type parameters stand for themselves. -/
def ownUse (name : String) : String × Substitution := (name, fun _ => none)

/-- The chains on which the interfaces above an interface, and the interface itself, are visited
when it is described. -/
def VisitedOn (store : Store) (name : String) (taken : List (List Nat)) : Prop :=
  store.DepthFirst (ownUse name) [] [[]] taken

variable {store : Store} {start : String × Substitution} {seen : List String}
  {starts taken : List (List Nat)}

theorem useOn?_append (store : Store) (start : String × Substitution) (chain : List Nat)
    (position : Nat) : store.useOn? start (chain ++ [position])
      = (store.metOn? start chain).bind fun met =>
          (store.superInterfaceUses met.1 met.2)[position]? := by
  induction chain generalizing start with
  | nil =>
    rw [List.nil_append, useOn?, metOn?, useOn?, Option.bind_some]
    cases store.find? start.1 with
    | none => rfl
    | some d =>
      simp only [useOn?, Option.bind_eq_bind, Option.bind_some, Option.map_some]
      cases (store.superInterfaceUses d start.2)[position]? <;> rfl
  | cons first chain ih =>
    rw [List.cons_append, useOn?, metOn?, useOn?]
    cases store.find? start.1 with
    | none => rfl
    | some d =>
      simp only [Option.bind_eq_bind, Option.bind_some]
      cases (store.superInterfaceUses d start.2)[first]? with
      | none => rfl
      | some next => exact ih next

theorem nameOn?_eq_some {chain : List Nat} {name : String} :
    store.nameOn? start chain = some name
      ↔ ∃ s d, store.useOn? start chain = some (name, s) ∧ store.find? name = some d := by
  simp only [nameOn?, metOn?, Option.map_eq_some_iff, Option.bind_eq_some_iff]
  constructor
  · rintro ⟨met, ⟨use, huse, d, hd, rfl⟩, rfl⟩
    exact ⟨use.2, d, by rw [huse, name_of_find? hd], (name_of_find? hd).symm ▸ hd⟩
  · rintro ⟨s, d, huse, hd⟩
    exact ⟨(d, s), ⟨(name, s), huse, d, hd, rfl⟩, name_of_find? hd⟩

theorem metOn?_of_useOn? {chain : List Nat} {use : String × Substitution} {d : ClassDef}
    (h : store.useOn? start chain = some use) (hd : store.find? use.1 = some d) :
    store.metOn? start chain = some (d, use.2) := by
  rw [metOn?, h, Option.bind_some, hd, Option.map_some]

theorem nameOn?_of_useOn? {chain : List Nat} {use : String × Substitution} {name : String}
    (h : store.useOn? start chain = some use) (hname : store.nameOn? start chain = some name) :
    name = use.1 ∧ ∃ d, store.find? use.1 = some d := by
  obtain ⟨s, d, huse, hd⟩ := nameOn?_eq_some.mp hname
  rw [h, Option.some.injEq] at huse
  subst huse
  exact ⟨rfl, d, hd⟩

/-- A chain that leads to something met a stored interface before its last step. -/
theorem exists_useOn?_front {chain : List Nat} {position : Nat} {name : String}
    (h : store.nameOn? start (chain ++ [position]) = some name) :
    ∃ below s d s', store.useOn? start chain = some (below, s) ∧ store.find? below = some d
      ∧ (store.superInterfaceUses d s)[position]? = some (name, s') := by
  obtain ⟨s', -, huse, -⟩ := nameOn?_eq_some.mp h
  rw [useOn?_append, Option.bind_eq_some_iff] at huse
  obtain ⟨met, hmet, hposition⟩ := huse
  rw [metOn?, Option.bind_eq_some_iff] at hmet
  obtain ⟨use, huse, hmet⟩ := hmet
  obtain ⟨d, hd, rfl⟩ := Option.map_eq_some_iff.mp hmet
  exact ⟨use.1, use.2, d, s', huse, hd, hposition⟩

theorem useOn?_step {chain : List Nat} {position : Nat} {use next : String × Substitution}
    {d : ClassDef} (h : store.useOn? start chain = some use) (hd : store.find? use.1 = some d)
    (hnext : (store.superInterfaceUses d use.2)[position]? = some next) :
    store.useOn? start (chain ++ [position]) = some next := by
  rw [useOn?_append, metOn?_of_useOn? h hd, Option.bind_some, hnext]

/-! ## The order of chains -/

theorem lt_append {chain more : List Nat} (h : more ≠ []) : chain < chain ++ more := by
  have : chain ++ [] < chain ++ more.head h :: more.tail :=
    List.append_left_lt (List.nil_lt_cons ..)
  rwa [List.append_nil, List.cons_head_tail] at this

theorem le_append (chain more : List Nat) : chain ≤ chain ++ more := by
  by_cases h : more = []
  · rw [h, List.append_nil]
  · exact le_of_lt (lt_append h)

/-- What goes on from a chain comes before what goes on from a later one that is no continuation
of it. -/
theorem append_lt_append {chain other : List Nat} (h : chain < other) (hpre : ¬ chain <+: other)
    (more rest : List Nat) : chain ++ more < other ++ rest := by
  induction chain generalizing other with
  | nil => exact absurd List.nil_prefix hpre
  | cons position chain ih =>
    cases other with
    | nil => simp at h
    | cons position' other =>
      rw [List.cons_append, List.cons_append, List.cons_lt_cons_iff]
      rcases List.cons_lt_cons_iff.mp h with hlt | ⟨rfl, hlt⟩
      · exact .inl hlt
      · refine .inr ⟨rfl, ih hlt fun hchain => hpre ?_⟩
        exact (List.prefix_cons_inj _).mpr hchain

/-- Whatever goes on from the first chain comes before the other one. -/
def Ahead (chain other : List Nat) : Prop := ∀ more, chain ++ more < other

theorem Ahead.lt {chain other : List Nat} (h : Ahead chain other) : chain < other := by
  have hchain := h []
  rwa [List.append_nil] at hchain

theorem Ahead.append {chain other : List Nat} (h : Ahead chain other) (more : List Nat) :
    Ahead (chain ++ more) other := by
  intro rest
  rw [List.append_assoc]
  exact h _

theorem ahead_of_lt (chain : List Nat) {i j : Nat} (h : i < j) :
    Ahead (chain ++ [i]) (chain ++ [j]) := by
  intro more
  rw [List.append_assoc]
  exact List.append_left_lt (List.cons_lt_cons_iff.mpr (.inl h))

/-! ## The chains of a visit -/

namespace DepthFirst

theorem exists_start (h : store.DepthFirst start seen starts taken) {chain : List Nat}
    (hchain : chain ∈ taken) : ∃ front ∈ starts, front <+: chain := by
  induction hlength : chain.length generalizing chain with
  | zero =>
    rcases h.candidates chain hchain with hstart | ⟨front, -, position, rfl⟩
    · exact ⟨chain, hstart, List.prefix_refl _⟩
    · simp at hlength
  | succ n ih =>
    rcases h.candidates chain hchain with hstart | ⟨front, hfront, position, rfl⟩
    · exact ⟨chain, hstart, List.prefix_refl _⟩
    · obtain ⟨first, hfirst, hpre⟩ := ih hfront (by simpa using hlength)
      exact ⟨first, hfirst, hpre.trans (List.prefix_append ..)⟩

/-- A chain on which something is visited comes to visited interfaces only, each once. -/
theorem front_mem (h : store.DepthFirst start seen [[]] taken) {chain front : List Nat}
    (hchain : chain ∈ taken) (hfront : front <+: chain) : front ∈ taken := by
  obtain ⟨more, rfl⟩ := hfront
  induction more using List.reverseRecOn with
  | nil => rwa [List.append_nil] at hchain
  | append_singleton more position ih =>
    rw [← List.append_assoc] at hchain
    rcases h.candidates _ hchain with hstart | ⟨other, hother, position', heq⟩
    · simp at hstart
    · rw [List.append_inj_left' heq rfl] at ih
      exact ih hother

/-- What is visited on a chain is so in every visit that agrees on the chains before it. -/
theorem mem_of_agree {taken' : List (List Nat)} (h : store.DepthFirst start seen [[]] taken)
    (h' : store.DepthFirst start seen [[]] taken') {chain : List Nat} (hchain : chain ∈ taken)
    (hagree : ∀ other < chain, other ∈ taken ↔ other ∈ taken') : chain ∈ taken' := by
  obtain ⟨name, hname, hfresh⟩ := h.leads chain hchain
  have hcandidate : Candidate [[]] taken' chain := by
    rcases h.candidates chain hchain with hstart | ⟨front, hfront, position, rfl⟩
    · exact .inl hstart
    · exact .inr ⟨front, (hagree front (lt_append (by simp))).mp hfront, position, rfl⟩
  obtain ⟨other, hother, hle, hsame⟩ := h'.first chain hcandidate name hname hfresh
  rcases hle.lt_or_eq with hlt | rfl
  · -- an earlier chain to the same interface would have been taken in both
    have := h.distinct other ((hagree other hlt).mpr hother) chain hchain (hsame.trans hname.symm)
    exact absurd this hlt.ne
  · exact hother

/-- There is one way only to visit depth first. -/
theorem unique {taken' : List (List Nat)} (h : store.DepthFirst start seen [[]] taken)
    (h' : store.DepthFirst start seen [[]] taken') : taken = taken' := by
  have hmem : ∀ chain, chain ∈ taken ↔ chain ∈ taken' := by
    by_contra hne
    -- the first chain on which the two differ
    have hnonempty : (symmDiff taken.toFinset taken'.toFinset).Nonempty := by
      rw [Finset.nonempty_iff_ne_empty]
      intro hempty
      refine hne fun chain => ?_
      rw [← List.mem_toFinset, ← List.mem_toFinset, symmDiff_eq_bot.mp hempty]
    obtain ⟨chain, hdiffers, hleast⟩ := Finset.exists_min_image _ id hnonempty
    have hagree : ∀ other < chain, other ∈ taken ↔ other ∈ taken' := by
      intro other hlt
      by_contra hother
      refine absurd (hleast other ?_) hlt.not_ge
      simp only [Finset.mem_symmDiff, List.mem_toFinset]
      tauto
    simp only [Finset.mem_symmDiff, List.mem_toFinset] at hdiffers
    rcases hdiffers with ⟨hin, hout⟩ | ⟨hin, hout⟩
    · exact hout (h.mem_of_agree h' hin hagree)
    · exact hout (h'.mem_of_agree h hin fun other hlt => (hagree other hlt).symm)
  have hperm : taken.Perm taken' :=
    (List.perm_ext_iff_of_nodup (h.ordered.imp ne_of_lt) (h'.ordered.imp ne_of_lt)).mpr hmem
  exact hperm.eq_of_pairwise (fun a b _ _ hab hba => absurd (hab.trans hba) (lt_irrefl _))
    h.ordered h'.ordered

end DepthFirst

/-! ## The visit -/

/-- The chains to the interfaces above what a chain leads to. -/
def chainsAbove (store : Store) (d : ClassDef) (s : Substitution) (chain : List Nat) :
    List (List Nat × (String × Substitution)) :=
  (store.superInterfaceUses d s).mapIdx fun position use => (chain ++ [position], use)

/-- The stack of a visit, each interface on it with the chain that leads there. -/
structure OnChains (store : Store) (start : String × Substitution)
    (stack : List (List Nat × (String × Substitution))) : Prop where
  leads : ∀ e ∈ stack, store.useOn? start e.1 = some e.2
  ahead : stack.Pairwise fun e e' => Ahead e.1 e'.1

theorem OnChains.tail {e : List Nat × (String × Substitution)}
    {stack : List (List Nat × (String × Substitution))}
    (h : store.OnChains start (e :: stack)) : store.OnChains start stack :=
  ⟨fun e' he' => h.leads e' (List.mem_cons_of_mem _ he'), (List.pairwise_cons.mp h.ahead).2⟩

/-- The chain on top of a stack comes before the others with all that goes on from it. -/
theorem OnChains.ahead_of_mem {e : List Nat × (String × Substitution)}
    {stack : List (List Nat × (String × Substitution))} (h : store.OnChains start (e :: stack))
    {other : List Nat} (hother : other ∈ stack.map Prod.fst) : Ahead e.1 other := by
  obtain ⟨e', he', rfl⟩ := List.mem_map.mp hother
  exact (List.pairwise_cons.mp h.ahead).1 e' he'

theorem mem_chainsAbove {d : ClassDef} {s : Substitution} {chain : List Nat}
    {e : List Nat × (String × Substitution)} (he : e ∈ store.chainsAbove d s chain) :
    ∃ position, e.1 = chain ++ [position]
      ∧ (store.superInterfaceUses d s)[position]? = some e.2 := by
  obtain ⟨position, hposition, rfl⟩ := List.mem_mapIdx.mp he
  exact ⟨position, rfl, List.getElem?_eq_getElem hposition⟩

/-- The interface on top of the stack gives way to those that it extends. -/
theorem OnChains.push {chain : List Nat} {name : String} {s : Substitution} {d : ClassDef}
    {stack : List (List Nat × (String × Substitution))}
    (h : store.OnChains start ((chain, (name, s)) :: stack)) (hd : store.find? name = some d) :
    store.OnChains start (store.chainsAbove d s chain ++ stack) := by
  have huse : store.useOn? start chain = some (name, s) := h.leads _ (List.mem_cons_self ..)
  constructor
  · intro e he
    rcases List.mem_append.mp he with he | he
    · obtain ⟨position, hchain, hposition⟩ := mem_chainsAbove he
      rw [hchain]
      exact useOn?_step huse hd hposition
    · exact h.leads e (List.mem_cons_of_mem _ he)
  · refine List.pairwise_append.mpr ⟨?_, (List.pairwise_cons.mp h.ahead).2, fun e he e' he' => ?_⟩
    · rw [List.pairwise_iff_getElem]
      intro i j hi hj hij
      simp only [chainsAbove, List.getElem_mapIdx]
      exact ahead_of_lt chain hij
    · obtain ⟨position, hchain, -⟩ := mem_chainsAbove he
      rw [hchain]
      exact ((List.pairwise_cons.mp h.ahead).1 e' he').append _

/-- A visit passes over an interface that it saw before or that is not stored. -/
theorem DepthFirst.skip {chain : List Nat} {seen' : List String}
    (h : store.DepthFirst start seen' starts taken) (hsub : ∀ n, n ∈ seen → n ∈ seen')
    (hsaw : ∀ name, store.nameOn? start chain = some name → name ∈ seen)
    (hnew : ∀ c name, store.nameOn? start c = some name → name ∈ seen' → name ∈ seen) :
    store.DepthFirst start seen (chain :: starts) taken where
  ordered := h.ordered
  candidates := by
    intro c hc
    exact (h.candidates c hc).imp_left (List.mem_cons_of_mem _)
  leads := by
    intro c hc
    obtain ⟨name, hname, hfresh⟩ := h.leads c hc
    exact ⟨name, hname, fun hseen => hfresh (hsub name hseen)⟩
  distinct := h.distinct
  first := by
    intro c hc name hname hfresh
    have hcandidate : Candidate starts taken c := by
      rcases hc with hstart | htaken
      · rcases List.mem_cons.mp hstart with rfl | hstart
        · exact absurd (hsaw name hname) hfresh
        · exact .inl hstart
      · exact .inr htaken
    exact h.first c hcandidate name hname fun hseen => hfresh (hnew c name hname hseen)

section Enter

variable {chain : List Nat} {name : String} {s : Substitution} {d : ClassDef}
  {stack : List (List Nat × (String × Substitution))}

theorem exists_position {front : List Nat}
    (h : front ∈ (store.chainsAbove d s chain).map Prod.fst) :
    ∃ position, front = chain ++ [position] := by
  obtain ⟨e, he, rfl⟩ := List.mem_map.mp h
  obtain ⟨position, hchain, -⟩ := mem_chainsAbove he
  exact ⟨position, hchain⟩

/-- All that is visited after the interface on top of the stack is on later chains. -/
theorem OnChains.lt_of_mem (hstack : store.OnChains start ((chain, (name, s)) :: stack))
    (h : store.DepthFirst start seen ((store.chainsAbove d s chain ++ stack).map Prod.fst) taken)
    {other : List Nat} (hother : other ∈ taken) : chain < other := by
  obtain ⟨front, hfront, more, rfl⟩ := h.exists_start hother
  rw [List.map_append, List.mem_append] at hfront
  refine lt_of_lt_of_le ?_ (le_append front more)
  rcases hfront with hfront | hfront
  · obtain ⟨position, rfl⟩ := exists_position hfront
    exact lt_append (by simp)
  · exact (hstack.ahead_of_mem hfront).lt

/-- A chain that may be taken after those on a stack gave way may be taken from the stack. -/
theorem Candidate.of_push {c : List Nat}
    (h : Candidate ((store.chainsAbove d s chain ++ stack).map Prod.fst) taken c) :
    Candidate (chain :: stack.map Prod.fst) (chain :: taken) c := by
  rcases h with hstart | ⟨front, hfront, position, rfl⟩
  · rw [List.map_append, List.mem_append] at hstart
    rcases hstart with hstart | hstart
    · obtain ⟨position, rfl⟩ := exists_position hstart
      exact .inr ⟨chain, List.mem_cons_self .., position, rfl⟩
    · exact .inl (List.mem_cons_of_mem _ hstart)
  · exact .inr ⟨front, List.mem_cons_of_mem _ hfront, position, rfl⟩

/-- A chain that may be taken from a stack leads to the interface on top of it or may be taken
after that one gave way to those that it extends. -/
theorem OnChains.candidate_push (hstack : store.OnChains start ((chain, (name, s)) :: stack))
    (hd : store.find? name = some d) {c : List Nat} {n : String}
    (h : Candidate (chain :: stack.map Prod.fst) (chain :: taken) c)
    (hn : store.nameOn? start c = some n) (hne : n ≠ name) :
    Candidate ((store.chainsAbove d s chain ++ stack).map Prod.fst) taken c := by
  have huse : store.useOn? start chain = some (name, s) := hstack.leads _ (List.mem_cons_self ..)
  rw [List.map_append]
  rcases h with hstart | ⟨front, hfront, position, rfl⟩
  · rcases List.mem_cons.mp hstart with rfl | hstart
    · exact absurd (nameOn?_of_useOn? huse hn).1 hne
    · exact .inl (List.mem_append_right _ hstart)
  · rcases List.mem_cons.mp hfront with rfl | hfront
    · -- the next step leads to an interface that this one extends
      obtain ⟨below, t, e, s', hbelow, he, hposition⟩ := exists_useOn?_front hn
      obtain ⟨rfl, rfl⟩ := Prod.mk.inj (Option.some.inj (huse.symm.trans hbelow))
      obtain rfl := Option.some.inj (hd.symm.trans he)
      refine .inl (List.mem_append_left _ (List.mem_map.mpr
        ⟨(front ++ [position], (n, s')), ?_, rfl⟩))
      obtain ⟨hlt, hget⟩ := List.getElem?_eq_some_iff.mp hposition
      exact List.mem_mapIdx.mpr ⟨position, hlt, by rw [hget]⟩
    · exact .inr ⟨front, hfront, position, rfl⟩

/-- No chain that may be taken comes before one that is ahead of all others. -/
theorem Candidate.le {c : List Nat} (h : Candidate (chain :: starts) (chain :: taken) c)
    (hstarts : ∀ other ∈ starts, chain < other) (htaken : ∀ other ∈ taken, chain < other) :
    chain ≤ c := by
  rcases h with hstart | ⟨front, hfront, position, rfl⟩
  · rcases List.mem_cons.mp hstart with rfl | hstart
    · exact le_refl _
    · exact (hstarts c hstart).le
  · refine le_trans ?_ (le_append front [position])
    rcases List.mem_cons.mp hfront with rfl | hfront
    · exact le_refl _
    · exact (htaken front hfront).le

/-- What is visited from an interface on comes before what is visited later. -/
theorem DepthFirst.enter
    (h : store.DepthFirst start (name :: seen)
      ((store.chainsAbove d s chain ++ stack).map Prod.fst) taken)
    (hstack : store.OnChains start ((chain, (name, s)) :: stack)) (hd : store.find? name = some d)
    (hfresh : name ∉ seen) :
    store.DepthFirst start seen (chain :: stack.map Prod.fst) (chain :: taken) := by
  have hname : store.nameOn? start chain = some name :=
    nameOn?_eq_some.mpr ⟨s, d, hstack.leads _ (List.mem_cons_self ..), hd⟩
  have hless : ∀ other ∈ taken, chain < other := fun other hother => hstack.lt_of_mem h hother
  -- nothing that is visited later has the name again
  have hother : ∀ c ∈ taken, store.nameOn? start c ≠ some name := by
    intro c hc hsame
    obtain ⟨n, hn, hnot⟩ := h.leads c hc
    rw [hsame, Option.some.injEq] at hn
    exact hnot (hn ▸ List.mem_cons_self ..)
  refine ⟨List.pairwise_cons.mpr ⟨hless, h.ordered⟩, ?_, ?_, ?_, ?_⟩
  · rw [List.forall_mem_cons]
    exact ⟨.inl (List.mem_cons_self ..), fun c hc => (h.candidates c hc).of_push⟩
  · rw [List.forall_mem_cons]
    refine ⟨⟨name, hname, hfresh⟩, fun c hc => ?_⟩
    obtain ⟨n, hn, hnot⟩ := h.leads c hc
    exact ⟨n, hn, fun hseen => hnot (List.mem_cons_of_mem _ hseen)⟩
  · intro c hc c' hc' hsame
    rcases List.mem_cons.mp hc with rfl | hin <;> rcases List.mem_cons.mp hc' with rfl | hin'
    · rfl
    · exact absurd (hsame.symm.trans hname) (hother c' hin')
    · exact absurd (hsame.trans hname) (hother c hin)
    · exact h.distinct c hin c' hin' hsame
  · intro c hc n hn hnot
    by_cases hsame : n = name
    · exact ⟨chain, List.mem_cons_self ..,
        hc.le (fun other hother => (hstack.ahead_of_mem hother).lt) hless, hsame ▸ hname⟩
    · obtain ⟨other, hother, hle, hleads⟩ := h.first c (hstack.candidate_push hd hc hn hsame) n hn
        fun hseen => (List.mem_cons.mp hseen).elim hsame hnot
      exact ⟨other, List.mem_cons_of_mem _ hother, hle, hleads⟩

end Enter

/-- The interfaces that are visited from a stack on are those on the chains of a visit that goes
depth first. -/
theorem exists_chains (seen : List String) (uses : List (String × Substitution))
    (stack : List (List Nat × (String × Substitution))) (huses : stack.map Prod.snd = uses)
    (hstack : store.OnChains start stack) :
    ∃ taken, store.DepthFirst start seen (stack.map Prod.fst) taken
      ∧ (store.interfaceVisits seen uses).map some = taken.map (store.metOn? start) := by
  fun_induction interfaceVisits store seen uses generalizing stack with
  | case1 seen =>
    rw [List.map_eq_nil_iff] at huses
    subst huses
    exact ⟨[], ⟨.nil, nofun, nofun, nofun, by simp [Candidate]⟩, rfl⟩
  | case2 seen name s uses hsaw ih =>
    obtain ⟨⟨chain, use⟩, stack, rfl, rfl, rfl⟩ := List.map_eq_cons_iff.mp huses
    obtain ⟨taken, htaken, hvisits⟩ := ih _ rfl hstack.tail
    refine ⟨taken, htaken.skip (fun _ h => h) (fun n hn => ?_) (fun _ _ _ h => h), hvisits⟩
    exact (nameOn?_of_useOn? (hstack.leads _ (List.mem_cons_self ..)) hn).1 ▸ hsaw
  | case3 seen name s uses hfresh hunknown ih =>
    obtain ⟨⟨chain, use⟩, stack, rfl, rfl, rfl⟩ := List.map_eq_cons_iff.mp huses
    obtain ⟨taken, htaken, hvisits⟩ := ih _ rfl hstack.tail
    refine ⟨taken, htaken.skip (fun _ h => List.mem_cons_of_mem _ h) (fun n hn => ?_) ?_, hvisits⟩
    · obtain ⟨-, d, hd⟩ := nameOn?_of_useOn? (hstack.leads _ (List.mem_cons_self ..)) hn
      rw [hunknown] at hd
      cases hd
    · intro c n hn hseen
      obtain ⟨s', d, -, hd⟩ := nameOn?_eq_some.mp hn
      rcases List.mem_cons.mp hseen with rfl | hseen
      · rw [hunknown] at hd
        cases hd
      · exact hseen
  | case4 seen name s uses hfresh d hd ih =>
    obtain ⟨⟨chain, use⟩, stack, rfl, rfl, rfl⟩ := List.map_eq_cons_iff.mp huses
    have habove : (store.chainsAbove d s chain ++ stack).map Prod.snd
        = store.superInterfaceUses d s ++ stack.map Prod.snd := by
      rw [List.map_append, chainsAbove, List.append_cancel_right_eq]
      exact List.ext_getElem (by simp) (by simp)
    obtain ⟨taken, htaken, hvisits⟩ := ih _ habove (hstack.push hd)
    refine ⟨chain :: taken, htaken.enter hstack hd hfresh, ?_⟩
    rw [List.map_cons, List.map_cons, hvisits,
      metOn?_of_useOn? (hstack.leads _ (List.mem_cons_self ..)) hd]

/-- An interface is described by a visit that goes depth first. -/
theorem exists_depthFirst (store : Store) (name : String) :
    ∃ taken, store.VisitedOn name taken
      ∧ (store.interfaceVisits [] [ownUse name]).map some
        = taken.map (store.metOn? (ownUse name)) :=
  exists_chains [] [ownUse name] [([], ownUse name)] rfl
    ⟨by simp [useOn?], List.pairwise_singleton ..⟩

/-! ## What is visited, and on which chain -/

/-- No interface extends a type variable, as no source file can have it. -/
def ExtendsTypes (store : Store) : Prop :=
  ∀ name d, store.find? name = some d → ∀ t ∈ d.interfaces, ∀ x, t ≠ .typeVar x

/-- A chain that meets no interface twice. -/
def Simple (store : Store) (start : String × Substitution) (chain : List Nat) : Prop :=
  ∀ front front' : List Nat, front <+: chain → front' <+: chain →
    store.nameOn? start front = store.nameOn? start front' → front = front'

/-- The interfaces above a use have the names that the definition gives. -/
theorem map_fst_superInterfaceUses {d : ClassDef} (h : ∀ t ∈ d.interfaces, ∀ x, t ≠ .typeVar x)
    (s : Substitution) :
    (store.superInterfaceUses d s).map Prod.fst = d.interfaces.filterMap JavaType.className? := by
  rw [superInterfaceUses, List.map_filterMap]
  refine List.filterMap_congr fun t ht => ?_
  cases t with
  | typeVar x => exact absurd rfl (h _ ht x)
  | _ => simp [JavaType.substitute, JavaType.className?]

/-- An interface that is extended is among those above each use. -/
theorem exists_superInterfaceUse (store : Store) {d : ClassDef} {above : String}
    (h : above ∈ d.interfaces.filterMap JavaType.className?) (s : Substitution) :
    ∃ (position : Nat) (s' : Substitution),
      (store.superInterfaceUses d s)[position]? = some (above, s') := by
  obtain ⟨t, ht, hname⟩ := List.mem_filterMap.mp h
  cases t with
  | classType name arguments =>
    rw [JavaType.className?, Option.some.injEq] at hname
    subst hname
    have hmem : ∃ s', (name, s') ∈ store.superInterfaceUses d s :=
      ⟨_, List.mem_filterMap.mpr ⟨_, ht, rfl⟩⟩
    obtain ⟨s', hmem⟩ := hmem
    obtain ⟨position, hposition⟩ := List.getElem?_of_mem hmem
    exact ⟨position, s', hposition⟩
  | _ => cases hname

/-- Where no type variable is extended, a step from an interface leads to the same name whatever
the chain that led there. -/
theorem ExtendsTypes.nameOn?_step (htypes : store.ExtendsTypes) {chain other : List Nat}
    {position : Nat} {name : String} (h : store.nameOn? start (chain ++ [position]) = some name)
    (hsame : store.nameOn? start other = store.nameOn? start chain) :
    store.nameOn? start (other ++ [position]) = some name := by
  obtain ⟨below, s, d, s', huse, hd, hposition⟩ := exists_useOn?_front h
  rw [nameOn?_eq_some.mpr ⟨s, d, huse, hd⟩, nameOn?_eq_some] at hsame
  obtain ⟨t, e, huse', he⟩ := hsame
  obtain rfl := Option.some.inj (hd.symm.trans he)
  have hnames : ((store.superInterfaceUses d t).map Prod.fst)[position]? = some name := by
    rw [map_fst_superInterfaceUses (htypes below d hd),
      ← map_fst_superInterfaceUses (htypes below d hd) s, List.getElem?_map, hposition]
    rfl
  rw [List.getElem?_map, Option.map_eq_some_iff] at hnames
  obtain ⟨⟨_, t'⟩, hposition', rfl⟩ := hnames
  obtain ⟨-, e, -, he⟩ := nameOn?_eq_some.mp h
  exact nameOn?_eq_some.mpr ⟨t', e, useOn?_step huse' hd hposition', he⟩

namespace DepthFirst

variable (h : store.DepthFirst start [] [[]] taken)
include h

/-- Whatever can be reached through stored definitions is visited. -/
theorem reaches {name : String} {d : ClassDef}
    (hreach : Relation.ReflTransGen store.Extends start.1 name) (hd : store.find? name = some d) :
    ∃ chain ∈ taken, store.nameOn? start chain = some name := by
  induction hreach generalizing d with
  | refl =>
    obtain ⟨chain, hchain, -, hname⟩ := h.first [] (.inl (List.mem_singleton_self _)) start.1
      (nameOn?_eq_some.mpr ⟨start.2, d, rfl, hd⟩) List.not_mem_nil
    exact ⟨chain, hchain, hname⟩
  | @tail below above _ hextends ih =>
    obtain ⟨d', hd', habove⟩ := hextends
    obtain ⟨chain, hchain, hname⟩ := ih hd'
    obtain ⟨s, e, huse, he⟩ := nameOn?_eq_some.mp hname
    obtain ⟨position, s', hposition⟩ := exists_superInterfaceUse store habove s
    have hnext : store.nameOn? start (chain ++ [position]) = some above :=
      nameOn?_eq_some.mpr ⟨s', d, useOn?_step huse hd' hposition, hd⟩
    obtain ⟨other, hother, -, hsame⟩ :=
      h.first _ (.inr ⟨chain, hchain, position, rfl⟩) above hnext List.not_mem_nil
    exact ⟨other, hother, hsame⟩

theorem simple_of_mem {chain : List Nat} (hchain : chain ∈ taken) : store.Simple start chain :=
  fun front front' hfront hfront' hsame =>
    h.distinct front (h.front_mem hchain hfront) front' (h.front_mem hchain hfront') hsame

/-- An interface is visited on the first of all chains that lead to it and meet none twice. -/
theorem first_chain (htypes : store.ExtendsTypes) {chain : List Nat} {name : String}
    (hsimple : store.Simple start chain) (hname : store.nameOn? start chain = some name) :
    ∃ other ∈ taken, other ≤ chain ∧ store.nameOn? start other = some name := by
  induction chain using List.reverseRecOn generalizing name with
  | nil => exact h.first [] (.inl (List.mem_singleton_self _)) name hname List.not_mem_nil
  | append_singleton front position ih =>
    have hpre : front <+: front ++ [position] := List.prefix_append ..
    obtain ⟨below, s, d, -, huse, hd, -⟩ := exists_useOn?_front hname
    have hbelow : store.nameOn? start front = some below := nameOn?_eq_some.mpr ⟨s, d, huse, hd⟩
    obtain ⟨other, hother, hle, hsame⟩ := ih
      (fun r r' hr hr' => hsimple r r' (hr.trans hpre) (hr'.trans hpre)) hbelow
    rw [← hbelow] at hsame
    obtain ⟨first, hfirst, hbefore, hleads⟩ := h.first _ (.inr ⟨other, hother, position, rfl⟩) name
      (htypes.nameOn?_step hname hsame) List.not_mem_nil
    refine ⟨first, hfirst, hbefore.trans ?_, hleads⟩
    rcases hle.lt_or_eq with hlt | rfl
    · -- a chain that comes to the interface again is not simple
      have hnot : ¬ other <+: front := fun hother =>
        hlt.ne (hsimple other front (hother.trans hpre) hpre hsame)
      exact (append_lt_append hlt hnot [position] [position]).le
    · exact le_refl _

end DepthFirst

end Store

end Conformance
