import Mathlib.Algebra.Order.Group.Int
import Mathlib.Data.Option.Defs
import Conformance.Proofs.Depth

/-!
# What stands in brackets

The rules of the grammar take brackets in pairs: a rule that takes an opening one goes on to the closing
one before it ends, and no rule takes a closing bracket that it has not opened (`Rule.after?`). So
what is tried between a bracket and its partner stays between them, whether it matches or not, and
does not depend on anything that follows (`Ends.beside`).

This is said of what is tried, not only of what is taken in the end, because a rule may read far
ahead before it turns out not to match: a cast looks like an expression in brackets, and the
parameters of a lambda like the arguments of a call.
-/

namespace Conformance.Java

/-! ## Pairs of brackets -/

def openings : List String := ["(", "\x7b"]

def closings : List String := [")", "\x7d"]

/-- What a token adds to the number of open brackets. -/
def Token.weight (t : Token) : Int :=
  if t.kind ≠ .symbol then 0
  else if openings.contains t.text then 1
  else if closings.contains t.text then -1
  else 0

/-- How many more brackets some tokens open than they close. -/
def excess : List Token → Int
  | [] => 0
  | t :: ts => t.weight + excess ts

theorem excess_append (ts us : List Token) : excess (ts ++ us) = excess ts + excess us := by
  induction ts with
  | nil => exact (zero_add _).symm
  | cons t ts ih => rw [List.cons_append, excess, excess, ih, add_assoc]

theorem weight_of_isComment {t : Token} (h : t.isComment = true) : t.weight = 0 := by
  rw [Token.isComment, decide_eq_true_iff] at h
  rw [Token.weight, h, if_pos (by decide)]

theorem excess_comments {ts : List Token} (h : ∀ t ∈ ts, t.isComment = true) : excess ts = 0 := by
  induction ts with
  | nil => rfl
  | cons t ts ih =>
    rw [List.forall_mem_cons] at h
    rw [excess, weight_of_isComment h.1, ih h.2]
    rfl

/-- Comments in front open and close nothing. -/
theorem excess_dropWhile (ts : List Token) : excess (ts.dropWhile Token.isComment) = excess ts := by
  have hsplit := List.takeWhile_append_dropWhile (p := Token.isComment) (l := ts)
  rw [← congrArg excess hsplit, excess_append,
    excess_comments fun t ht => List.mem_takeWhile_imp ht, zero_add]

/-- What is open after a token that passes a test, if so many brackets were open before. -/
def TokenTest.after? (depth : Nat) : TokenTest → Option Nat
  | .symbol text =>
    if openings.contains text then some (depth + 1)
    else if closings.contains text then (if depth = 0 then none else some (depth - 1))
    else some depth
  | .kind .symbol => none
  | .name _ | .word _ | .kind _ => some depth

/-- A test says what it takes. -/
theorem TokenTest.after?_eq {depth depth' : Nat} {test : TokenTest} {t : Token}
    (h : test.after? depth = some depth') (haccepts : test.accepts t = true) :
    (depth' : Int) = depth + t.weight := by
  cases test with
  | symbol text =>
    rw [accepts, Token.isSymbol, Bool.and_eq_true, decide_eq_true_iff, decide_eq_true_iff] at haccepts
    rw [after?] at h
    rw [Token.weight, haccepts.1, haccepts.2, if_neg (by decide)]
    split at h
    · next hopen =>
      cases h
      rw [if_pos hopen]
      rfl
    · next hopen =>
      rw [if_neg hopen]
      split at h
      · next hclose =>
        split at h
        · cases h
        · cases h
          rw [if_pos hclose]
          omega
      · next hclose =>
        cases h
        rw [if_neg hclose, add_zero]
  | name except =>
    cases h
    rw [accepts, Bool.and_eq_true, decide_eq_true_iff] at haccepts
    rw [Token.weight, haccepts.1, if_pos (by decide), add_zero]
  | word text =>
    cases h
    rw [accepts, Token.isWord, Bool.and_eq_true, decide_eq_true_iff] at haccepts
    rw [Token.weight, haccepts.1, if_pos (by decide), add_zero]
  | kind k =>
    rw [accepts, decide_eq_true_iff] at haccepts
    cases k with
    | symbol => cases h
    | _ =>
      cases h
      rw [Token.weight, haccepts, if_pos (by decide), add_zero]

/-- A closing bracket is only taken where one is open. -/
theorem TokenTest.not_accepts_closing {depth : Nat} {test : TokenTest} {t : Token}
    (h : test.after? 0 = some depth) (ht : t.weight < 0) : test.accepts t = false := by
  rw [← Bool.not_eq_true]
  intro haccepts
  have := after?_eq h haccepts
  omega

variable {S : Type}

/-- What may be tried where no bracket is open: the tests, and the rules that may be called. -/
structure Guard (S : Type) where
  test : TokenTest → Bool
  call : S → Bool

/-- Everything may be tried. -/
def Guard.free : Guard S := ⟨fun _ => true, fun _ => true⟩

namespace Rule

variable (g : Guard S)

mutual

/-- How many brackets are open after a rule, if so many were open before. There is no such number for
a rule that closes what was open before it, or that may end with more or fewer of them, or that tries
what it may not. -/
@[simp]
def after? (depth : Nat) : Rule S → Option Nat
  | .one test => if depth = 0 && !g.test test then none else test.after? depth
  | .seq list => afterSeq? depth list
  | .choice [] => some depth
  | .choice (rule :: others) =>
    (after? depth rule).filter fun depth' => afterEach depth depth' others
  | .many inner | .absent inner => if after? depth inner = some depth then some depth else none
  | .joined | .assignable => some depth
  | .call symbol => if depth = 0 && !g.call symbol then none else some depth
  | .node _ inner => after? depth inner
  | .extended _ inner extension =>
    (after? depth inner).filter fun depth' => after? depth' extension = some depth'

@[simp]
def afterSeq? (depth : Nat) : List (Rule S) → Option Nat
  | [] => some depth
  | rule :: others => (after? depth rule).bind fun depth' => afterSeq? depth' others

@[simp]
def afterEach (depth depth' : Nat) : List (Rule S) → Bool
  | [] => true
  | rule :: others => after? depth rule = some depth' && afterEach depth depth' others

end

end Rule

/-! ## Places in front of the same tokens -/

/-- What follows at two places, so many bytes further on at one of them: the same token, though not
the same tokens behind it, and none that may be tried where no bracket is open. -/
structure Fence (g : Guard S) (n : Nat) (r r' : List Token) : Prop where
  head : r'.head? = r.head?.map (Token.moved n)
  next : nextToken? r' = (nextToken? r).map (Token.moved n)
  refuses : ∀ test depth, g.test test = true → test.after? 0 = some depth →
    ∀ t, nextToken? r = some t → test.accepts t = false

theorem isComment_of_weight {t : Token} (h : t.weight < 0) : t.isComment = false := by
  rw [← Bool.not_eq_true]
  intro hyes
  rw [weight_of_isComment hyes] at h
  omega

/-- A closing bracket is a fence for every rule. -/
theorem fence_of_closing {n : Nat} {bracket : Token} (h : bracket.weight < 0) (s s' : List Token) :
    Fence (.free : Guard S) n (bracket :: s) (bracket.moved n :: s') where
  head := rfl
  next := by
    have hcomment := isComment_of_weight h
    rw [nextToken?, nextToken?, dropWhile_isComment_cons hcomment,
      dropWhile_isComment_cons (show (bracket.moved n).isComment = false from hcomment)]
    rfl
  refuses := by
    intro test depth _ htest t ht
    rw [nextToken?, dropWhile_isComment_cons (isComment_of_weight h), List.head?_cons, Option.some.injEq] at ht
    exact TokenTest.not_accepts_closing htest (ht ▸ h)

/-- Two places in front of the same tokens up to a fence, so many bytes further on at one of them. At
the places so many brackets are open; if `c` were positive, one of those that are open here would
still be open at the fence. -/
structure Beside (n : Nat) (r r' : List Token) (c : Int) (depth : Nat) (place place' : Place) :
    Prop where
  exists_front : ∃ front, place.rest = front ++ r ∧ place'.rest = front.map (Token.moved n) ++ r'
    ∧ depth + excess front = c
  last : place'.last = place.last.map (Token.moved n)

section

variable {n : Nat} {r r' : List Token} {c : Int} {depth depth' : Nat} {place place' : Place}
  {g : Guard S}

theorem accepts_moved (n : Nat) (t : Token) (test : TokenTest) :
    test.accepts (t.moved n) = test.accepts t := by
  cases test <;> rfl

theorem isComment_comp_moved (n : Nat) : Token.isComment ∘ Token.moved n = Token.isComment := rfl

theorem Place.isJoined_iff {place : Place} : place.isJoined = true
    ↔ ∃ last t, place.last = some last ∧ place.rest.head? = some t ∧ last.stop = t.start := by
  obtain ⟨last, rest⟩ := place
  cases last <;> cases rest <;> simp [Place.isJoined]

theorem Beside.isJoined (h : Beside n r r' c depth place place')
    (hhead : r'.head? = r.head?.map (Token.moved n)) : place'.isJoined = place.isJoined := by
  obtain ⟨⟨front, hrest, hrest', -⟩, hlast⟩ := h
  have hheads : place'.rest.head? = place.rest.head?.map (Token.moved n) := by
    rw [hrest, hrest', List.head?_append, List.head?_append, List.head?_map, hhead]
    cases front.head? <;> rfl
  rw [Bool.eq_iff_iff, Place.isJoined_iff, Place.isJoined_iff, hlast, hheads]
  constructor
  · rintro ⟨_, _, hlast', hhead', hstop⟩
    obtain ⟨last, hlast, rfl⟩ := Option.map_eq_some_iff.mp hlast'
    obtain ⟨t, hhead, rfl⟩ := Option.map_eq_some_iff.mp hhead'
    exact ⟨last, t, hlast, hhead, Nat.add_right_cancel hstop⟩
  · rintro ⟨last, t, hlast, hhead, hstop⟩
    exact ⟨last.moved n, t.moved n, by rw [hlast]; rfl, by rw [hhead]; rfl, congrArg (· + n) hstop⟩

theorem Beside.isAssignable (h : Beside n r r' c depth place place') :
    place'.isAssignable = place.isAssignable := by
  rw [Place.isAssignable, Place.isAssignable, h.last]
  cases place.last <;> rfl

theorem after?_one {test : TokenTest}
    (h : (Rule.one test : Rule S).after? g depth = some depth') :
    (depth = 0 → g.test test = true) ∧ test.after? depth = some depth' := by
  rw [Rule.after?] at h
  split at h
  · cases h
  · next hno => exact ⟨fun hdepth => by simpa [hdepth] using hno, h⟩

/-- A token is taken at both places or at none of them, and the fence is not taken. -/
theorem Beside.take? (h : Beside n r r' c depth place place') (hc : c ≤ 0)
    (hfence : Fence g n r r') {inner : Guard S} (hinner : inner = g ∨ c < 0) {test : TokenTest}
    (htest : (Rule.one test).after? inner depth = some depth') :
    Option.Rel (Beside n r r' c depth') (endOf (place.take? test)) (endOf (place'.take? test)) := by
  obtain ⟨⟨front, hrest, hrest', hexcess⟩, hlast⟩ := h
  obtain ⟨hguard, hafter⟩ := after?_one htest
  rw [← excess_dropWhile] at hexcess
  rw [endOf_take?, endOf_take?, hrest, hrest', List.dropWhile_append, List.dropWhile_append,
    List.dropWhile_map, isComment_comp_moved, List.isEmpty_map]
  cases hdrop : front.dropWhile Token.isComment with
  | nil =>
    -- the fence is next, and no bracket is open
    rw [hdrop] at hexcess
    have hdepth : depth = 0 := by
      have : (depth : Int) = c := by rw [← hexcess]; exact (add_zero _).symm
      omega
    subst hdepth
    obtain rfl : inner = g := by
      refine hinner.resolve_right fun hneg => ?_
      rw [← hexcess] at hneg
      exact absurd hneg (by decide)
    have hrefuses := hfence.refuses test depth' (hguard rfl) hafter
    have hnext := hfence.next
    rw [nextToken?, nextToken?] at hnext
    rw [nextToken?] at hrefuses
    rw [if_pos (by rfl), if_pos (by rfl)]
    cases hr : r.dropWhile Token.isComment with
    | nil =>
      rw [hr] at hnext
      have hr' : r'.dropWhile Token.isComment = [] := List.head?_eq_none_iff.mp hnext
      rw [hr']
      exact .none
    | cons t others =>
      rw [hr] at hnext hrefuses
      obtain ⟨others', hr'⟩ := List.head?_eq_some_iff.mp hnext
      have hno := hrefuses t rfl
      rw [hr']
      dsimp only
      rw [accepts_moved, hno, if_neg Bool.false_ne_true, if_neg Bool.false_ne_true]
      exact .none
  | cons t others =>
    rw [hdrop, excess] at hexcess
    rw [if_neg (by simp), if_neg (by simp), List.map_cons, List.cons_append, List.cons_append]
    dsimp only
    rw [accepts_moved]
    split
    · next haccepts =>
      have := TokenTest.after?_eq hafter haccepts
      exact .some ⟨⟨others, rfl, rfl, by omega⟩, rfl⟩
    · exact .none

/-! ## Everything that is tried -/

variable {rules : S → Rule S} {rule : Rule S} {result : Option Place}

open Rule in
theorem afterEach_of_choice {first : Rule S} {others : List (Rule S)}
    (h : (Rule.choice (first :: others)).after? g depth = some depth') :
    first.after? g depth = some depth'
      ∧ (others = [] ∨ (Rule.choice others).after? g depth = some depth') := by
  rw [after?, Option.filter_eq_some_iff] at h
  refine ⟨h.1, ?_⟩
  cases others with
  | nil => exact .inl rfl
  | cons second others =>
    have hothers := h.2
    rw [afterEach, Bool.and_eq_true, decide_eq_true_iff] at hothers
    right
    rw [after?, Option.filter_eq_some_iff]
    exact hothers

theorem afterSeq?_cons {first : Rule S} {others : List (Rule S)}
    (h : (Rule.seq (first :: others)).after? g depth = some depth') :
    ∃ mid, first.after? g depth = some mid ∧ (Rule.seq others).after? g mid = some depth' := by
  rw [Rule.after?, Rule.afterSeq?] at h
  obtain ⟨mid, hfirst, hothers⟩ := Option.bind_eq_some_iff.mp h
  exact ⟨mid, hfirst, by rw [Rule.after?]; exact hothers⟩

theorem after?_inner {inner : Rule S}
    (h : (if inner.after? g depth = some depth then some depth else none) = some depth') :
    inner.after? g depth = some depth ∧ depth' = depth := by
  split at h
  · next hinner =>
    cases h
    exact ⟨hinner, rfl⟩
  · cases h

theorem after?_call {symbol : S}
    (h : (Rule.call symbol : Rule S).after? g depth = some depth') :
    depth' = depth ∧ (depth = 0 → g.call symbol = true) := by
  rw [Rule.after?] at h
  split at h
  · cases h
  · next hno =>
    cases h
    exact ⟨rfl, fun hdepth => by simpa [hdepth] using hno⟩

/-- What is tried in front of a fence, as it is proved. Within a bracket everything may be tried,
because the fence is not met there (`c < 0`), and a rule that is called starts to count anew. -/
theorem Ends.beside_within (hrules : ∀ symbol, (rules symbol).after? .free 0 = some 0)
    (hguard : ∀ symbol, g.call symbol = true → (rules symbol).after? g 0 = some 0)
    (hfence : Fence g n r r') (h : Ends rules rule place result)
    (hplace : Beside n r r' c depth place place') (hc : c ≤ 0) {inner : Guard S}
    (hinner : inner = g ∨ c < 0 ∧ inner = .free)
    (hrule : rule.after? inner depth = some depth') :
    ∃ result', Ends rules rule place' result'
      ∧ Option.Rel (Beside n r r' c depth') result result' := by
  induction h generalizing c depth depth' place' inner with
  | one test place =>
    exact ⟨_, .one test place', hplace.take? hc hfence (hinner.imp_right And.left) hrule⟩
  | seqNil place =>
    cases hrule
    exact ⟨_, .seqNil place', .some hplace⟩
  | seqFails _ ih =>
    obtain ⟨mid, hfirst, -⟩ := afterSeq?_cons hrule
    obtain ⟨_, hends, ⟨⟩⟩ := ih hplace hc hinner hfirst
    exact ⟨none, .seqFails hends, .none⟩
  | seqCons _ _ ih ih' =>
    obtain ⟨mid, hfirst, hothers⟩ := afterSeq?_cons hrule
    obtain ⟨_, hends, ⟨hnext⟩⟩ := ih hplace hc hinner hfirst
    obtain ⟨result'', hends', hrel'⟩ := ih' hnext hc hinner hothers
    exact ⟨result'', .seqCons hends hends', hrel'⟩
  | choiceNil place => exact ⟨none, .choiceNil place', .none⟩
  | choiceHead _ ih =>
    obtain ⟨_, hends, ⟨hnext⟩⟩ := ih hplace hc hinner (afterEach_of_choice hrule).1
    exact ⟨_, .choiceHead hends, .some hnext⟩
  | choiceTail _ h' ih ih' =>
    obtain ⟨hfirst, hothers⟩ := afterEach_of_choice hrule
    obtain ⟨_, hends, ⟨⟩⟩ := ih hplace hc hinner hfirst
    rcases hothers with rfl | hothers
    · cases h'
      exact ⟨none, .choiceTail hends (.choiceNil place'), .none⟩
    · obtain ⟨result'', hends', hrel'⟩ := ih' hplace hc hinner hothers
      exact ⟨result'', .choiceTail hends hends', hrel'⟩
  | manyNil _ ih =>
    obtain ⟨hrule, rfl⟩ := after?_inner hrule
    obtain ⟨_, hends, ⟨⟩⟩ := ih hplace hc hinner hrule
    exact ⟨_, .manyNil hends, .some hplace⟩
  | manyCons _ _ ih ih' =>
    obtain ⟨hrule', rfl⟩ := after?_inner hrule
    obtain ⟨_, hends, ⟨hnext⟩⟩ := ih hplace hc hinner hrule'
    obtain ⟨result'', hends', hrel'⟩ := ih' hnext hc hinner hrule
    exact ⟨result'', .manyCons hends hends', hrel'⟩
  | absent _ ih =>
    obtain ⟨hrule, rfl⟩ := after?_inner hrule
    obtain ⟨_, hends, ⟨⟩⟩ := ih hplace hc hinner hrule
    exact ⟨_, .absent hends, .some hplace⟩
  | present _ ih =>
    obtain ⟨hrule, rfl⟩ := after?_inner hrule
    obtain ⟨_, hends, ⟨-⟩⟩ := ih hplace hc hinner hrule
    exact ⟨none, .present hends, .none⟩
  | joined place =>
    cases hrule
    refine ⟨_, .joined place', ?_⟩
    rw [hplace.isJoined hfence.head]
    split
    · exact .some hplace
    · exact .none
  | assignable place =>
    cases hrule
    refine ⟨_, .assignable place', ?_⟩
    rw [hplace.isAssignable]
    split
    · exact .some hplace
    · exact .none
  | @call symbol _ _ _ ih =>
    obtain ⟨rfl, hcall⟩ := after?_call hrule
    obtain ⟨⟨front, hrest, hrest', hexcess⟩, hlast⟩ := hplace
    -- within a bracket the called rule may try everything
    obtain ⟨within, hwithin, hsymbol⟩ : ∃ within : Guard S,
        (within = g ∨ c - depth' < 0 ∧ within = .free) ∧ (rules symbol).after? within 0 = some 0 := by
      rcases hinner with rfl | ⟨hneg, rfl⟩
      · by_cases hdepth : depth' = 0
        · exact ⟨inner, .inl rfl, hguard _ (hcall hdepth)⟩
        · exact ⟨.free, .inr ⟨by omega, rfl⟩, hrules _⟩
      · exact ⟨.free, .inr ⟨by omega, rfl⟩, hrules _⟩
    obtain ⟨result', hends, hrel⟩ := ih (c := c - depth')
      ⟨⟨front, hrest, hrest', by omega⟩, hlast⟩ (by omega) hwithin hsymbol
    refine ⟨result', .call hends, ?_⟩
    cases hrel with
    | none => exact .none
    | some hnext =>
      obtain ⟨⟨front, hrest, hrest', hexcess⟩, hlast⟩ := hnext
      exact .some ⟨⟨front, hrest, hrest', by omega⟩, hlast⟩
  | node kind _ ih =>
    rw [Rule.after?] at hrule
    obtain ⟨result', hends, hrel⟩ := ih hplace hc hinner hrule
    exact ⟨result', .node kind hends, hrel⟩
  | extendedFails _ ih =>
    rw [Rule.after?, Option.filter_eq_some_iff] at hrule
    obtain ⟨_, hends, ⟨⟩⟩ := ih hplace hc hinner hrule.1
    exact ⟨none, .extendedFails hends, .none⟩
  | unextended _ _ ih ih' =>
    rw [Rule.after?, Option.filter_eq_some_iff, decide_eq_true_iff] at hrule
    obtain ⟨_, hends, ⟨hnext⟩⟩ := ih hplace hc hinner hrule.1
    obtain ⟨_, hends', ⟨⟩⟩ := ih' hnext hc hinner hrule.2
    exact ⟨_, .unextended hends hends', .some hnext⟩
  | extended _ _ ih ih' =>
    rw [Rule.after?, Option.filter_eq_some_iff, decide_eq_true_iff] at hrule
    obtain ⟨_, hends, ⟨hnext⟩⟩ := ih hplace hc hinner hrule.1
    obtain ⟨_, hends', ⟨hlast⟩⟩ := ih' hnext hc hinner hrule.2
    exact ⟨_, .extended hends hends', .some hlast⟩

/-- **What is tried in front of a fence does not depend on what follows the fence.** -/
theorem Ends.beside (hrules : ∀ symbol, (rules symbol).after? .free 0 = some 0)
    (hguard : ∀ symbol, g.call symbol = true → (rules symbol).after? g 0 = some 0)
    (hfence : Fence g n r r') (h : Ends rules rule place result)
    (hplace : Beside n r r' c depth place place') (hc : c ≤ 0)
    (hrule : rule.after? g depth = some depth') :
    ∃ result', Ends rules rule place' result'
      ∧ Option.Rel (Beside n r r' c depth') result result' :=
  h.beside_within hrules hguard hfence hplace hc (.inl rfl) hrule

/-- How many brackets are open where a rule ends. -/
theorem Spans.excess {ts : List Tree} {next : Place}
    (hrules : ∀ symbol, (rules symbol).after? .free 0 = some 0)
    (h : Spans rules rule place ts next) (hrule : rule.after? .free depth = some depth') :
    (depth' : Int) + excess next.rest = depth + excess place.rest := by
  induction h generalizing depth depth' with
  | @one test place next ts htake =>
    obtain ⟨t, hdrop, haccepts, -⟩ := Place.next_of_take? htake
    have hafter := TokenTest.after?_eq (after?_one hrule).2 haccepts
    rw [← excess_dropWhile place.rest, hdrop, excess]
    omega
  | seqNil =>
    cases hrule
    rfl
  | seqCons _ _ ih ih' =>
    obtain ⟨mid, hfirst, hothers⟩ := afterSeq?_cons hrule
    rw [ih' hothers, ih hfirst]
  | choiceHead _ ih => exact ih (afterEach_of_choice hrule).1
  | choiceTail h ih =>
    rcases (afterEach_of_choice hrule).2 with rfl | hothers
    · cases h
    · exact ih hothers
  | manyNil | absent =>
    obtain ⟨-, rfl⟩ := after?_inner hrule
    rfl
  | manyCons _ _ ih ih' =>
    obtain ⟨hinner, rfl⟩ := after?_inner hrule
    rw [ih' hrule, ih hinner]
  | joined | assignable =>
    cases hrule
    rfl
  | call _ ih =>
    obtain ⟨rfl, -⟩ := after?_call hrule
    have := ih (hrules _)
    omega
  | node kind _ ih =>
    rw [Rule.after?] at hrule
    exact ih hrule
  | unextended _ ih =>
    rw [Rule.after?, Option.filter_eq_some_iff] at hrule
    exact ih hrule.1
  | extended kind _ _ ih ih' =>
    rw [Rule.after?, Option.filter_eq_some_iff, decide_eq_true_iff] at hrule
    rw [ih' hrule.2, ih hrule.1]

/-- A rule that leaves no bracket open takes as many closing brackets as opening ones. -/
theorem Ends.exists_front {next : Place} (hrules : ∀ symbol, (rules symbol).after? .free 0 = some 0)
    (h : Ends rules rule place (some next)) (hrule : rule.after? .free 0 = some 0) :
    ∃ front, place.rest = front ++ next.rest ∧ Conformance.Java.excess front = 0 := by
  obtain ⟨ts, hspans⟩ := h.spans rfl
  have hexcess := hspans.excess hrules hrule
  obtain ⟨front, hrest, -⟩ := h.taken rfl
  refine ⟨front, hrest, ?_⟩
  rw [hrest, excess_append] at hexcess
  omega

/-- **A rule that ends at a fence takes the same tokens in front of another one.** -/
theorem Ends.repeated {mid : Place} (hrules : ∀ symbol, (rules symbol).after? .free 0 = some 0)
    (hguard : ∀ symbol, g.call symbol = true → (rules symbol).after? g 0 = some 0)
    (hrule : rule.after? g 0 = some 0) (hfree : rule.after? .free 0 = some 0)
    (h : Ends rules rule place (some mid)) :
    ∃ front, place.rest = front ++ mid.rest ∧ ∀ n r', Fence g n mid.rest r' →
      Ends rules rule ⟨place.last.map (Token.moved n), front.map (Token.moved n) ++ r'⟩
        (some ⟨mid.last.map (Token.moved n), r'⟩) := by
  obtain ⟨front, hrest, hexcess⟩ := h.exists_front hrules hfree
  refine ⟨front, hrest, fun n r' hfence => ?_⟩
  have hbeside : Beside n mid.rest r' 0 0 place
      ⟨place.last.map (Token.moved n), front.map (Token.moved n) ++ r'⟩ :=
    ⟨⟨front, hrest, rfl, by rw [hexcess]; rfl⟩, rfl⟩
  obtain ⟨result', hends, hrel⟩ := h.beside hrules hguard hfence hbeside (Int.le_refl 0) hrule
  cases hrel with
  | @some _ next' hmid =>
    obtain ⟨last, rest⟩ := next'
    obtain ⟨⟨others, hnext, hnext', -⟩, hlast⟩ := hmid
    obtain rfl : others = [] := List.self_eq_append_left.mp hnext
    dsimp only at hnext' hlast
    rw [hnext', hlast] at hends
    exact hends

/-! ## Groups -/

namespace Rule

mutual

/-- Whether a rule ends with a closing bracket that it has not opened, and takes no such bracket
before. -/
@[simp]
def closes : Rule S → Bool
  | .one (.symbol text) => closings.contains text
  | .seq list => closesSeq list
  | .choice list => closesEach list
  | _ => false

@[simp]
def closesSeq : List (Rule S) → Bool
  | [] => false
  | [last] => closes last
  | rule :: others => after? .free 0 rule = some 0 && closesSeq others

@[simp]
def closesEach : List (Rule S) → Bool
  | [] => true
  | rule :: others => closes rule && closesEach others

end

/-- Whether some rules take an opening bracket and all up to its partner. -/
def isGroup : List (Rule S) → Bool
  | .one (.symbol text) :: others => openings.contains text && closesSeq others
  | _ => false

end Rule

theorem closesSeq_cons {first : Rule S} {others : List (Rule S)}
    (h : (Rule.seq (first :: others)).closes = true) :
    (others = [] ∧ first.closes = true)
      ∨ first.after? .free 0 = some 0 ∧ (Rule.seq others).closes = true := by
  rw [Rule.closes] at h
  cases others with
  | nil => exact .inl ⟨rfl, by rwa [Rule.closesSeq] at h⟩
  | cons second others =>
    rw [Rule.closesSeq, Bool.and_eq_true, decide_eq_true_iff] at h
    · exact .inr ⟨h.1, by rw [Rule.closes]; exact h.2⟩
    · simp

theorem weight_of_closing {t : Token} {text : String} (h : closings.contains text = true)
    (haccepts : (TokenTest.symbol text).accepts t = true) : t.weight = -1 := by
  rw [TokenTest.accepts, Token.isSymbol, Bool.and_eq_true, decide_eq_true_iff, decide_eq_true_iff]
    at haccepts
  have hopen : openings.contains text = false := by
    revert h
    simp only [openings, closings, List.contains_eq_mem, decide_eq_true_iff, decide_eq_false_iff_not,
      List.mem_cons, List.not_mem_nil]
    rintro (rfl | rfl | h)
    · decide
    · decide
    · cases h
  rw [Token.weight, haccepts.1, haccepts.2, if_neg (by decide), hopen, h, if_neg (by decide),
    if_pos rfl]

/-- What a rule takes up to a bracket that it closes. -/
theorem Ends.exists_closing {next : Place} (hrules : ∀ symbol, (rules symbol).after? .free 0 = some 0)
    (h : Ends rules rule place result) (hresult : result = some next) (hrule : rule.closes = true) :
    ∃ front bracket, place.rest = front ++ bracket :: next.rest ∧ bracket.weight = -1
      ∧ excess front = 0 ∧ next.last = some bracket := by
  induction h with
  | one test place =>
    obtain ⟨ts, htake⟩ := endOf_eq_some.mp hresult
    obtain ⟨t, hdrop, haccepts, hlast⟩ := Place.next_of_take? htake
    unfold Rule.closes at hrule
    split at hrule
    · next text heq =>
      cases heq
      refine ⟨place.rest.takeWhile Token.isComment, t, ?_, weight_of_closing hrule haccepts,
        excess_comments fun t ht => List.mem_takeWhile_imp ht, hlast⟩
      rw [← hdrop, List.takeWhile_append_dropWhile]
    all_goals simp_all
  | seqCons h h' ih ih' =>
    rcases closesSeq_cons hrule with ⟨rfl, hfirst⟩ | ⟨hfirst, hothers⟩
    · cases h'
      exact ih hresult hfirst
    · obtain ⟨before, hbefore, hexcess⟩ := h.exists_front hrules hfirst
      obtain ⟨front, bracket, hrest, hbracket, hfront, hlast⟩ := ih' hresult hothers
      refine ⟨before ++ front, bracket, ?_, hbracket, ?_, hlast⟩
      · rw [hbefore, hrest, List.append_assoc]
      · rw [excess_append, hexcess, hfront]
        rfl
  | choiceHead _ ih =>
    rw [Rule.closes, Rule.closesEach, Bool.and_eq_true] at hrule
    exact ih hresult hrule.1
  | choiceTail _ _ _ ih' =>
    rw [Rule.closes, Rule.closesEach, Bool.and_eq_true] at hrule
    exact ih' hresult (by rw [Rule.closes]; exact hrule.2)
  | _ => simp_all [Rule.closes, Rule.closesSeq]

/-- What is tried up to a bracket that a rule closes is tried up to it again: a rule that does not
match still does not match, and a rule that ends behind the bracket ends there. -/
theorem Ends.closing_repeated {bracket : Token} {s s' : List Token}
    (hrules : ∀ symbol, (rules symbol).after? .free 0 = some 0) (hbracket : bracket.weight < 0)
    (h : Ends rules rule place result) (hrule : rule.closes = true)
    (hplace : Beside n (bracket :: s) (bracket.moved n :: s') 0 0 place place') :
    (result = none → Ends rules rule place' none)
      ∧ ∀ next, result = some next → next.rest = s →
        Ends rules rule place' (some ⟨some (bracket.moved n), s'⟩) := by
  have hfree : ∀ symbol, (Guard.free : Guard S).call symbol = true →
      (rules symbol).after? .free 0 = some 0 := fun symbol _ => hrules symbol
  have hfence := fence_of_closing (S := S) (n := n) hbracket s s'
  have hcomment : bracket.isComment = false := isComment_of_weight hbracket
  induction h generalizing place' with
  | one test place =>
    obtain ⟨⟨front, hrest, hrest', -⟩, -⟩ := hplace
    have hend : Ends rules (.one test) place' (endOf (place'.take? test)) := .one test place'
    change (endOf (place.take? test) = none → _) ∧ ∀ next, endOf (place.take? test) = some next → _
    rw [endOf_take?, hrest', List.dropWhile_append, List.dropWhile_map, isComment_comp_moved,
      List.isEmpty_map] at hend
    rw [endOf_take?, hrest, List.dropWhile_append]
    cases hdrop : front.dropWhile Token.isComment with
    | nil =>
      rw [hdrop, if_pos (by rfl),
        dropWhile_isComment_cons (show (bracket.moved n).isComment = false from hcomment)] at hend
      rw [if_pos (by rfl), dropWhile_isComment_cons hcomment]
      dsimp only at hend ⊢
      rw [accepts_moved] at hend
      split
      · next haccepts =>
        rw [if_pos haccepts] at hend
        exact ⟨nofun, fun next _ _ => hend⟩
      · next haccepts =>
        rw [if_neg haccepts] at hend
        exact ⟨fun _ => hend, nofun⟩
    | cons t others =>
      rw [hdrop, if_neg (by simp), List.map_cons, List.cons_append] at hend
      rw [if_neg (by simp), List.cons_append]
      dsimp only at hend ⊢
      rw [accepts_moved] at hend
      split
      · -- what is taken stands before the bracket
        refine ⟨nofun, fun next hnext hlength => ?_⟩
        cases hnext
        have := congrArg List.length hlength
        simp only [List.length_append, List.length_cons] at this
        omega
      · next haccepts =>
        rw [if_neg haccepts] at hend
        exact ⟨fun _ => hend, nofun⟩
  | seqNil | manyNil | manyCons | absent | present | joined | assignable | call | node
  | extendedFails | unextended | extended => cases hrule
  | seqFails h ih =>
    refine ⟨fun _ => ?_, nofun⟩
    rcases closesSeq_cons hrule with ⟨rfl, hfirst⟩ | ⟨hfirst, -⟩
    · exact .seqFails ((ih hfirst hplace).1 rfl)
    · obtain ⟨_, hends, ⟨⟩⟩ := h.beside hrules hfree hfence hplace (Int.le_refl 0) hfirst
      exact .seqFails hends
  | seqCons h h' ih ih' =>
    rcases closesSeq_cons hrule with ⟨rfl, hfirst⟩ | ⟨hfirst, hothers⟩
    · cases h'
      refine ⟨nofun, fun next hnext hlength => ?_⟩
      exact .seqCons ((ih hfirst hplace).2 next hnext hlength) (.seqNil _)
    · obtain ⟨_, hends, ⟨hmid⟩⟩ := h.beside hrules hfree hfence hplace (Int.le_refl 0) hfirst
      obtain ⟨hfails, hends'⟩ := ih' hothers hmid
      exact ⟨fun hnone => .seqCons hends (hfails hnone),
        fun next hnext hlength => .seqCons hends (hends' next hnext hlength)⟩
  | choiceNil place => exact ⟨fun _ => .choiceNil place', nofun⟩
  | choiceHead _ ih =>
    rw [Rule.closes, Rule.closesEach, Bool.and_eq_true] at hrule
    exact ⟨nofun,
      fun next hnext hlength => .choiceHead ((ih hrule.1 hplace).2 next hnext hlength)⟩
  | choiceTail _ _ ih ih' =>
    rw [Rule.closes, Rule.closesEach, Bool.and_eq_true] at hrule
    obtain ⟨hfails, hends⟩ := ih' (by rw [Rule.closes]; exact hrule.2) hplace
    have hfirst := (ih hrule.1 hplace).1 rfl
    exact ⟨fun hnone => .choiceTail hfirst (hfails hnone),
      fun next hnext hlength => .choiceTail hfirst (hends next hnext hlength)⟩

/-- **What stands in brackets is taken again, whatever follows it.** -/
theorem Ends.group_repeated {list : List (Rule S)} {next : Place}
    (hrules : ∀ symbol, (rules symbol).after? .free 0 = some 0)
    (h : Ends rules (.seq list) place (some next)) (hgroup : Rule.isGroup list = true) :
    ∃ taken, place.rest = taken ++ next.rest ∧ ∀ n last s',
      Ends rules (.seq list) ⟨last, taken.map (Token.moved n) ++ s'⟩
        (some ⟨next.last.map (Token.moved n), s'⟩) := by
  cases list with
  | nil => cases hgroup
  | cons first others =>
    unfold Rule.isGroup at hgroup
    split at hgroup
    · next text others' heq =>
      cases heq
      rw [Bool.and_eq_true] at hgroup
      have hothers : (Rule.seq others).closes = true := by
        rw [Rule.closes]
        exact hgroup.2
      cases h with
      | @seqCons _ _ _ mid _ h h' =>
        obtain ⟨comments, t, hrest, hcomments, ht, haccepts, hlast⟩ := h.exists_token
        obtain ⟨front, bracket, hmid, hbracket, hexcess, hnext⟩ :=
          h'.exists_closing hrules rfl hothers
        refine ⟨comments ++ t :: (front ++ [bracket]), ?_, fun n last s' => ?_⟩
        · rw [hrest, hmid]
          simp only [List.append_assoc, List.cons_append, List.nil_append]
        · have hopened : Ends rules (.one (.symbol text))
              ⟨last, comments.map (Token.moved n) ++
                t.moved n :: (front.map (Token.moved n) ++ bracket.moved n :: s')⟩
              (some ⟨some (t.moved n), front.map (Token.moved n) ++ bracket.moved n :: s'⟩) :=
            .token last (List.forall_mem_map.mpr hcomments) ht (by rw [accepts_moved]; exact haccepts)
          have hbeside : Beside n (bracket :: next.rest) (bracket.moved n :: s') 0 0 mid
              ⟨some (t.moved n), front.map (Token.moved n) ++ bracket.moved n :: s'⟩ :=
            ⟨⟨front, hmid, rfl, by rw [hexcess]; rfl⟩, by rw [hlast]; rfl⟩
          have hclosed := (h'.closing_repeated hrules (by omega) hothers hbeside).2 next rfl rfl
          rw [hnext, Option.map_some]
          simpa only [List.map_append, List.map_cons, List.map_nil, List.append_assoc,
            List.cons_append, List.nil_append] using hopened.seqCons hclosed
    · cases hgroup

end

end Conformance.Java
