import Conformance.Proofs.Rules

/-!
# How deep rules nest

Reading is cut off at a depth, so that a rule which calls itself does not go on for ever. A file is
read with a depth of some hundred levels for each of its tokens, and the cut is never met: no rule of
the grammar calls itself before it has taken a token, so between two tokens rules nest at most as deep
as the longest chain of calls. The grammar is data, and the length of these chains is a number for
each name of a rule, which is checked by running over the rules (`Ranking.Fits`).

So every rule comes to an end at every place, and where it ends is said by a relation that knows no
depth (`Ends`): with enough depth the reader comes to just what the relation says
(`ends_of_reaches`, `Ends.unique`). What a rule builds there is taken apart along the rule (`Parses`).
-/

namespace Conformance.Java

variable {S : Type}

/-! ## Chains of calls -/

/-- What is known of the rules that have names. -/
structure Ranking (S : Type) where
  /-- How deep the rule nests at most before it takes a token. -/
  height : S → Nat
  /-- Whether the rule takes a token whenever it matches. -/
  consumes : S → Bool

namespace Rule

variable (k : Ranking S)

mutual

/-- Whether a rule takes a token whenever it matches. -/
@[simp]
def consumes : Rule S → Bool
  | .one _ => true
  | .seq list => anyConsumes list
  | .choice list => allConsume list
  | .many _ | .absent _ | .joined | .assignable => false
  | .call symbol => k.consumes symbol
  | .node _ inner | .extended _ inner _ => consumes inner

@[simp]
def anyConsumes : List (Rule S) → Bool
  | [] => false
  | rule :: others => consumes rule || anyConsumes others

@[simp]
def allConsume : List (Rule S) → Bool
  | [] => true
  | rule :: others => consumes rule && allConsume others

end

mutual

/-- How deep a rule nests at most before it takes a token. -/
@[simp]
def height : Rule S → Nat
  | .one _ | .joined | .assignable => 1
  | .seq list => heightOfSeq list
  | .choice list => heightOfChoice list
  | .many inner | .absent inner | .node _ inner => height inner + 1
  | .call symbol => k.height symbol + 1
  | .extended _ inner extension =>
    max (height inner) (if consumes k inner then 0 else height extension) + 1

@[simp]
def heightOfSeq : List (Rule S) → Nat
  | [] => 1
  | rule :: others => max (height rule) (if consumes k rule then 0 else heightOfSeq others) + 1

@[simp]
def heightOfChoice : List (Rule S) → Nat
  | [] => 1
  | rule :: others => max (height rule) (heightOfChoice others) + 1

end

mutual

/-- Whether a rule repeats only what takes tokens, and nests nowhere deeper than one may for a
single token. -/
@[simp]
def isRanked : Rule S → Bool
  | .one _ | .joined | .assignable | .call _ => true
  | .seq list => areRanked list
  | .choice list => eachRanked list
  | .many inner => consumes k inner && isRanked inner && height k inner < nestingPerToken
  | .absent inner | .node _ inner => isRanked inner
  | .extended _ inner extension =>
    isRanked inner && isRanked extension && height k extension ≤ nestingPerToken

@[simp]
def areRanked : List (Rule S) → Bool
  | [] => true
  | rule :: others =>
    isRanked rule && areRanked others && heightOfSeq k others ≤ nestingPerToken

@[simp]
def eachRanked : List (Rule S) → Bool
  | [] => true
  | rule :: others => isRanked rule && eachRanked others

end

end Rule

/-- What is said of the names of rules is true of the rules. -/
def Ranking.Fits (k : Ranking S) (rules : S → Rule S) : Prop :=
  ∀ s, (rules s).height k ≤ k.height s ∧ (k.consumes s = true → (rules s).consumes k = true)
    ∧ (rules s).isRanked k = true

/-! ## The cut is never met -/

variable {k : Ranking S} {rules : S → Rule S} {rule : Rule S} {place next : Place} {ts : List Tree}

open Rule

theorem Spans.length_le (h : Spans rules rule place ts next) :
    next.rest.length ≤ place.rest.length := by
  rw [h.rest_eq, List.length_append]
  exact Nat.le_add_left ..

/-- A rule that takes a token leaves fewer of them. -/
theorem Spans.length_lt (hfits : k.Fits rules) (h : Spans rules rule place ts next)
    (hconsumes : rule.consumes k = true) : next.rest.length < place.rest.length := by
  induction h with
  | one h =>
    obtain ⟨comments, t, -, -, hrest⟩ := Place.take?_eq_some h
    rw [hrest, List.length_append, List.length_cons]
    omega
  | seqNil | manyNil | absent | joined | assignable => cases hconsumes
  | manyCons => cases hconsumes
  | @seqCons first others place mid next ts us h h' ih ih' =>
    have hle := h.length_le
    have hle' := h'.length_le
    rw [consumes, anyConsumes, Bool.or_eq_true] at hconsumes
    rcases hconsumes with hfirst | hothers
    · exact Nat.lt_of_le_of_lt hle' (ih hfirst)
    · exact Nat.lt_of_lt_of_le (ih' (by rw [consumes]; exact hothers)) hle
  | choiceHead _ ih =>
    rw [consumes, allConsume, Bool.and_eq_true] at hconsumes
    exact ih hconsumes.1
  | choiceTail _ ih =>
    rw [consumes, allConsume, Bool.and_eq_true] at hconsumes
    exact ih (by rw [consumes]; exact hconsumes.2)
  | call _ ih => exact ih ((hfits _).2.1 (by rwa [consumes] at hconsumes))
  | node kind _ ih | unextended _ ih =>
    rw [consumes] at hconsumes
    exact ih hconsumes
  | extended kind _ h' ih _ =>
    rw [consumes] at hconsumes
    exact Nat.lt_of_le_of_lt h'.length_le (ih hconsumes)

/-- A depth at which a rule is not cut off at a place. -/
structure Reaches (k : Ranking S) (fuel : Nat) (rule : Rule S) (place : Place) : Prop where
  ranked : rule.isRanked k = true
  le : nestingPerToken * place.rest.length + rule.height k ≤ fuel

namespace Reaches

variable {fuel : Nat} {first inner more : Rule S} {others : List (Rule S)} {mid : Place}

/-- Behind a token there are some hundred levels more. -/
theorem of_lt (hranked : rule.isRanked k = true) (hheight : rule.height k ≤ nestingPerToken)
    (hlength : next.rest.length < place.rest.length)
    (h : nestingPerToken * place.rest.length ≤ fuel) : Reaches k fuel rule next := by
  have hle : nestingPerToken * (next.rest.length + 1) ≤ nestingPerToken * place.rest.length :=
    Nat.mul_le_mul_left _ hlength
  rw [Nat.mul_succ] at hle
  exact ⟨hranked, by omega⟩

/-- A part of a rule that comes after another one. -/
theorem after (hfits : k.Fits rules) (hranked : rule.isRanked k = true)
    (hheight : rule.height k ≤ nestingPerToken)
    (h : nestingPerToken * place.rest.length
      + (if first.consumes k then 0 else rule.height k) ≤ fuel)
    (hfirst : Spans rules first place ts mid) : Reaches k fuel rule mid := by
  by_cases hconsumes : first.consumes k = true
  · exact of_lt hranked hheight (hfirst.length_lt hfits hconsumes) (by omega)
  · rw [if_neg hconsumes] at h
    have hle : nestingPerToken * mid.rest.length ≤ nestingPerToken * place.rest.length :=
      Nat.mul_le_mul_left _ hfirst.length_le
    exact ⟨hranked, by omega⟩

theorem pos (h : Reaches k fuel rule place) : 0 < fuel := by
  have hheight : 0 < rule.height k := by
    cases rule with
    | seq list => cases list <;> simp
    | choice list => cases list <;> simp
    | _ => simp
  have hle := h.le
  omega

theorem seqHead (h : Reaches k (fuel + 1) (.seq (first :: others)) place) :
    Reaches k fuel first place := by
  obtain ⟨hranked, hle⟩ := h
  rw [isRanked, areRanked, Bool.and_eq_true, Bool.and_eq_true] at hranked
  rw [height, heightOfSeq] at hle
  exact ⟨hranked.1.1, by omega⟩

theorem seqTail (hfits : k.Fits rules) (h : Reaches k (fuel + 1) (.seq (first :: others)) place)
    (hfirst : Spans rules first place ts mid) : Reaches k fuel (.seq others) mid := by
  obtain ⟨hranked, hle⟩ := h
  rw [isRanked, areRanked, Bool.and_eq_true, Bool.and_eq_true, decide_eq_true_iff] at hranked
  rw [height, heightOfSeq] at hle
  refine after hfits (by rw [isRanked]; exact hranked.1.2) (by rw [height]; exact hranked.2) ?_ hfirst
  rw [height]
  omega

theorem choiceHead (h : Reaches k (fuel + 1) (.choice (first :: others)) place) :
    Reaches k fuel first place := by
  obtain ⟨hranked, hle⟩ := h
  rw [isRanked, eachRanked, Bool.and_eq_true] at hranked
  rw [height, heightOfChoice] at hle
  exact ⟨hranked.1, by omega⟩

theorem choiceTail (h : Reaches k (fuel + 1) (.choice (first :: others)) place) :
    Reaches k fuel (.choice others) place := by
  obtain ⟨hranked, hle⟩ := h
  rw [isRanked, eachRanked, Bool.and_eq_true] at hranked
  rw [height, heightOfChoice] at hle
  exact ⟨by rw [isRanked]; exact hranked.2, by rw [height]; omega⟩

theorem many (h : Reaches k (fuel + 1) (.many inner) place) : Reaches k fuel inner place := by
  obtain ⟨hranked, hle⟩ := h
  rw [isRanked, Bool.and_eq_true, Bool.and_eq_true] at hranked
  rw [height] at hle
  exact ⟨hranked.1.2, by omega⟩

theorem manyTail (hfits : k.Fits rules) (h : Reaches k (fuel + 1) (.many inner) place)
    (hinner : Spans rules inner place ts mid) : Reaches k fuel (.many inner) mid := by
  obtain ⟨hranked, hle⟩ := h
  have hparts := hranked
  rw [isRanked, Bool.and_eq_true, Bool.and_eq_true, decide_eq_true_iff] at hparts
  rw [height] at hle
  exact of_lt hranked (by rw [height]; exact hparts.2) (hinner.length_lt hfits hparts.1.1) (by omega)

theorem absent (h : Reaches k (fuel + 1) (.absent inner) place) : Reaches k fuel inner place := by
  obtain ⟨hranked, hle⟩ := h
  rw [isRanked] at hranked
  rw [height] at hle
  exact ⟨hranked, by omega⟩

theorem call (hfits : k.Fits rules) {symbol : S} (h : Reaches k (fuel + 1) (.call symbol) place) :
    Reaches k fuel (rules symbol) place := by
  obtain ⟨-, hle⟩ := h
  obtain ⟨hheight, -, hranked⟩ := hfits symbol
  rw [height] at hle
  exact ⟨hranked, by omega⟩

theorem node {kind : NodeKind} (h : Reaches k (fuel + 1) (.node kind inner) place) :
    Reaches k fuel inner place := by
  obtain ⟨hranked, hle⟩ := h
  rw [isRanked] at hranked
  rw [height] at hle
  exact ⟨hranked, by omega⟩

theorem extended {kind : NodeKind} (h : Reaches k (fuel + 1) (.extended kind inner more) place) :
    Reaches k fuel inner place := by
  obtain ⟨hranked, hle⟩ := h
  rw [isRanked, Bool.and_eq_true, Bool.and_eq_true] at hranked
  rw [height] at hle
  exact ⟨hranked.1.1, by omega⟩

theorem extension {kind : NodeKind} (hfits : k.Fits rules)
    (h : Reaches k (fuel + 1) (.extended kind inner more) place)
    (hinner : Spans rules inner place ts mid) : Reaches k fuel more mid := by
  obtain ⟨hranked, hle⟩ := h
  rw [isRanked, Bool.and_eq_true, Bool.and_eq_true, decide_eq_true_iff] at hranked
  rw [height] at hle
  exact after hfits hranked.1.2 hranked.2 (by omega) hinner

end Reaches

/-! ## What a rule ends with -/

/-- The end of what a rule is found to take. -/
def endOf (found : Option (List Tree × Place)) : Option Place := found.map (·.2)

/-- The place where a rule ends, or nothing where it does not match. How deep rules nest does not
come into it, and neither do the trees that they build. -/
inductive Ends (rules : S → Rule S) : Rule S → Place → Option Place → Prop
  | one (test : TokenTest) (place : Place) :
      Ends rules (.one test) place (endOf (place.take? test))
  | seqNil (place : Place) : Ends rules (.seq []) place (some place)
  | seqFails {first : Rule S} {others : List (Rule S)} {place : Place}
      (h : Ends rules first place none) : Ends rules (.seq (first :: others)) place none
  | seqCons {first : Rule S} {others : List (Rule S)} {place mid : Place} {result : Option Place}
      (h : Ends rules first place (some mid)) (h' : Ends rules (.seq others) mid result) :
      Ends rules (.seq (first :: others)) place result
  | choiceNil (place : Place) : Ends rules (.choice []) place none
  | choiceHead {first : Rule S} {others : List (Rule S)} {place next : Place}
      (h : Ends rules first place (some next)) :
      Ends rules (.choice (first :: others)) place (some next)
  | choiceTail {first : Rule S} {others : List (Rule S)} {place : Place} {result : Option Place}
      (h : Ends rules first place none) (h' : Ends rules (.choice others) place result) :
      Ends rules (.choice (first :: others)) place result
  | manyNil {inner : Rule S} {place : Place} (h : Ends rules inner place none) :
      Ends rules (.many inner) place (some place)
  | manyCons {inner : Rule S} {place mid : Place} {result : Option Place}
      (h : Ends rules inner place (some mid)) (h' : Ends rules (.many inner) mid result) :
      Ends rules (.many inner) place result
  | absent {inner : Rule S} {place : Place} (h : Ends rules inner place none) :
      Ends rules (.absent inner) place (some place)
  | present {inner : Rule S} {place next : Place} (h : Ends rules inner place (some next)) :
      Ends rules (.absent inner) place none
  | joined (place : Place) :
      Ends rules .joined place (if place.isJoined then some place else none)
  | assignable (place : Place) :
      Ends rules .assignable place (if place.isAssignable then some place else none)
  | call {symbol : S} {place : Place} {result : Option Place}
      (h : Ends rules (rules symbol) place result) : Ends rules (.call symbol) place result
  | node (kind : NodeKind) {inner : Rule S} {place : Place} {result : Option Place}
      (h : Ends rules inner place result) : Ends rules (.node kind inner) place result
  | extendedFails {kind : NodeKind} {inner extension : Rule S} {place : Place}
      (h : Ends rules inner place none) : Ends rules (.extended kind inner extension) place none
  | unextended {kind : NodeKind} {inner extension : Rule S} {place mid : Place}
      (h : Ends rules inner place (some mid)) (h' : Ends rules extension mid none) :
      Ends rules (.extended kind inner extension) place (some mid)
  | extended {kind : NodeKind} {inner extension : Rule S} {place mid next : Place}
      (h : Ends rules inner place (some mid)) (h' : Ends rules extension mid (some next)) :
      Ends rules (.extended kind inner extension) place (some next)

theorem endOf_eq_some {found : Option (List Tree × Place)} :
    endOf found = some next ↔ ∃ ts, found = some (ts, next) := by
  rw [endOf, Option.map_eq_some_iff]
  constructor
  · rintro ⟨⟨ts, place⟩, rfl, rfl⟩
    exact ⟨ts, rfl⟩
  · rintro ⟨ts, rfl⟩
    exact ⟨_, rfl, rfl⟩

/-- What a rule takes after other trees ends where it ends. -/
theorem endOf_append (ts : List Tree) (found : Option (List Tree × Place)) :
    endOf (found.bind fun (more, next) => some (ts ++ more, next)) = endOf found := by
  cases found <;> rfl

/-- **Where rules are not cut off they come to their end.** The induction is on the depth, and each
part of a rule is reached from where the part before it ends. -/
theorem ends_of_reaches (hfits : k.Fits rules) {fuel : Nat} (h : Reaches k fuel rule place) :
    Ends rules rule place (endOf (matchRule rules fuel rule place)) := by
  induction fuel generalizing rule place with
  | zero => exact absurd h.pos (Nat.lt_irrefl 0)
  | succ fuel ih =>
    cases rule with
    | one test => exact .one test place
    | seq list =>
      cases list with
      | nil => exact .seqNil place
      | cons first others =>
        have hfirst := ih h.seqHead
        rw [matchRule]
        cases hmatch : matchRule rules fuel first place with
        | none =>
          rw [hmatch] at hfirst
          exact .seqFails hfirst
        | some found =>
          rw [hmatch] at hfirst
          have hothers := ih (h.seqTail hfits (spans_of_matchRule hmatch))
          rw [Option.bind_eq_bind, Option.bind_some]
          exact .seqCons hfirst ((endOf_append found.1 _).symm ▸ hothers)
    | choice list =>
      cases list with
      | nil => exact .choiceNil place
      | cons first others =>
        have hfirst := ih h.choiceHead
        rw [matchRule]
        cases hmatch : matchRule rules fuel first place with
        | none =>
          rw [hmatch] at hfirst
          exact .choiceTail hfirst (ih h.choiceTail)
        | some found =>
          rw [hmatch] at hfirst
          exact .choiceHead hfirst
    | many inner =>
      have hinner := ih h.many
      rw [matchRule]
      cases hmatch : matchRule rules fuel inner place with
      | none =>
        rw [hmatch] at hinner
        exact .manyNil hinner
      | some found =>
        rw [hmatch] at hinner
        have hmore := ih (h.manyTail hfits (spans_of_matchRule hmatch))
        exact .manyCons hinner ((endOf_append found.1 _).symm ▸ hmore)
    | absent inner =>
      have hinner := ih h.absent
      rw [matchRule]
      cases hmatch : matchRule rules fuel inner place with
      | none =>
        rw [hmatch] at hinner
        exact .absent hinner
      | some found =>
        rw [hmatch] at hinner
        exact .present hinner
    | joined =>
      rw [matchRule]
      convert Ends.joined place using 1
      split <;> rfl
    | assignable =>
      rw [matchRule]
      convert Ends.assignable place using 1
      split <;> rfl
    | call symbol => exact .call (ih (h.call hfits))
    | node kind inner =>
      have hinner := ih h.node
      rw [matchRule]
      refine .node kind ?_
      convert hinner using 1
      rw [endOf, Option.map_map]
      rfl
    | extended kind inner extension =>
      have hinner := ih h.extended
      rw [matchRule]
      cases hmatch : matchRule rules fuel inner place with
      | none =>
        rw [hmatch] at hinner
        exact .extendedFails hinner
      | some found =>
        rw [hmatch] at hinner
        have hextension := ih (h.extension hfits (spans_of_matchRule hmatch))
        cases hmore : matchRule rules fuel extension found.2 with
        | none =>
          rw [hmore] at hextension
          simp only [Option.bind_eq_bind, Option.bind_some, hmore]
          exact .unextended hinner hextension
        | some more =>
          rw [hmore] at hextension
          simp only [Option.bind_eq_bind, Option.bind_some, hmore]
          exact .extended hinner hextension

/-- A rule ends at one place. -/
theorem Ends.unique {result result' : Option Place} (h : Ends rules rule place result)
    (h' : Ends rules rule place result') : result = result' := by
  induction h generalizing result' with
  | one | seqNil | choiceNil | joined | assignable =>
    cases h'
    rfl
  | seqFails _ ih =>
    cases h' with
    | seqFails => rfl
    | seqCons h => cases ih h
  | seqCons _ _ ih ih' =>
    cases h' with
    | seqFails h => cases ih h
    | seqCons h h' =>
      cases ih h
      exact ih' h'
  | choiceHead _ ih =>
    cases h' with
    | choiceHead h => exact ih h
    | choiceTail h => cases ih h
  | choiceTail _ _ ih ih' =>
    cases h' with
    | choiceHead h => cases ih h
    | choiceTail _ h' => exact ih' h'
  | manyNil _ ih =>
    cases h' with
    | manyNil => rfl
    | manyCons h => cases ih h
  | manyCons _ _ ih ih' =>
    cases h' with
    | manyNil h => cases ih h
    | manyCons h h' =>
      cases ih h
      exact ih' h'
  | absent _ ih =>
    cases h' with
    | absent => rfl
    | present h => cases ih h
  | present _ ih =>
    cases h' with
    | absent h => cases ih h
    | present => rfl
  | call _ ih =>
    cases h' with
    | call h => exact ih h
  | node _ _ ih =>
    cases h' with
    | node _ h => exact ih h
  | extendedFails _ ih =>
    cases h' with
    | extendedFails => rfl
    | unextended h | extended h => cases ih h
  | unextended _ _ ih ih' =>
    cases h' with
    | extendedFails h => cases ih h
    | unextended => exact ih ‹_›
    | extended h h' =>
      cases ih h
      cases ih' h'
  | extended _ _ ih ih' =>
    cases h' with
    | extendedFails h => cases ih h
    | unextended h h' =>
      cases ih h
      cases ih' h'
    | extended h h' =>
      cases ih h
      exact ih' h'

/-- Where a rule ends it has taken the tokens in front. -/
theorem Ends.spans {result : Option Place} (h : Ends rules rule place result)
    (hresult : result = some next) : ∃ ts, Spans rules rule place ts next := by
  induction h generalizing next with
  | one test place =>
    obtain ⟨ts, htake⟩ := endOf_eq_some.mp hresult
    exact ⟨ts, .one htake⟩
  | seqNil =>
    cases hresult
    exact ⟨[], .seqNil⟩
  | manyNil =>
    cases hresult
    exact ⟨[], .manyNil⟩
  | absent =>
    cases hresult
    exact ⟨[], .absent⟩
  | seqFails | choiceNil | present | extendedFails => cases hresult
  | seqCons _ _ ih ih' =>
    obtain ⟨ts, hts⟩ := ih rfl
    obtain ⟨us, hus⟩ := ih' hresult
    exact ⟨ts ++ us, .seqCons hts hus⟩
  | manyCons _ _ ih ih' =>
    obtain ⟨ts, hts⟩ := ih rfl
    obtain ⟨us, hus⟩ := ih' hresult
    exact ⟨ts ++ us, .manyCons hts hus⟩
  | choiceHead _ ih =>
    obtain ⟨ts, hts⟩ := ih hresult
    exact ⟨ts, .choiceHead hts⟩
  | choiceTail _ _ _ ih =>
    obtain ⟨ts, hts⟩ := ih hresult
    exact ⟨ts, .choiceTail hts⟩
  | call _ ih =>
    obtain ⟨ts, hts⟩ := ih hresult
    exact ⟨ts, .call hts⟩
  | node kind _ ih =>
    obtain ⟨ts, hts⟩ := ih hresult
    exact ⟨_, .node kind hts⟩
  | unextended _ _ ih _ =>
    obtain ⟨ts, hts⟩ := ih hresult
    exact ⟨ts, .unextended hts⟩
  | @extended kind _ _ _ _ _ _ _ ih ih' =>
    obtain ⟨ts, hts⟩ := ih rfl
    obtain ⟨us, hus⟩ := ih' hresult
    exact ⟨_, .extended kind hts hus⟩
  | joined place =>
    split at hresult
    · next hjoined =>
      cases hresult
      exact ⟨[], .joined hjoined⟩
    · cases hresult
  | assignable place =>
    split at hresult
    · next hassignable =>
      cases hresult
      exact ⟨[], .assignable hassignable⟩
    · cases hresult

theorem Ends.ne_of_consumes (hfits : k.Fits rules) (h : Ends rules rule place (some next))
    (hconsumes : rule.consumes k = true) : next ≠ place := by
  rintro rfl
  obtain ⟨ts, hspans⟩ := h.spans rfl
  exact absurd (hspans.length_lt hfits hconsumes) (Nat.lt_irrefl _)

/-- At a place a rule comes to an end. -/
theorem exists_ends (hfits : k.Fits rules) (hranked : rule.isRanked k = true) (place : Place) :
    ∃ result, Ends rules rule place result :=
  ⟨_, ends_of_reaches hfits ⟨hranked, Nat.le_refl _⟩⟩

theorem Takes.ends (hfits : k.Fits rules) (hranked : rule.isRanked k = true) {n : Nat}
    (h : Takes rules n rule place ts next) : Ends rules rule place (some next) := by
  have hreaches : Reaches k (max n (nestingPerToken * place.rest.length + rule.height k)) rule place :=
    ⟨hranked, Nat.le_max_right ..⟩
  have hends := ends_of_reaches hfits hreaches
  rwa [h _ (Nat.le_max_left ..)] at hends

theorem Rejects.ends (hfits : k.Fits rules) (hranked : rule.isRanked k = true)
    (h : Rejects rules rule place) : Ends rules rule place none := by
  have hreaches : Reaches k (nestingPerToken * place.rest.length + rule.height k) rule place :=
    ⟨hranked, Nat.le_refl _⟩
  have hends := ends_of_reaches hfits hreaches
  rwa [h] at hends

/-! ## What rules take, part by part -/

/-- A rule takes tokens and builds trees where it is not cut off. -/
def Parses (k : Ranking S) (rules : S → Rule S) (rule : Rule S) (place : Place) (ts : List Tree)
    (next : Place) : Prop :=
  ∃ fuel, Reaches k fuel rule place ∧ matchRule rules fuel rule place = some (ts, next)

namespace Parses

variable {first inner : Rule S} {others : List (Rule S)}

theorem spans (h : Parses k rules rule place ts next) : Spans rules rule place ts next := by
  obtain ⟨fuel, -, hmatch⟩ := h
  exact spans_of_matchRule hmatch

theorem ends (hfits : k.Fits rules) (h : Parses k rules rule place ts next) :
    Ends rules rule place (some next) := by
  obtain ⟨fuel, hreaches, hmatch⟩ := h
  have hends := ends_of_reaches hfits hreaches
  rwa [hmatch] at hends

theorem of_seq (hfits : k.Fits rules) (h : Parses k rules (.seq (first :: others)) place ts next) :
    ∃ us vs mid, ts = us ++ vs ∧ Parses k rules first place us mid
      ∧ Parses k rules (.seq others) mid vs next := by
  obtain ⟨fuel, hreaches, hmatch⟩ := h
  obtain ⟨fuel, rfl⟩ := Nat.exists_eq_add_of_le' hreaches.pos
  simp only [matchRule, Option.bind_eq_bind, Option.bind_eq_some_iff, Option.pure_def,
    Option.some.injEq, Prod.mk.injEq] at hmatch
  obtain ⟨⟨us, mid⟩, hfirst, ⟨vs, next'⟩, hothers, rfl, rfl⟩ := hmatch
  exact ⟨us, vs, mid, rfl, ⟨fuel, hreaches.seqHead, hfirst⟩,
    ⟨fuel, hreaches.seqTail hfits (spans_of_matchRule hfirst), hothers⟩⟩

theorem of_seqNil (h : Parses k rules (.seq []) place ts next) : ts = [] ∧ next = place := by
  cases h.spans
  exact ⟨rfl, rfl⟩

theorem of_choice (hfits : k.Fits rules)
    (h : Parses k rules (.choice (first :: others)) place ts next) :
    Parses k rules first place ts next
      ∨ Ends rules first place none ∧ Parses k rules (.choice others) place ts next := by
  obtain ⟨fuel, hreaches, hmatch⟩ := h
  obtain ⟨fuel, rfl⟩ := Nat.exists_eq_add_of_le' hreaches.pos
  rw [matchRule] at hmatch
  cases hfirst : matchRule rules fuel first place with
  | some found =>
    rw [hfirst] at hmatch
    cases hmatch
    exact .inl ⟨fuel, hreaches.choiceHead, hfirst⟩
  | none =>
    rw [hfirst] at hmatch
    have hends := ends_of_reaches hfits hreaches.choiceHead
    rw [hfirst] at hends
    exact .inr ⟨hends, fuel, hreaches.choiceTail, hmatch⟩

/-- One of the alternatives matches. -/
theorem exists_of_choice (hfits : k.Fits rules) {list : List (Rule S)}
    (h : Parses k rules (.choice list) place ts next) :
    ∃ r ∈ list, Parses k rules r place ts next := by
  induction list with
  | nil => cases h.spans
  | cons first others ih =>
    rcases h.of_choice hfits with h | ⟨-, h⟩
    · exact ⟨first, List.mem_cons_self .., h⟩
    · obtain ⟨r, hr, h⟩ := ih h
      exact ⟨r, List.mem_cons_of_mem _ hr, h⟩

theorem of_optional (hfits : k.Fits rules)
    (h : Parses k rules (.optional inner) place ts next) :
    Parses k rules inner place ts next ∨ Ends rules inner place none ∧ ts = [] ∧ next = place := by
  refine (h.of_choice hfits).imp_right fun ⟨hnone, hnil⟩ => ⟨hnone, ?_⟩
  rcases hnil.of_choice hfits with hnil | ⟨-, hnil⟩
  · exact hnil.of_seqNil
  · cases hnil.spans

/-- What holds behind the last repetition and is carried from each to the one before it. -/
theorem many_induction (hfits : k.Fits rules) {motive : Place → List Tree → Prop}
    (hdone : Ends rules inner next none → motive next [])
    (hstep : ∀ place mid us vs, Parses k rules inner place us mid →
      Parses k rules (.many inner) mid vs next → motive mid vs → motive place (us ++ vs))
    (h : Parses k rules (.many inner) place ts next) : motive place ts := by
  obtain ⟨fuel, hreaches, hmatch⟩ := h
  induction fuel generalizing place ts with
  | zero => exact absurd hreaches.pos (Nat.lt_irrefl 0)
  | succ fuel ih =>
    rw [matchRule] at hmatch
    have hends := ends_of_reaches hfits hreaches.many
    cases hinner : matchRule rules fuel inner place with
    | none =>
      rw [hinner] at hmatch hends
      cases hmatch
      exact hdone hends
    | some found =>
      rw [hinner] at hmatch
      obtain ⟨us, mid⟩ := found
      simp only [Option.bind_eq_bind, Option.bind_eq_some_iff, Option.pure_def, Option.some.injEq,
        Prod.mk.injEq] at hmatch
      obtain ⟨⟨vs, next'⟩, hmore, rfl, rfl⟩ := hmatch
      have hreaches' := hreaches.manyTail hfits (spans_of_matchRule hinner)
      exact hstep place mid us vs ⟨fuel, hreaches.many, hinner⟩ ⟨fuel, hreaches', hmore⟩
        (ih hreaches' hmore)

theorem of_call (hfits : k.Fits rules) {symbol : S}
    (h : Parses k rules (.call symbol) place ts next) :
    Parses k rules (rules symbol) place ts next := by
  obtain ⟨fuel, hreaches, hmatch⟩ := h
  obtain ⟨fuel, rfl⟩ := Nat.exists_eq_add_of_le' hreaches.pos
  rw [matchRule] at hmatch
  exact ⟨fuel, hreaches.call hfits, hmatch⟩

theorem of_node {kind : NodeKind} (h : Parses k rules (.node kind inner) place ts next) :
    ∃ us, ts = gather kind us ∧ Parses k rules inner place us next := by
  obtain ⟨fuel, hreaches, hmatch⟩ := h
  obtain ⟨fuel, rfl⟩ := Nat.exists_eq_add_of_le' hreaches.pos
  rw [matchRule, Option.map_eq_some_iff] at hmatch
  obtain ⟨⟨us, next'⟩, hinner, heq⟩ := hmatch
  cases heq
  exact ⟨us, rfl, fuel, hreaches.node, hinner⟩

end Parses

/-! ## Single tokens -/

/-- The place after the next token, if that passes a test. -/
theorem endOf_take? (place : Place) (test : TokenTest) : endOf (place.take? test)
    = match place.rest.dropWhile Token.isComment with
      | [] => none
      | t :: rest => if test.accepts t then some ⟨some t, rest⟩ else none := by
  rw [endOf, Place.take?]
  cases place.rest.dropWhile Token.isComment with
  | nil => rfl
  | cons t rest =>
    dsimp only
    split <;> rfl

theorem Place.next_of_take? {place next : Place} {test : TokenTest} {ts : List Tree}
    (h : place.take? test = some (ts, next)) : ∃ t,
      place.rest.dropWhile Token.isComment = t :: next.rest ∧ test.accepts t = true
        ∧ next.last = some t := by
  have hend : endOf (place.take? test) = some next := by rw [h]; rfl
  rw [endOf_take?] at hend
  split at hend
  · cases hend
  · next t rest hdrop =>
    split at hend
    · next haccepts =>
      cases hend
      exact ⟨t, hdrop, haccepts, rfl⟩
    · cases hend

/-- The next token that is no comment. -/
def nextToken? (tokens : List Token) : Option Token := (tokens.dropWhile Token.isComment).head?

theorem nextToken?_append {comments rest : List Token} {t : Token}
    (hcomments : ∀ c ∈ comments, c.isComment = true) (ht : t.isComment = false) :
    nextToken? (comments ++ t :: rest) = some t := by
  rw [nextToken?, List.dropWhile_append_of_pos hcomments, dropWhile_isComment_cons ht]
  rfl

/-- The next token does not depend on what follows other tokens. -/
theorem nextToken?_append_of_mem {tokens : List Token} (h : ∃ t ∈ tokens, t.isComment = false)
    (rest : List Token) : nextToken? (tokens ++ rest) = nextToken? tokens := by
  obtain ⟨t, ht, hcomment⟩ := h
  rw [nextToken?, nextToken?, List.dropWhile_append]
  split
  · next hempty =>
    rw [List.isEmpty_iff, List.dropWhile_eq_nil_iff] at hempty
    rw [hempty t ht] at hcomment
    cases hcomment
  · next hempty => rw [List.head?_append_of_ne_nil _ (by simpa using hempty)]

/-- The next token is taken, with the comments in front of it. -/
theorem Ends.token {test : TokenTest} {comments rest : List Token} {t : Token}
    (last : Option Token) (hcomments : ∀ c ∈ comments, c.isComment = true)
    (ht : t.isComment = false) (haccepts : test.accepts t = true) :
    Ends rules (.one test) ⟨last, comments ++ t :: rest⟩ (some ⟨some t, rest⟩) := by
  have h : Ends rules (.one test) ⟨last, comments ++ t :: rest⟩
      (endOf (Place.take? ⟨last, comments ++ t :: rest⟩ test)) := .one test _
  rw [endOf_take?] at h
  dsimp only at h
  rw [List.dropWhile_append_of_pos hcomments, dropWhile_isComment_cons ht] at h
  dsimp only at h
  rwa [if_pos haccepts] at h

/-- What was taken where a rule for one token ends. -/
theorem Ends.exists_token {test : TokenTest} (h : Ends rules (.one test) place (some next)) :
    ∃ comments t, place.rest = comments ++ t :: next.rest ∧ (∀ c ∈ comments, c.isComment = true)
      ∧ t.isComment = false ∧ test.accepts t = true ∧ next.last = some t := by
  obtain ⟨ts, htake⟩ := endOf_eq_some.mp (Ends.unique (.one test place) h)
  obtain ⟨t, hdrop, haccepts, hlast⟩ := Place.next_of_take? htake
  have hsplit := List.takeWhile_append_dropWhile (p := Token.isComment) (l := place.rest)
  rw [hdrop] at hsplit
  refine ⟨_, t, hsplit.symm, fun c hc => List.mem_takeWhile_imp hc, ?_, haccepts, hlast⟩
  have hnot := List.head?_dropWhile_not Token.isComment place.rest
  rw [hdrop] at hnot
  exact hnot

/-- What a rule has taken where it ends: nothing, or some tokens. Then the last of them is no comment,
and it is the one that is remembered. -/
theorem Ends.exists_last {result : Option Place} (h : Ends rules rule place result)
    (hresult : result = some next) : ∃ taken, place.rest = taken ++ next.rest
      ∧ (next = place ∨ ∃ before t, taken = before ++ [t] ∧ next.last = some t
        ∧ t.isComment = false) := by
  have hsteps : ∀ {place mid next : Place},
      (∃ taken, place.rest = taken ++ mid.rest ∧ (mid = place
        ∨ ∃ before t, taken = before ++ [t] ∧ mid.last = some t ∧ t.isComment = false)) →
      (∃ taken, mid.rest = taken ++ next.rest ∧ (next = mid
        ∨ ∃ before t, taken = before ++ [t] ∧ next.last = some t ∧ t.isComment = false)) →
      ∃ taken, place.rest = taken ++ next.rest ∧ (next = place
        ∨ ∃ before t, taken = before ++ [t] ∧ next.last = some t ∧ t.isComment = false) := by
    rintro place mid next ⟨taken, hrest, htaken⟩ ⟨taken', hrest', htaken'⟩
    rcases htaken' with rfl | ⟨before, t, rfl, hlast, ht⟩
    · exact ⟨taken, hrest, htaken⟩
    · refine ⟨taken ++ before ++ [t], ?_, .inr ⟨_, t, rfl, hlast, ht⟩⟩
      rw [hrest, hrest', List.append_assoc, List.append_assoc, List.append_assoc]
  induction h generalizing next with
  | one test place =>
    have htest : Ends rules (.one test) place (some next) := hresult ▸ .one test place
    obtain ⟨comments, t, hplace, -, ht, -, hlast⟩ := htest.exists_token
    exact ⟨comments ++ [t], by rw [hplace, List.append_assoc, List.singleton_append],
      .inr ⟨comments, t, rfl, hlast, ht⟩⟩
  | seqNil | manyNil | absent =>
    cases hresult
    exact ⟨[], rfl, .inl rfl⟩
  | seqFails | choiceNil | present | extendedFails => cases hresult
  | seqCons _ _ ih ih' | manyCons _ _ ih ih' | extended _ _ ih ih' =>
    exact hsteps (ih rfl) (ih' hresult)
  | choiceHead _ ih | choiceTail _ _ _ ih | call _ ih | node _ _ ih | unextended _ _ ih _ =>
    exact ih hresult
  | joined place | assignable place =>
    split at hresult
    · cases hresult
      exact ⟨[], rfl, .inl rfl⟩
    · cases hresult

theorem Ends.taken {result : Option Place} (h : Ends rules rule place result)
    (hresult : result = some next) : ∃ taken, place.rest = taken ++ next.rest
      ∧ (next = place ∨ ∃ t ∈ taken, t.isComment = false) := by
  obtain ⟨taken, hrest, hlast⟩ := h.exists_last hresult
  refine ⟨taken, hrest, hlast.imp_right ?_⟩
  rintro ⟨before, t, rfl, -, ht⟩
  exact ⟨t, List.mem_append_right _ (List.mem_singleton_self t), ht⟩

theorem Ends.last_of_consumes (hfits : k.Fits rules) (h : Ends rules rule place (some next))
    (hconsumes : rule.consumes k = true) {taken : List Token} (hrest : place.rest = taken ++ next.rest) :
    ∃ before t, taken = before ++ [t] ∧ next.last = some t ∧ t.isComment = false := by
  obtain ⟨found, hfound, hlast⟩ := h.exists_last rfl
  obtain rfl : found = taken := List.append_cancel_right (hfound.symm.trans hrest)
  exact hlast.resolve_left (h.ne_of_consumes hfits hconsumes)

/-- The token that a rule for one token takes is the next one. -/
theorem Ends.next_token {test : TokenTest} (h : Ends rules (.one test) place (some next)) :
    ∃ t, nextToken? place.rest = some t ∧ test.accepts t = true ∧ next.last = some t := by
  obtain ⟨comments, t, hrest, hcomments, ht, haccepts, hlast⟩ := h.exists_token
  exact ⟨t, by rw [hrest, nextToken?_append hcomments ht], haccepts, hlast⟩

theorem Ends.of_next {test : TokenTest} {t : Token} (ht : nextToken? place.rest = some t)
    (haccepts : test.accepts t = true) : ∃ next, Ends rules (.one test) place (some next) := by
  have h : Ends rules (.one test) place (endOf (place.take? test)) := .one test place
  rw [endOf_take?] at h
  rw [nextToken?] at ht
  split at h
  · next hdrop =>
    rw [hdrop] at ht
    cases ht
  · next u rest hdrop =>
    rw [hdrop] at ht
    cases ht
    rw [if_pos haccepts] at h
    exact ⟨_, h⟩

/-- Two tests that the same token passes take it alike. -/
theorem Ends.same_token {test test' : TokenTest} {t : Token}
    (h : Ends rules (.one test) place (some next)) (ht : nextToken? place.rest = some t)
    (haccepts : test'.accepts t = true) : Ends rules (.one test') place (some next) := by
  obtain ⟨comments, u, hrest, hcomments, hu, -, hlast⟩ := h.exists_token
  rw [hrest, nextToken?_append hcomments hu, Option.some.injEq] at ht
  subst ht
  have htoken : Ends rules (.one test') ⟨place.last, comments ++ u :: next.rest⟩
      (some ⟨some u, next.rest⟩) := .token place.last hcomments hu haccepts
  rw [← hrest, ← hlast] at htoken
  exact htoken

/-- A rule for one token does not match where the next token is another one. -/
theorem Ends.refused {test : TokenTest}
    (h : ∀ t, nextToken? place.rest = some t → test.accepts t = false) :
    Ends rules (.one test) place none := by
  have hends : Ends rules (.one test) place (endOf (place.take? test)) := .one test place
  rw [endOf_take?] at hends
  rw [nextToken?] at h
  split at hends
  · exact hends
  · next t rest hdrop =>
    rw [hdrop] at h
    rwa [if_neg (by rw [h t rfl]; exact Bool.false_ne_true)] at hends

/-! ## The grammar of Java -/

namespace Grammar

/-- Chains of calls in the grammar: an expression is the longest way to a token, and a statement may
be one. -/
def ranking : Ranking Symbol where
  height
    | .file => 90
    | .statement => 80
    | .member | .interfaceMember | .annotationMember | .elementValue | .forHeader => 60
    | .classDecl | .interfaceDecl | .enumDecl | .recordDecl | .annotationDecl | .methodDecl => 40
    | .expression => 40
    | .ternary => 36
    | .binary => 33
    | .operand => 30
    | .chain => 26
    | .modifiers | .primary | .type | .creation => 24
    | .plainType => 20
    | .simpleType | .dimensions | .lambda | .suffix => 16
    | _ => 5
  consumes symbol := symbol ≠ .modifiers && symbol ≠ .file

theorem fits_ranking : ranking.Fits Grammar.rules := by
  intro symbol
  cases symbol <;> decide +kernel

end Grammar

/-- The depth for a file is deep enough, however many tokens it has. -/
theorem reaches_file (tokens : List Token) : Reaches Grammar.ranking
    (nestingPerToken * (tokens.length + 1)) (.call .file) ⟨none, tokens⟩ := by
  refine ⟨by rw [isRanked], ?_⟩
  dsimp only
  rw [Nat.mul_succ]
  exact Nat.add_le_add_left (by decide) _

/-- The trees of a file are those of its rule, with the comments at the end. -/
theorem parses_of_treesOf? {tokens : List Token} (h : treesOf? tokens = some ts) :
    ∃ us next, Parses Grammar.ranking Grammar.rules (.call .file) ⟨none, tokens⟩ us next
      ∧ next.rest.all Token.isComment = true ∧ ts = us ++ next.rest.map .leaf := by
  unfold treesOf? at h
  dsimp only at h
  split at h
  · next us next hmatch =>
    split at h
    · next hcomments =>
      cases h
      exact ⟨us, next, ⟨_, reaches_file tokens, hmatch⟩, hcomments, rfl⟩
    · cases h
  · cases h

/-- A file follows the grammar if its rule ends where only comments are left. -/
theorem isSome_treesOf? {tokens : List Token} {next : Place}
    (h : Ends Grammar.rules (.call .file) ⟨none, tokens⟩ (some next))
    (hcomments : next.rest.all Token.isComment = true) : (treesOf? tokens).isSome := by
  have hends := ends_of_reaches Grammar.fits_ranking (reaches_file tokens)
  obtain ⟨us, hmatch⟩ := endOf_eq_some.mp (hends.unique h)
  unfold treesOf?
  dsimp only
  rw [hmatch]
  dsimp only
  rw [if_pos hcomments]
  rfl

end Conformance.Java
