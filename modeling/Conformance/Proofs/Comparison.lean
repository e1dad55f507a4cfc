import Mathlib.Data.Prod.Lex
import Mathlib.Order.WellFounded
import Conformance.Interface.Match
import Conformance.Store.CoreLibrary
import Conformance.Proofs.Walk

/-!
# When a comparison ends

A comparison of two types may lead to others: a primitive value is boxed, arrays are compared
by their elements, and the arguments of two uses of a class one after the other. `Asks` is
this relation between comparisons, and a comparison has an answer exactly if it does not lead
to ever new ones (`isSome_assignable_iff_acc`).

Comparisons can go on for ever. Seeing the candidate as a use of the target's class may make
it larger than it was, and a wildcard with a lower bound makes it the target of the next
comparison. Both have to come together: where no declared supertype holds a lower bound, the
two types of a comparison can exchange their roles only as often as the lower bounds in them
are nested, and between two exchanges the target gets smaller (`isSome_assignable`).

A search for a match that gets to a comparison without end does not end either
(`search_eq_endless`).
-/

namespace Conformance

open JavaType

/-- Answers can be compared, faults included. -/
instance decidableEqExcept {ε α : Type} [DecidableEq ε] [DecidableEq α] :
    DecidableEq (Except ε α)
  | .ok a, .ok b => decidable_of_iff (a = b) ⟨congrArg _, Except.ok.inj⟩
  | .error a, .error b => decidable_of_iff (a = b) ⟨congrArg _, Except.error.inj⟩
  | .ok _, .error _ => isFalse nofun
  | .error _, .ok _ => isFalse nofun

/-- The question whether a value of the second type may be used as one of the first. -/
abbrev Question := JavaType × JavaType

namespace Store

/-! ## The questions that a comparison leads to -/

/-- The question that a comparison of two references comes to. -/
def referenceQuestion? (target candidate : JavaType) : Option Question :=
  match target, candidate with
  | .primitive _, _ | _, .primitive _ => none
  | _, _ => some (target, candidate)

/-- The question that decides whether a type argument contains another, if there is one. A
lower bound exchanges the sides. -/
def containmentQuestion? (target argument : JavaType) : Option Question :=
  match target with
  | .wildcardExtends bound =>
    match argument with
    | .wildcardExtends inner => referenceQuestion? bound inner
    | .wildcard | .wildcardSuper _ => none
    | concrete => referenceQuestion? bound concrete
  | .wildcardSuper bound =>
    match argument with
    | .wildcardSuper inner => referenceQuestion? inner bound
    | .wildcard | .wildcardExtends _ => none
    | concrete => referenceQuestion? concrete bound
  | _ => none

/-- The questions that a comparison of type arguments gets to: that of a pair is asked if all
pairs before are contained. -/
inductive AsksAmong (assign : JavaType → JavaType → Verdict) :
    List JavaType → List JavaType → Question → Prop where
  | here {t a : JavaType} {ts as : List JavaType} {q : Question} :
      containmentQuestion? t a = some q → AsksAmong assign (t :: ts) (a :: as) q
  | later {t a : JavaType} {ts as : List JavaType} {q : Question} :
      containsOver assign t a = some (.ok true) → AsksAmong assign ts as q →
      AsksAmong assign (t :: ts) (a :: as) q

/-- The questions that a comparison leads to, given the answers one level down. -/
inductive AsksOver (store : Store) (assign : JavaType → JavaType → Verdict) :
    Question → Question → Prop where
  | boxed (name : String) (arguments : List JavaType) (p : Primitive) :
      AsksOver store assign (.classType name arguments, .primitive p)
        (.classType name arguments, .raw p.wrapper)
  | element {t c : JavaType} {q : Question} :
      t ≠ c → referenceQuestion? t c = some q → AsksOver store assign (.array t, .array c) q
  | argument {name other viewed : String} {targets others arguments : List JavaType}
      {q : Question} :
      classType name targets ≠ classType other others → name ≠ objectName →
      store.supertypeView (.classType other others) name = .ok (some (.classType viewed arguments)) →
      targets ≠ [] → arguments ≠ [] → targets.length = arguments.length →
      AsksAmong assign targets arguments q →
      AsksOver store assign (.classType name targets, .classType other others) q

/-- One comparison leads to another. -/
def Asks (store : Store) (p q : Question) : Prop :=
  store.AsksOver (fun t c => store.assignable t c) p q

/-! ## Asking and answering -/

section OneLevel

variable {store : Store} {f g : JavaType → JavaType → Verdict}

theorem referenceAssignableOver_of_question {t c : JavaType} {q : Question}
    (h : referenceQuestion? t c = some q) : referenceAssignableOver f t c = f q.1 q.2 := by
  unfold referenceQuestion? at h
  unfold referenceAssignableOver
  split at h <;> simp_all
  subst h
  rfl

theorem isSome_referenceAssignableOver {t c : JavaType} (h : referenceQuestion? t c = none) :
    (referenceAssignableOver f t c).isSome := by
  unfold referenceQuestion? at h
  unfold referenceAssignableOver
  split at h <;> simp_all

theorem containsOver_of_question {t a : JavaType} {q : Question}
    (h : containmentQuestion? t a = some q) : containsOver f t a = f q.1 q.2 := by
  cases t with
  | wildcardExtends bound =>
    cases a <;> simp only [containmentQuestion?] at h <;>
      first | exact referenceAssignableOver_of_question h | cases h
  | wildcardSuper bound =>
    cases a <;> simp only [containmentQuestion?] at h <;>
      first | exact referenceAssignableOver_of_question h | cases h
  | _ => cases h

theorem isSome_containsOver {t a : JavaType} (h : containmentQuestion? t a = none) :
    (containsOver f t a).isSome := by
  cases t with
  | wildcardExtends bound =>
    cases a <;> simp only [containmentQuestion?] at h <;>
      first | exact isSome_referenceAssignableOver h | rfl
  | wildcardSuper bound =>
    cases a <;> simp only [containmentQuestion?] at h <;>
      first | exact isSome_referenceAssignableOver h | rfl
  | _ => rfl

/-- Comparing type arguments ends if all questions that it gets to have answers. -/
theorem asksAmong_of_eq_none {ts as : List JavaType} (h : containsAllOver f ts as = none) :
    ∃ q, AsksAmong f ts as q ∧ f q.1 q.2 = none := by
  fun_induction containsAllOver f ts as with
  | case1 t ts a as hc ih =>
    obtain ⟨q, hq, hnone⟩ := ih h
    exact ⟨q, .later hc hq, hnone⟩
  | case2 t ts a as hc =>
    cases hq : containmentQuestion? t a with
    | none => simp [Option.isSome_iff_ne_none.mp (isSome_containsOver (f := f) hq)] at h
    | some q => exact ⟨q, .here hq, (containsOver_of_question hq).symm.trans h⟩
  | case3 => cases h

/-- Where comparing type arguments ends, all questions that it gets to have been answered. -/
theorem ne_none_of_asksAmong (hfg : ∀ t c, f t c = none ∨ f t c = g t c) {ts as : List JavaType}
    {q : Question} (hq : AsksAmong g ts as q) (h : containsAllOver f ts as ≠ none) :
    f q.1 q.2 ≠ none := by
  induction hq with
  | here hq =>
    intro hnone
    rw [containsAllOver, containsOver_of_question hq, hnone] at h
    exact h rfl
  | @later t a ts as q hc _ ih =>
    rw [containsAllOver] at h
    rcases containsOver_mono hfg t a with hn | he
    · rw [hn] at h
      exact absurd rfl h
    · rw [he, hc] at h
      exact ih h

theorem asksOver_of_subclassOver {name other : String} {targets others : List JavaType}
    (hne : classType name targets ≠ classType other others)
    (h : subclassOver store f name targets (.classType other others) = none) :
    ∃ q, store.AsksOver f (.classType name targets, .classType other others) q
      ∧ f q.1 q.2 = none := by
  unfold subclassOver at h
  split at h
  · cases h
  · next hobject =>
    split at h
    · cases h
    · next viewed arguments hview =>
      split at h
      · cases h
      · next hempty =>
        split at h
        · cases h
        · next hlength =>
          obtain ⟨q, hq, hnone⟩ := asksAmong_of_eq_none h
          simp only [Bool.or_eq_true, List.isEmpty_iff, not_or] at hempty
          exact ⟨q, .argument hne hobject hview hempty.1 hempty.2 (not_not.mp hlength) hq, hnone⟩
    · cases h

/-- A comparison without an answer leads to another one without. -/
theorem asksOver_of_eq_none {t c : JavaType} (h : store.assignableOver f t c = none) :
    ∃ q, store.AsksOver f (t, c) q ∧ f q.1 q.2 = none := by
  unfold assignableOver at h
  split at h
  · cases h
  · next hne =>
    split at h
    case h_5 name arguments p => exact ⟨_, .boxed name arguments p, h⟩
    case h_7 t c =>
      split at h
      · cases h
      · cases h
      · next ht hc =>
        have hq : referenceQuestion? t c = some (t, c) := by
          unfold referenceQuestion?
          split <;> simp_all
        exact ⟨(t, c), .element (fun e => hne (e ▸ rfl)) hq, h⟩
    case h_11 => exact asksOver_of_subclassOver hne h
    all_goals first
      | cases h
      | (split at h <;> cases h)

/-- Where a comparison has an answer, all those that it leads to have been answered. -/
theorem ne_none_of_asksOver (hfg : ∀ t c, f t c = none ∨ f t c = g t c) {p q : Question}
    (hq : store.AsksOver g p q) (h : store.assignableOver f p.1 p.2 ≠ none) :
    f q.1 q.2 ≠ none := by
  cases hq with
  | boxed name arguments p => exact h
  | @element t c q hne hq =>
    intro hnone
    refine h ?_
    unfold referenceQuestion? at hq
    split at hq
    · cases hq
    · cases hq
    · cases hq
      simp only [assignableOver]
      rw [if_neg (by simpa using hne)]
      exact hnone
  | argument hne hobject hview htargets harguments hlength hq =>
    refine ne_none_of_asksAmong hfg hq fun hnone => h ?_
    simp only [assignableOver, if_neg hne, subclassOver, if_neg hobject, hview]
    rw [if_neg (by simp [htargets, harguments]), if_neg (not_not.mpr hlength), hnone]

end OneLevel

/-! ## Answers and chains of questions -/

variable {store : Store}

theorem assignable_eq (store : Store) (t c : JavaType) :
    store.assignable t c = store.assignableOver (fun t c => store.assignable t c) t c := by
  rw [assignable]

/-- A comparison that does not end leads to another one that does not. -/
theorem asks_of_assignable_eq_none {t c : JavaType} (h : store.assignable t c = none) :
    ∃ q, store.Asks (t, c) q ∧ store.assignable q.1 q.2 = none :=
  asksOver_of_eq_none (store.assignable_eq t c ▸ h)

/-- From a comparison that ends every chain of questions ends. -/
theorem acc_of_assignable {t c : JavaType} {r : Except TypeFault Bool}
    (h : store.assignable t c = some r) : Acc (fun q p => store.Asks p q) (t, c) := by
  refine (assignable.partial_correctness store
    (fun t c r => store.assignable t c = some r ∧ Acc (fun q p => store.Asks p q) (t, c))
    (fun assign ih t c r h => ?_) t c r h).2
  -- what has been answered one level down is what the comparison would answer there
  have hle : ∀ t c, assign t c = none ∨ assign t c = store.assignable t c := by
    intro t c
    cases ha : assign t c with
    | none => exact .inl rfl
    | some r => exact .inr (ih t c r ha).1.symm
  have hover : store.assignable t c = some r := by
    rw [assignable_eq]
    rcases assignableOver_mono hle store t c with hn | he
    · rw [hn] at h
      cases h
    · rw [← he, h]
  refine ⟨hover, Acc.intro _ fun q hq => ?_⟩
  have hne := ne_none_of_asksOver hle hq (p := (t, c)) (by rw [h]; simp)
  obtain ⟨r', hr'⟩ := Option.ne_none_iff_exists'.mp hne
  exact (ih q.1 q.2 r' hr').2

/-- A comparison ends exactly if every chain of questions from it does. -/
theorem isSome_assignable_iff_acc (t c : JavaType) :
    (store.assignable t c).isSome ↔ Acc (fun q p => store.Asks p q) (t, c) := by
  constructor
  · intro h
    obtain ⟨r, hr⟩ := Option.isSome_iff_exists.mp h
    exact acc_of_assignable hr
  · intro h
    generalize hp : ((t, c) : Question) = p at h
    induction h generalizing t c with
    | intro p _ ih =>
      subst hp
      rw [Option.isSome_iff_ne_none]
      intro hnone
      obtain ⟨q, hq, hq'⟩ := asks_of_assignable_eq_none hnone
      have := ih q hq q.1 q.2 rfl
      rw [hq'] at this
      cases this

/-- A comparison that leads back to itself never ends. -/
theorem assignable_eq_none_of_asks_self {t c : JavaType} (h : store.Asks (t, c) (t, c)) :
    store.assignable t c = none := by
  rw [← Option.not_isSome_iff_eq_none, isSome_assignable_iff_acc,
    not_acc_iff_exists_descending_chain]
  exact ⟨fun _ => (t, c), rfl, fun _ => h⟩

/-! ## Answers reached in so many steps -/

/-- The answer of a comparison that is given up after so many questions in a row. -/
def assignableWithin (store : Store) : Nat → JavaType → JavaType → Verdict
  | 0 => fun _ _ => none
  | n + 1 => store.assignableOver (store.assignableWithin n)

/-- An answer that is reached is the answer. -/
theorem assignable_of_within {n : Nat} {t c : JavaType} {r : Except TypeFault Bool}
    (h : store.assignableWithin n t c = some r) : store.assignable t c = some r := by
  induction n generalizing t c r with
  | zero => cases h
  | succ n ih =>
    have hle : ∀ t c, store.assignableWithin n t c = none
        ∨ store.assignableWithin n t c = store.assignable t c := by
      intro t c
      cases ha : store.assignableWithin n t c with
      | none => exact .inl rfl
      | some r => exact .inr (ih ha).symm
    rw [assignable_eq]
    rcases assignableOver_mono hle store t c with hn | he
    · rw [assignableWithin, hn] at h
      cases h
    · rw [← he]
      exact h

/-! ## Stores without lower bounds -/

end Store

namespace JavaType

mutual

/-- How deep wildcards with a lower bound are nested in a type. -/
def lowerDepth : JavaType → Nat
  | classType _ arguments => lowerDepthAll arguments
  | array element => element.lowerDepth
  | wildcardExtends bound => bound.lowerDepth
  | wildcardSuper bound => bound.lowerDepth + 1
  | void | primitive _ | typeVar _ | wildcard => 0

/-- The greatest depth among some types. -/
def lowerDepthAll : List JavaType → Nat
  | [] => 0
  | first :: others => max first.lowerDepth (lowerDepthAll others)

end

theorem lowerDepth_classType_le {name : String} {arguments : List JavaType} {k : Nat} :
    (classType name arguments).lowerDepth ≤ k ↔ ∀ a ∈ arguments, a.lowerDepth ≤ k := by
  rw [lowerDepth]
  induction arguments with
  | nil => simp [lowerDepthAll]
  | cons a arguments ih => rw [lowerDepthAll, Nat.max_le, List.forall_mem_cons, ih]

/-- Substituting in a type without lower bounds nests them no deeper than they were. -/
theorem lowerDepth_substitute_le {s : Substitution} {k : Nat}
    (hs : ∀ x u, s x = some u → u.lowerDepth ≤ k) {t : JavaType} (ht : t.lowerDepth = 0) :
    (t.substitute s).lowerDepth ≤ k := by
  induction t with
  | typeVar x =>
    rw [substitute]
    cases hx : s x with
    | none => exact Nat.zero_le k
    | some u => exact hs x u hx
  | classType name arguments ih =>
    rw [substitute_classType, lowerDepth_classType_le]
    intro a ha
    obtain ⟨b, hb, rfl⟩ := List.mem_map.mp ha
    exact ih b hb (Nat.le_zero.mp (lowerDepth_classType_le.mp (Nat.le_of_eq ht) b hb))
  | array t ih => exact ih ht
  | wildcardExtends t ih => exact ih ht
  | wildcardSuper t ih => cases ht
  | _ => exact Nat.zero_le k

theorem lowerDepth_erasure_le (t : JavaType) : t.erasure.lowerDepth ≤ t.lowerDepth := by
  induction t with
  | classType name arguments ih => exact Nat.zero_le _
  | array t ih => exact ih
  | _ => exact Nat.le_refl _

end JavaType

/-- No declared supertype holds a lower bound, and no type parameter is erased to a type
that does. -/
structure ClassDef.LowerFree (d : ClassDef) : Prop where
  supertypes : ∀ u ∈ d.directSupertypes, u.lowerDepth = 0
  parameters : ∀ p ∈ d.typeParams, p.erasure.lowerDepth = 0

namespace Store

/-- No definition has a lower bound in its supertypes. -/
def LowerFree (store : Store) : Prop := ∀ name d, store.find? name = some d → d.LowerFree

section LowerFree

variable {store : Store}

/-- Lower bounds are nested nowhere above a type deeper than in the type itself. -/
theorem lowerDepth_supertypes_le (hstore : store.LowerFree) (c : JavaType) :
    ∀ u ∈ store.supertypes c, u.lowerDepth ≤ c.lowerDepth := by
  refine walk_forall (P := fun u => u.lowerDepth ≤ c.lowerDepth) ?_ [] [c] (by simp)
  intro name d arguments hd huse u hu
  have hsuper := (hstore name d hd).supertypes
  rcases mem_supersOfView.mp hu with ⟨-, -, v, hv, rfl⟩ | ⟨-, v, hv, rfl⟩
  · have hv0 := hsuper v hv
    have := lowerDepth_erasure_le v
    omega
  · refine lowerDepth_substitute_le (fun x w hx => ?_) (hsuper v hv)
    have hmem : x ∈ d.typeParamNames := by
      by_contra hn
      rw [ClassDef.instantiation_eq_none hn] at hx
      cases hx
    obtain ⟨w', hw', hfrom⟩ := ClassDef.instantiation_eq_some hmem arguments
    rw [hx] at hw'
    cases hw'
    rcases hfrom with ha | ⟨p, hp, rfl⟩
    · exact lowerDepth_classType_le.mp huse w ha
    · have := (hstore name d hd).parameters p hp
      omega

/-- What gets smaller from question to question: how deep lower bounds are nested in both types,
then the target; and boxing turns the candidate into a class once. -/
noncomputable def questionMeasure (q : Question) : Nat ×ₗ Nat ×ₗ Nat :=
  toLex (q.1.lowerDepth + q.2.lowerDepth, toLex (sizeOf q.1, if q.2.boxed = q.2 then 0 else 1))

theorem questionMeasure_lt {p q : Question}
    (h : q.1.lowerDepth + q.2.lowerDepth < p.1.lowerDepth + p.2.lowerDepth
      ∨ q.1.lowerDepth + q.2.lowerDepth ≤ p.1.lowerDepth + p.2.lowerDepth
        ∧ sizeOf q.1 < sizeOf p.1) :
    questionMeasure q < questionMeasure p := by
  rw [questionMeasure, questionMeasure, Prod.Lex.toLex_lt_toLex, Prod.Lex.toLex_lt_toLex]
  simp only
  omega

theorem eq_of_referenceQuestion? {t c : JavaType} {q : Question}
    (h : referenceQuestion? t c = some q) : q = (t, c) := by
  unfold referenceQuestion? at h
  split at h <;> simp_all

/-- The question about a type argument is about the bound of the wildcard; a lower bound is
one level less deep for it. -/
theorem containmentQuestion?_smaller {t a : JavaType} {q : Question}
    (h : containmentQuestion? t a = some q) :
    q.1.lowerDepth + q.2.lowerDepth < t.lowerDepth + a.lowerDepth
      ∨ q.1.lowerDepth + q.2.lowerDepth ≤ t.lowerDepth + a.lowerDepth ∧ sizeOf q.1 < sizeOf t := by
  cases t with
  | wildcardExtends bound =>
    right
    cases a <;> simp only [containmentQuestion?] at h <;>
      first
        | cases h
        | (cases eq_of_referenceQuestion? h; simp [lowerDepth])
  | wildcardSuper bound =>
    left
    cases a <;> simp only [containmentQuestion?] at h <;>
      first
        | cases h
        | (cases eq_of_referenceQuestion? h; simp only [lowerDepth]; omega)
  | _ => cases h

theorem mem_of_asksAmong {f : JavaType → JavaType → Verdict} {ts as : List JavaType} {q : Question}
    (h : AsksAmong f ts as q) : ∃ t ∈ ts, ∃ a ∈ as, containmentQuestion? t a = some q := by
  induction h with
  | here h => exact ⟨_, List.mem_cons_self .., _, List.mem_cons_self .., h⟩
  | later _ _ ih =>
    obtain ⟨t, ht, a, ha, h⟩ := ih
    exact ⟨t, List.mem_cons_of_mem _ ht, a, List.mem_cons_of_mem _ ha, h⟩

/-- Where no supertype holds a lower bound, every question is smaller than the one that led
to it. -/
theorem questionMeasure_lt_of_asks (hstore : store.LowerFree) {p q : Question}
    (h : store.Asks p q) : questionMeasure q < questionMeasure p := by
  cases h with
  | boxed name arguments p =>
    rw [questionMeasure, questionMeasure, Prod.Lex.toLex_lt_toLex, Prod.Lex.toLex_lt_toLex]
    simp [lowerDepth, lowerDepthAll, raw, boxed]
  | element hne hq =>
    cases eq_of_referenceQuestion? hq
    exact questionMeasure_lt (.inr ⟨by simp [lowerDepth], by simp⟩)
  | @argument name other viewed targets others arguments q hne hobject hview ht ha hlength hq =>
    obtain ⟨t, htmem, a, hamem, hq⟩ := mem_of_asksAmong hq
    have ht := lowerDepth_classType_le.mp (Nat.le_refl (classType name targets).lowerDepth) t htmem
    have hview := lowerDepth_supertypes_le hstore _ _ (mem_supertypes_of_view hview)
    have ha := lowerDepth_classType_le.mp hview a hamem
    have hsize : sizeOf t < sizeOf (classType name targets) := by
      have := List.sizeOf_lt_of_mem htmem
      simp only [JavaType.classType.sizeOf_spec]
      omega
    have := containmentQuestion?_smaller hq
    refine questionMeasure_lt ?_
    simp only
    omega

/-- In a store whose supertypes hold no lower bounds every comparison ends. -/
theorem isSome_assignable (hstore : store.LowerFree) (t c : JavaType) :
    (store.assignable t c).isSome := by
  have hwf : WellFounded fun q p => store.Asks p q :=
    Subrelation.wf (questionMeasure_lt_of_asks hstore) (InvImage.wf questionMeasure wellFounded_lt)
  exact (isSome_assignable_iff_acc t c).mpr (hwf.apply (t, c))

end LowerFree

/-- **A comparison ends unless it leads to ever new ones.** It has an answer exactly if no
infinite chain of questions starts from it; and where no declared supertype holds a lower
bound there is no such chain, whatever cycles the hierarchy has. -/
theorem assignable_ends (store : Store) :
    (∀ t c, (store.assignable t c).isSome
      ↔ ¬ ∃ chain : Nat → Question, chain 0 = (t, c) ∧ ∀ n, store.Asks (chain n) (chain (n + 1)))
    ∧ (store.LowerFree → ∀ t c, (store.assignable t c).isSome) := by
  refine ⟨fun t c => ?_, isSome_assignable⟩
  rw [isSome_assignable_iff_acc]
  exact not_iff_not.mp (not_acc_iff_exists_descending_chain.trans not_not.symm)

/-- Among the classes of the core library every comparison ends. -/
theorem coreLibrary_comparisons_end :
    Store.coreLibrary.LowerFree ∧ ∀ t c, (Store.coreLibrary.assignable t c).isSome := by
  have hdefs : ∀ d ∈ CoreLibrary.topClass :: CoreLibrary.languageClasses
      ++ CoreLibrary.collectionClasses ++ Primitive.all.map CoreLibrary.wrapperClass,
      (∀ u ∈ d.directSupertypes, u.lowerDepth = 0) ∧ ∀ p ∈ d.typeParams, p.erasure.lowerDepth = 0 := by
    decide
  have h : Store.coreLibrary.LowerFree := by
    intro name d hd
    have hmem := mem_of_find?_insertAll hd
    exact ⟨(hdefs d hmem).1, (hdefs d hmem).2⟩
  exact ⟨h, (assignable_ends Store.coreLibrary).2 h⟩

/-- A store with an interface `N<Z>` and a class `C` below `N<N<? super C>>`. -/
def selfAskingStore : Store :=
  Store.empty.insertAll
    [ { name := objectName, kind := .plainClass },
      { name := "p.N", kind := .interface, typeParams := [{ name := "Z" }] },
      { name := "p.C"
        kind := .plainClass
        superClass := some object
        interfaces := [.classType "p.N" [.classType "p.N" [.wildcardSuper (.raw "p.C")]]] } ]

/-- Whether a `C` is an `N<? super C>` depends on just that: the lower bound `C` has to be
within the argument of the `N` above `C`, which is `N<? super C>` again. -/
theorem selfAskingStore_never_ends :
    selfAskingStore.assignable (.classType "p.N" [.wildcardSuper (.raw "p.C")]) (.raw "p.C")
      = none := by
  have hview : selfAskingStore.supertypeView (.raw "p.C") "p.N"
      = .ok (some (.classType "p.N" [.classType "p.N" [.wildcardSuper (.raw "p.C")]])) :=
    supertypeView_eq_some.mpr (by decide +kernel)
  exact assignable_eq_none_of_asks_self
    (.argument (by decide) (by decide) hview (by simp) (by simp) rfl (.here rfl))

/-! ## Searches that get to such a comparison -/

section Searches

variable {store : Store}

/-- Without type parameters nothing is refused and nothing is bound. -/
theorem unify_nil (wanted offered : JavaType) (b : Binding) :
    store.unify [] wanted offered b = some b := by
  induction wanted generalizing offered b with
  | classType name arguments ih =>
    have hall : ∀ offereds b, store.unifyAll [] arguments offereds b = some b := by
      intro offereds b
      induction arguments generalizing offereds b with
      | nil => rfl
      | cons w arguments ihs =>
        cases offereds with
        | nil => rfl
        | cons o offereds =>
          rw [List.forall_mem_cons] at ih
          rw [unifyAll, ih.1]
          exact ihs ih.2 offereds b
    unfold unify
    split
    · rfl
    · split
      · split
        · exact hall _ b
        · rfl
      · rfl
  | array element ih =>
    unfold unify
    split
    · exact ih _ b
    · rfl
  | wildcardExtends bound ih =>
    unfold unify
    split
    · exact ih _ b
    · exact ih _ b
    · rfl
    · exact ih _ b
  | wildcardSuper bound ih =>
    unfold unify
    split
    · exact ih _ b
    · exact ih _ b
    · rfl
    · exact ih _ b
  | _ => rfl

theorem substitute_empty (t : JavaType) : Binding.empty.substitute t = t := by
  have hnone : Binding.empty.find? = fun _ => none := funext Binding.find?_empty
  rw [Binding.substitute, hnone, substitute_none]

/-- Fitting types without type parameters never ends if comparing them does not. -/
theorem fit_nil_eq_endless {wanted offered : JavaType} (h : store.assignable wanted offered = none) :
    store.fit [] wanted offered Binding.empty = .endless :=
  fit_eq_endless.mpr ⟨Binding.empty, unify_nil _ _ _, by rwa [substitute_empty]⟩

/-- A search never ends if the first candidate for the first method is looked at without end. -/
theorem search_eq_endless {className : String} {i : InterfaceDescriptor} {wanted : WantedMethod}
    {others : List WantedMethod} {offered : List MethodDef} {first : MethodDef}
    {rest : List MethodDef} (hparams : i.typeParams = []) (hmethods : i.methods = wanted :: others)
    (hcandidates : store.candidates className = .ok offered)
    (hfirst : offered.filter (WantedMethod.isNamedLike wanted) = first :: rest)
    (hendless : store.accept [] wanted first Binding.empty = .endless) :
    store.search className i = .endless := by
  have himplement : store.implement [] offered wanted Binding.empty = .endless := by
    rw [implement, hfirst, Search.firstOf_cons_of_ne_failed (by rw [hendless]; exact nofun), hendless]
  unfold search
  rw [hmethods, hcandidates, hparams]
  dsimp only
  rw [implementAll, himplement]
  rfl

end Searches

end Store

end Conformance
