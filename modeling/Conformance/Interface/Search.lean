import Conformance.Interface.Binding

/-!
# Searches

Matching a class with an interface is a search for a binding. It finds one, or comes to the end
without one; or it never ends, since it compares types and a comparison may lead to ever new
ones. A search that never ends does not get to what would have come after it: it is not a search
that failed, after which the next method has its turn. So the three outcomes are kept apart all
the way up.
-/

namespace Conformance

/-- What a search for a binding comes to. -/
inductive Search where
  /-- It gets to a comparison that never ends. -/
  | endless
  | failed
  | found (b : Binding)

namespace Search

/-- The binding that is found. -/
def binding? : Search → Option Binding
  | found b => some b
  | endless | failed => none

/-- Whether the search ends without a binding. -/
def isFailed : Search → Bool
  | failed => true
  | endless | found _ => false

/-- Goes on with the binding that is found. -/
def andThen (s : Search) (next : Binding → Search) : Search :=
  match s with
  | found b => next b
  | endless => endless
  | failed => failed

/-- What the first search that does not fail comes to, when there is one for each of some things. -/
def firstOf {α : Type} (search : α → Search) : List α → Search
  | [] => failed
  | a :: others =>
    match search a with
    | failed => firstOf search others
    | outcome => outcome

variable {s : Search} {next next' : Binding → Search} {b b' : Binding}

@[simp] theorem andThen_endless : endless.andThen next = endless := rfl
@[simp] theorem andThen_failed : failed.andThen next = failed := rfl
@[simp] theorem andThen_found : (found b).andThen next = next b := rfl

theorem binding?_eq_some : s.binding? = some b ↔ s = found b := by
  cases s <;> simp [binding?]

theorem andThen_eq_found : s.andThen next = found b' ↔ ∃ b, s = found b ∧ next b = found b' := by
  cases s <;> simp

theorem andThen_assoc :
    (s.andThen next).andThen next' = s.andThen fun b => (next b).andThen next' := by
  cases s <;> rfl

@[simp] theorem andThen_self : s.andThen found = s := by
  cases s <;> rfl

theorem andThen_ne_endless (h : s ≠ endless) (hnext : ∀ b, s = found b → next b ≠ endless) :
    s.andThen next ≠ endless := by
  cases s with
  | endless => exact absurd rfl h
  | failed => exact nofun
  | found b => exact hnext b rfl

section FirstOf

variable {α : Type} {search : α → Search} {a : α} {as : List α}

@[simp] theorem firstOf_nil : firstOf search [] = failed := rfl

theorem firstOf_cons_of_failed (h : search a = failed) :
    firstOf search (a :: as) = firstOf search as := by
  rw [firstOf, h]

theorem firstOf_cons_of_ne_failed (h : search a ≠ failed) :
    firstOf search (a :: as) = search a := by
  rw [firstOf]
  split
  · contradiction
  · rfl

@[simp] theorem firstOf_singleton : firstOf search [a] = search a := by
  by_cases h : search a = failed
  · rw [firstOf_cons_of_failed h, firstOf_nil, h]
  · exact firstOf_cons_of_ne_failed h

/-- What is found is found by one of the searches, and those in front of it fail. -/
theorem firstOf_eq_found : firstOf search as = found b ↔ ∃ before a after,
    as = before ++ a :: after ∧ (∀ x ∈ before, search x = failed) ∧ search a = found b := by
  induction as with
  | nil => simp
  | cons a as ih =>
    by_cases h : search a = failed
    · rw [firstOf_cons_of_failed h, ih]
      constructor
      · rintro ⟨before, x, after, rfl, hbefore, hx⟩
        exact ⟨a :: before, x, after, rfl, List.forall_mem_cons.mpr ⟨h, hbefore⟩, hx⟩
      · rintro ⟨before, x, after, heq, hbefore, hx⟩
        cases before with
        | nil =>
          obtain ⟨rfl, -⟩ := List.cons.inj heq
          rw [h] at hx
          cases hx
        | cons first before =>
          obtain ⟨-, heq⟩ := List.cons.inj heq
          exact ⟨before, x, after, heq, (List.forall_mem_cons.mp hbefore).2, hx⟩
    · rw [firstOf_cons_of_ne_failed h]
      constructor
      · exact fun hfound => ⟨[], a, as, rfl, by simp, hfound⟩
      · rintro ⟨before, x, after, heq, hbefore, hx⟩
        cases before with
        | nil =>
          obtain ⟨rfl, -⟩ := List.cons.inj heq
          exact hx
        | cons first before =>
          obtain ⟨rfl, -⟩ := List.cons.inj heq
          exact absurd (List.forall_mem_cons.mp hbefore).1 h

theorem exists_of_firstOf_eq_found (h : firstOf search as = found b) :
    ∃ a ∈ as, search a = found b := by
  obtain ⟨before, a, after, rfl, -, ha⟩ := firstOf_eq_found.mp h
  exact ⟨a, List.mem_append_right _ (List.mem_cons_self ..), ha⟩

/-- What is found first is found as well without searches in front of it that fail. -/
theorem firstOf_dropWhile (search : α → Search) (as : List α) :
    firstOf search (as.dropWhile fun a => (search a).isFailed) = firstOf search as := by
  induction as with
  | nil => rfl
  | cons a as ih =>
    cases ha : search a with
    | failed =>
      rw [List.dropWhile_cons_of_pos (by rw [ha]; rfl), firstOf_cons_of_failed ha]
      exact ih
    | _ => rw [List.dropWhile_cons_of_neg (by rw [ha]; exact Bool.false_ne_true)]

theorem firstOf_ne_endless (h : ∀ a ∈ as, search a ≠ endless) : firstOf search as ≠ endless := by
  induction as with
  | nil => exact nofun
  | cons a as ih =>
    rw [List.forall_mem_cons] at h
    by_cases hfailed : search a = failed
    · rw [firstOf_cons_of_failed hfailed]
      exact ih h.2
    · rw [firstOf_cons_of_ne_failed hfailed]
      exact h.1

end FirstOf

end Search

end Conformance
