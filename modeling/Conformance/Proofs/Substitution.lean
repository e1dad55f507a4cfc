import Conformance.Store.Basic

/-!
# Laws of substitution

A type is a tree whose leaves may be type variables, and a substitution grafts types onto
those leaves. Three facts are used everywhere above this file: only the variables that a
type mentions matter (`substitute_congr`), two substitutions in a row are one
(`substitute_substitute`), and what a substituted type mentions comes from what was grafted
(`mentions_substitute`).

The last part is about the one substitution the store makes by itself, the one that puts the
arguments of a use of a class in the place of its parameters.
-/

namespace Conformance

namespace JavaType

/-! ## Induction over a type and all its arguments -/

/-- Induction over a type, with the hypothesis for every type argument of a class. -/
@[induction_eliminator]
theorem partsInduction {motive : JavaType → Prop} (void : motive .void)
    (primitive : ∀ p, motive (.primitive p))
    (classType : ∀ name arguments, (∀ a ∈ arguments, motive a) → motive (.classType name arguments))
    (array : ∀ t, motive t → motive (.array t)) (typeVar : ∀ x, motive (.typeVar x))
    (wildcard : motive .wildcard)
    (wildcardExtends : ∀ t, motive t → motive (.wildcardExtends t))
    (wildcardSuper : ∀ t, motive t → motive (.wildcardSuper t)) (t : JavaType) : motive t :=
  @JavaType.rec motive (fun ts => ∀ a ∈ ts, motive a) void primitive classType array typeVar
    wildcard wildcardExtends wildcardSuper (by simp)
    (fun first others h hs => by simpa using ⟨h, hs⟩) t

theorem substituteAll_eq_map (s : Substitution) (ts : List JavaType) :
    substituteAll s ts = ts.map (substitute s) := by
  induction ts with
  | nil => rfl
  | cons t ts ih => rw [substituteAll, ih, List.map_cons]

theorem mentionsAny_eq_any (x : String) (ts : List JavaType) :
    mentionsAny x ts = ts.any (mentions x) := by
  induction ts with
  | nil => rfl
  | cons t ts ih => rw [mentionsAny, ih, List.any_cons]

theorem mentions_classType {x name : String} {arguments : List JavaType} :
    (classType name arguments).mentions x = true ↔ ∃ a ∈ arguments, a.mentions x = true := by
  rw [mentions, mentionsAny_eq_any, List.any_eq_true]

theorem substitute_classType (s : Substitution) (name : String) (arguments : List JavaType) :
    (classType name arguments).substitute s = classType name (arguments.map (substitute s)) := by
  rw [substitute, substituteAll_eq_map]

/-! ## What a variable stands for -/

/-- Only the variables that a type mentions matter to a substitution. -/
theorem substitute_congr {s r : Substitution} {t : JavaType}
    (h : ∀ x, t.mentions x = true → (s x).getD (typeVar x) = (r x).getD (typeVar x)) :
    t.substitute s = t.substitute r := by
  induction t with
  | void => rfl
  | primitive p => rfl
  | wildcard => rfl
  | typeVar x => exact h x (by simp [mentions])
  | classType name arguments ih =>
    rw [substitute_classType, substitute_classType]
    congr 1
    refine List.map_congr_left fun a ha => ih a ha fun x hx => ?_
    exact h x (mentions_classType.mpr ⟨a, ha, hx⟩)
  | array t ih => simp only [substitute, ih h]
  | wildcardExtends t ih => simp only [substitute, ih h]
  | wildcardSuper t ih => simp only [substitute, ih h]

/-- Substitutions that make the same of a type agree on the variables that it mentions. -/
theorem eq_of_substitute_eq {s r : Substitution} {t : JavaType} (h : t.substitute s = t.substitute r)
    {x : String} (hx : t.mentions x = true) :
    (s x).getD (typeVar x) = (r x).getD (typeVar x) := by
  induction t with
  | void => cases hx
  | primitive p => cases hx
  | wildcard => cases hx
  | typeVar y =>
    have hyx : y = x := by simpa [mentions] using hx
    exact hyx ▸ h
  | classType name arguments ih =>
    obtain ⟨a, ha, hx⟩ := mentions_classType.mp hx
    rw [substitute_classType, substitute_classType, classType.injEq] at h
    exact ih a ha (List.map_inj_left.mp h.2 a ha) hx
  | array t ih => exact ih (by simpa [substitute] using h) hx
  | wildcardExtends t ih => exact ih (by simpa [substitute] using h) hx
  | wildcardSuper t ih => exact ih (by simpa [substitute] using h) hx

theorem substitute_none (t : JavaType) : t.substitute (fun _ => none) = t := by
  induction t with
  | classType name arguments ih =>
    rw [substitute_classType]
    congr 1
    exact (List.map_congr_left ih).trans (List.map_id arguments)
  | array t ih => rw [substitute, ih]
  | wildcardExtends t ih => rw [substitute, ih]
  | wildcardSuper t ih => rw [substitute, ih]
  | _ => rfl

/-- A substitution leaves a type alone if it has no value for anything the type mentions. -/
theorem substitute_eq_self {s : Substitution} {t : JavaType}
    (h : ∀ x, t.mentions x = true → s x = none) : t.substitute s = t := by
  rw [substitute_congr (r := fun _ => none) fun x hx => by rw [h x hx], substitute_none]

/-- Two substitutions in a row are one, which applies the second to the values of the
first. -/
theorem substitute_substitute (s r : Substitution) (t : JavaType) :
    (t.substitute s).substitute r
      = t.substitute fun x => some (((s x).getD (typeVar x)).substitute r) := by
  induction t with
  | void => rfl
  | primitive p => rfl
  | wildcard => rfl
  | typeVar x => rfl
  | classType name arguments ih =>
    simp only [substitute_classType, List.map_map]
    congr 1
    exact List.map_congr_left ih
  | array t ih => simp only [substitute, ih]
  | wildcardExtends t ih => simp only [substitute, ih]
  | wildcardSuper t ih => simp only [substitute, ih]

theorem mentions_substitute {s : Substitution} {t : JavaType} {y : String}
    (h : (t.substitute s).mentions y = true) :
    ∃ x, t.mentions x = true ∧ ((s x).getD (typeVar x)).mentions y = true := by
  induction t with
  | void => simp [substitute, mentions] at h
  | primitive p => simp [substitute, mentions] at h
  | wildcard => simp [substitute, mentions] at h
  | typeVar x => exact ⟨x, by simp [mentions], h⟩
  | classType name arguments ih =>
    rw [substitute_classType, mentions_classType] at h
    obtain ⟨b, hb, hy⟩ := h
    obtain ⟨a, ha, rfl⟩ := List.mem_map.mp hb
    obtain ⟨x, hx, hxy⟩ := ih a ha hy
    exact ⟨x, mentions_classType.mpr ⟨a, ha, hx⟩, hxy⟩
  | array t ih => exact ih h
  | wildcardExtends t ih => exact ih h
  | wildcardSuper t ih => exact ih h

/-- What a substituted type mentions was there before or is mentioned by a value. -/
theorem mentions_or_of_substitute {s : Substitution} {t : JavaType} {y : String}
    (h : (t.substitute s).mentions y = true) :
    t.mentions y = true ∨ ∃ x u, s x = some u ∧ u.mentions y = true := by
  obtain ⟨x, hx, hxy⟩ := mentions_substitute h
  cases hs : s x with
  | none =>
    rw [hs, Option.getD_none, mentions, decide_eq_true_iff] at hxy
    exact .inl (hxy ▸ hx)
  | some u =>
    rw [hs, Option.getD_some] at hxy
    exact .inr ⟨x, u, hs, hxy⟩

/-! ## The variables of a type -/

/-- All type variables that the type mentions are of a kind. -/
def MentionsOnly (t : JavaType) (P : String → Prop) : Prop := ∀ x, t.mentions x = true → P x

section MentionsOnly

variable {P Q : String → Prop} {t : JavaType}

theorem MentionsOnly.mono (h : t.MentionsOnly P) (hPQ : ∀ x, P x → Q x) : t.MentionsOnly Q :=
  fun x hx => hPQ x (h x hx)

theorem mentionsOnly_typeVar {x : String} : (typeVar x).MentionsOnly P ↔ P x := by
  simp [MentionsOnly, mentions]

theorem mentionsOnly_classType {name : String} {arguments : List JavaType} :
    (classType name arguments).MentionsOnly P ↔ ∀ a ∈ arguments, a.MentionsOnly P := by
  constructor
  · intro h a ha x hx
    exact h x (mentions_classType.mpr ⟨a, ha, hx⟩)
  · intro h x hx
    obtain ⟨a, ha, hx⟩ := mentions_classType.mp hx
    exact h a ha x hx

theorem mentions_erasure {x : String} (h : t.erasure.mentions x = true) : t.mentions x = true := by
  induction t with
  | classType name arguments => cases h
  | array t ih => exact ih h
  | _ => exact h

/-- A substituted type mentions what the values of its variables do. -/
theorem MentionsOnly.substitute {s : Substitution} (h : t.MentionsOnly P)
    (hs : ∀ x, P x → ((s x).getD (typeVar x)).MentionsOnly Q) : (t.substitute s).MentionsOnly Q := by
  intro y hy
  obtain ⟨x, hx, hxy⟩ := mentions_substitute hy
  exact hs x (h x hx) y hxy

end MentionsOnly

/-! ## What a substitution cannot change -/

/-- Whether a type may be the value of a type parameter. -/
def isBindable : JavaType → Bool
  | .void | .primitive _ | .wildcard | .wildcardExtends _ | .wildcardSuper _ => false
  | .classType _ _ | .array _ | .typeVar _ => true

/-- A class type stays one, and nothing but a variable becomes one. -/
theorem className?_substitute {s : Substitution} {t : JavaType} (h : ∀ x, t ≠ typeVar x) :
    (t.substitute s).className? = t.className? := by
  cases t with
  | typeVar x => exact absurd rfl (h x)
  | classType name arguments => rw [substitute_classType, className?, className?]
  | _ => rfl

end JavaType

/-- All values of the substitution may be values of type parameters. -/
def Substitution.Bindable (s : Substitution) : Prop :=
  ∀ x u, s x = some u → u.isBindable = true

namespace JavaType

theorem isBindable_substitute {s : Substitution} (hs : s.Bindable) (t : JavaType) :
    (t.substitute s).isBindable = t.isBindable := by
  cases t with
  | typeVar x =>
      rw [substitute]
      cases hx : s x with
      | none => rfl
      | some u => exact hs x u hx
  | classType name arguments => rw [substitute_classType, isBindable, isBindable]
  | _ => rfl

theorem substitute_eq_primitive {s : Substitution} (hs : s.Bindable) {t : JavaType} {p : Primitive} :
    t.substitute s = primitive p ↔ t = primitive p := by
  constructor
  · intro h
    have hb := isBindable_substitute hs t
    rw [h] at hb
    cases t <;> simp_all [substitute, isBindable]
  · rintro rfl
    rfl

theorem isObject_substitute {s : Substitution} {t : JavaType} (h : t.isObject = true) :
    (t.substitute s).isObject = true := by
  cases t with
  | classType name arguments => simpa [substitute_classType, isObject] using h
  | _ => simp [isObject] at h

end JavaType

namespace Substitution

/-- The value of a variable is one of those that the pairs give to it. -/
theorem mem_of_ofPairs {pairs : List (String × JavaType)} {x : String} {u : JavaType}
    (h : ofPairs pairs x = some u) : (x, u) ∈ pairs := by
  obtain ⟨before, after, hpairs, -⟩ := List.lookup_eq_some_iff.mp h
  exact List.mem_reverse.mp (hpairs ▸ List.mem_append_right before (List.mem_cons_self ..))

theorem ofPairs_eq_none {pairs : List (String × JavaType)} {x : String} :
    ofPairs pairs x = none ↔ x ∉ pairs.map Prod.fst := by
  rw [ofPairs, List.lookup_eq_none_iff]
  constructor
  · intro h hx
    obtain ⟨pair, hpair, rfl⟩ := List.mem_map.mp hx
    simpa using h pair (List.mem_reverse.mpr hpair)
  · intro h pair hpair
    refine bne_iff_ne.mpr ?_
    rintro rfl
    exact h (List.mem_map_of_mem (List.mem_reverse.mp hpair))

end Substitution

/-! ## The own type parameters of a method -/

/-- The names of the type parameters that a method declares itself. -/
def MethodDef.typeParamNames (m : MethodDef) : List String := m.typeParams.map (·.name)

/-- Erasing puts an erased parameter in the place of its name ... -/
theorem MethodDef.erasingSubstitution_eq_some {m : MethodDef} {x : String} {e : JavaType}
    (h : m.erasingSubstitution x = some e) : ∃ p ∈ m.typeParams, p.name = x ∧ p.erasure = e := by
  simpa using Substitution.mem_of_ofPairs h

/-- ... and leaves all other names alone. -/
theorem MethodDef.erasingSubstitution_eq_none {m : MethodDef} {x : String} :
    m.erasingSubstitution x = none ↔ x ∉ m.typeParamNames := by
  rw [erasingSubstitution, Substitution.ofPairs_eq_none, List.map_map]
  rfl

/-- Erasing type parameters does nothing to a method that has none. -/
theorem MethodDef.eraseTypeParams_eq_self {m : MethodDef} (h : m.typeParams = []) :
    m.eraseTypeParams = m := by
  have hnone : Substitution.ofPairs [] = fun _ => none := funext fun x => rfl
  have hid : JavaType.substitute (fun _ => none) = id := funext JavaType.substitute_none
  obtain ⟨name, typeParams, params, returnType, _, _, _⟩ := m
  cases h
  simp [eraseTypeParams, substitute, erasingSubstitution, hnone, JavaType.substituteAll_eq_map, hid]

/-! ## The arguments of a use of a class -/

namespace ClassDef

/-- The pairs of an instantiation name exactly the parameters. -/
theorem instantiationPairs_fst (params : List TypeParam) (arguments : List JavaType) :
    (instantiationPairs params arguments).map Prod.fst = params.map (·.name) := by
  fun_induction instantiationPairs params arguments with
  | case1 => rfl
  | case2 p params ih => rw [List.map_cons, List.map_cons, ih]
  | case3 p params a arguments ih => rw [List.map_cons, List.map_cons, ih]

/-- The values of an instantiation are arguments and erased parameters. -/
theorem mem_instantiationPairs {params : List TypeParam} {arguments : List JavaType}
    {pair : String × JavaType} (h : pair ∈ instantiationPairs params arguments) :
    pair.2 ∈ arguments ∨ ∃ p ∈ params, pair.2 = p.erasure := by
  fun_induction instantiationPairs params arguments with
  | case1 => simp at h
  | case2 p params ih =>
    rcases List.mem_cons.mp h with rfl | h
    · exact .inr ⟨p, by simp, rfl⟩
    · exact (ih h).imp id fun ⟨q, hq, e⟩ => ⟨q, by simp [hq], e⟩
  | case3 p params a arguments ih =>
    rcases List.mem_cons.mp h with rfl | h
    · exact .inl (by simp)
    · exact (ih h).imp (by simp +contextual) fun ⟨q, hq, e⟩ => ⟨q, by simp [hq], e⟩

/-- Mapping the arguments maps the values, if it leaves the erasures of those parameters alone that
no argument is given for. -/
theorem instantiationPairs_map {f : JavaType → JavaType} {params : List TypeParam}
    {arguments : List JavaType}
    (hf : ∀ p ∈ params.drop arguments.length, f p.erasure = p.erasure) :
    instantiationPairs params (arguments.map f)
      = (instantiationPairs params arguments).map fun pair => (pair.1, f pair.2) := by
  fun_induction instantiationPairs params arguments with
  | case1 => rfl
  | case2 p params ih =>
    simp only [List.length_nil, List.drop_zero, List.forall_mem_cons] at hf ih
    simp only [List.map_nil, instantiationPairs, List.map_cons, hf.1]
    rw [← ih hf.2, List.map_nil]
  | case3 p params a arguments ih =>
    simp only [List.length_cons, List.drop_succ_cons] at hf
    simp only [List.map_cons, instantiationPairs, ih hf]

theorem lookup_map_snd (f : JavaType → JavaType) (pairs : List (String × JavaType)) (x : String) :
    (pairs.map fun pair => (pair.1, f pair.2)).lookup x = (pairs.lookup x).map f := by
  induction pairs with
  | nil => rfl
  | cons pair pairs ih =>
    obtain ⟨y, t⟩ := pair
    simp only [List.map_cons, List.lookup_cons]
    split
    · rfl
    · exact ih

/-- A use of a class says nothing about names that are not parameters of the class. -/
theorem instantiation_eq_none {d : ClassDef} {x : String} (hx : x ∉ d.typeParamNames)
    (arguments : List JavaType) : d.instantiation arguments x = none := by
  rwa [instantiation, Substitution.ofPairs_eq_none, instantiationPairs_fst]

/-- A use of a class gives every parameter a value: one of the arguments or, where they are
too few, the erased parameter. -/
theorem instantiation_eq_some {d : ClassDef} {x : String} (hx : x ∈ d.typeParamNames)
    (arguments : List JavaType) :
    ∃ u, d.instantiation arguments x = some u
      ∧ (u ∈ arguments ∨ ∃ p ∈ d.typeParams, u = p.erasure) := by
  rw [instantiation]
  cases hl : Substitution.ofPairs (instantiationPairs d.typeParams arguments) x with
  | none =>
    rw [Substitution.ofPairs_eq_none, instantiationPairs_fst] at hl
    exact absurd hx hl
  | some u => exact ⟨u, rfl, mem_instantiationPairs (Substitution.mem_of_ofPairs hl)⟩

/-- The values of a use of a class mention what its arguments and erased parameters do. -/
theorem mentionsOnly_instantiation {d : ClassDef} {P : String → Prop} {arguments : List JavaType}
    (harguments : ∀ a ∈ arguments, a.MentionsOnly P)
    (hbounds : ∀ p ∈ d.typeParams, p.erasure.MentionsOnly P) {x : String}
    (hx : x ∈ d.typeParamNames) :
    ((d.instantiation arguments x).getD (.typeVar x)).MentionsOnly P := by
  obtain ⟨u, hu, hfrom⟩ := instantiation_eq_some hx arguments
  rw [hu, Option.getD_some]
  rcases hfrom with ha | ⟨p, hp, rfl⟩
  · exact harguments u ha
  · exact hbounds p hp

/-- Mapping the arguments of a use maps what the parameters stand for. -/
theorem instantiation_map {d : ClassDef} {f : JavaType → JavaType} {arguments : List JavaType}
    (hf : ∀ p ∈ d.typeParams.drop arguments.length, f p.erasure = p.erasure) (x : String) :
    d.instantiation (arguments.map f) x = (d.instantiation arguments x).map f := by
  rw [instantiation, instantiation, Substitution.ofPairs, Substitution.ofPairs,
    instantiationPairs_map hf, ← List.map_reverse, lookup_map_snd]

/-- Substituting in a type seen through a use of its class is seeing it through the
substituted use, as long as the type mentions parameters of the class only. -/
theorem substitute_instantiation {d : ClassDef} {s : Substitution} {t : JavaType}
    {arguments : List JavaType}
    (hf : ∀ p ∈ d.typeParams.drop arguments.length, p.erasure.substitute s = p.erasure)
    (ht : t.MentionsOnly (· ∈ d.typeParamNames)) :
    (t.substitute (d.instantiation arguments)).substitute s
      = t.substitute (d.instantiation (arguments.map (JavaType.substitute s))) := by
  rw [JavaType.substitute_substitute]
  refine JavaType.substitute_congr fun x hx => ?_
  obtain ⟨u, hu, -⟩ := instantiation_eq_some (ht x hx) arguments
  rw [instantiation_map hf, hu]
  rfl

end ClassDef

end Conformance
