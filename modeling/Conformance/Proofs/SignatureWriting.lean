import Conformance.ClassFile.Signature

/-!
# How signatures are written

The relations of this module say which texts spell a signature, one relation for each piece of the
notation. They are built like the readers: what nests is written over a relation for the types one
level down (`ReferenceWriting`), and a bound on the depth ties the knot (`Nested`). A type never
nests deeper than it is long, so the bound is no restriction (`Written`), and `Written` is what it
is built from (`written_iff`).

A signature may be spelled in more than one way, but the only choice there is are the brackets of
an empty list, which may be there or not. So a text is the one that the printer gives, or it holds
a pair of brackets that can be left out (`Tight`).
-/

namespace Conformance.ClassFile

/-! ## Lists -/

section Lists

variable {α : Type}

/-- The text falls into texts for the items. -/
inductive Each (W : α → List Char → Prop) : List α → List Char → Prop
  | nil : Each W [] []
  | cons {a : α} {as : List α} {cs ds : List Char} (first : W a cs) (others : Each W as ds) :
    Each W (a :: as) (cs ++ ds)

/-- A list in angle brackets. If it is empty, it may be left out. -/
inductive Bracketed (W : α → List Char → Prop) : List α → List Char → Prop
  | absent : Bracketed W [] []
  | present {as : List α} {cs : List Char} (items : Each W as cs) :
    Bracketed W as ('<' :: cs ++ ['>'])

/-- An item behind a character. -/
inductive Led (lead : Char) (W : α → List Char → Prop) : α → List Char → Prop
  | mk {a : α} {cs : List Char} (item : W a cs) : Led lead W a (lead :: cs)

end Lists

/-- A name that is read up to the first of some characters. -/
structure IsName (stops : List Char) (name : List Char) : Prop where
  nonempty : name ≠ []
  unbroken : ∀ c ∈ name, c ∉ stops

/-! ## Types over the types nested in them -/

section Nesting

variable (R : TypeSignature → List Char → Prop)

inductive ArgumentWriting : TypeArgument → List Char → Prop
  | any : ArgumentWriting .any ['*']
  | exact {t : TypeSignature} {cs : List Char} (type : R t cs) : ArgumentWriting (.exact t) cs
  | upTo {t : TypeSignature} {cs : List Char} (type : R t cs) :
    ArgumentWriting (.upTo t) ('+' :: cs)
  | downTo {t : TypeSignature} {cs : List Char} (type : R t cs) :
    ArgumentWriting (.downTo t) ('-' :: cs)

/-- A segment after the first one. -/
inductive SegmentWriting : ClassSegment → List Char → Prop
  | mk {name : String} {arguments : List TypeArgument} {cs : List Char}
    (isName : IsName classNameEnd name.toList)
    (list : Bracketed (ArgumentWriting R) arguments cs) :
    SegmentWriting (.mk name arguments) (name.toList ++ cs)

/-- A class type. The package and the first name are one name to the reader, which is taken apart
at the slashes. -/
inductive ClassWriting : ClassTypeSignature → List Char → Prop
  | mk {package : List String} {name : String} {arguments : List TypeArgument}
    {inner : List ClassSegment} {cs ds : List Char}
    (isName : IsName classNameEnd (qualifiedName package name))
    (noSlash : ∀ part ∈ name :: package, '/' ∉ part.toList)
    (list : Bracketed (ArgumentWriting R) arguments cs)
    (segments : Each (Led '.' (SegmentWriting R)) inner ds) :
    ClassWriting (.mk package (.mk name arguments :: inner))
      ('L' :: qualifiedName package name ++ cs ++ ds ++ [';'])

inductive TypeWriting : TypeSignature → List Char → Prop
  | base (p : Primitive) : TypeWriting (.base p) [p.letter]
  | reference {t : TypeSignature} {cs : List Char} (type : R t cs) : TypeWriting t cs

inductive ReferenceWriting : TypeSignature → List Char → Prop
  | classType {c : ClassTypeSignature} {cs : List Char} (type : ClassWriting R c cs) :
    ReferenceWriting (.classType c) cs
  | typeVar {name : String} (isName : IsName [';'] name.toList) :
    ReferenceWriting (.typeVar name) ('T' :: name.toList ++ [';'])
  | array {t : TypeSignature} {cs : List Char} (element : TypeWriting R t cs) :
    ReferenceWriting (.array t) ('[' :: cs)

/-! ## Signatures -/

inductive BoundWriting : Option TypeSignature → List Char → Prop
  | absent : BoundWriting none []
  | present {t : TypeSignature} {cs : List Char} (type : R t cs) : BoundWriting (some t) cs

inductive ParameterWriting : TypeParameter → List Char → Prop
  | mk {name : String} {classBound : Option TypeSignature} {interfaceBounds : List TypeSignature}
    {cs ds : List Char} (isName : IsName [':', '>'] name.toList)
    (first : BoundWriting R classBound cs) (others : Each (Led ':' R) interfaceBounds ds) :
    ParameterWriting ⟨name, classBound, interfaceBounds⟩ (name.toList ++ ':' :: cs ++ ds)

/-- The result of a method, or that it has none. -/
inductive ResultWriting : Option TypeSignature → List Char → Prop
  | absent : ResultWriting none ['V']
  | present {t : TypeSignature} {cs : List Char} (type : TypeWriting R t cs) :
    ResultWriting (some t) cs

end Nesting

/-- The parameter has a bound of either sort. -/
def TypeParameter.HasBound (p : TypeParameter) : Prop :=
  p.classBound ≠ none ∨ p.interfaceBounds ≠ []

/-- Type parameters as a list. One without a bound can be the last one only: whatever follows would
be taken for its bound. -/
structure ParametersWriting (R : TypeSignature → List Char → Prop) (ps : List TypeParameter)
    (cs : List Char) : Prop where
  list : Bracketed (ParameterWriting R) ps cs
  bounded : ∀ p ∈ ps.dropLast, p.HasBound

inductive ClassSignatureWriting (R : TypeSignature → List Char → Prop) :
    ClassSignature → List Char → Prop
  | mk {ps : List TypeParameter} {c : ClassTypeSignature} {is : List ClassTypeSignature}
    {cs ds es : List Char} (typeParameters : ParametersWriting R ps cs)
    (superClass : ClassWriting R c ds) (interfaces : Each (ClassWriting R) is es) :
    ClassSignatureWriting R ⟨ps, c, is⟩ (cs ++ ds ++ es)

inductive MethodSignatureWriting (R : TypeSignature → List Char → Prop) :
    MethodSignature → List Char → Prop
  | mk {ps : List TypeParameter} {ts : List TypeSignature} {r : Option TypeSignature}
    {es : List TypeSignature} {cs ds rs fs : List Char}
    (typeParameters : ParametersWriting R ps cs) (parameters : Each (TypeWriting R) ts ds)
    (result : ResultWriting R r rs) (throws : Each (Led '^' R) es fs) :
    MethodSignatureWriting R ⟨ps, ts, r, es⟩ (cs ++ '(' :: ds ++ ')' :: rs ++ fs)

/-- A type that is not primitive, nested at most `depth` deep. -/
def Nested : Nat → TypeSignature → List Char → Prop
  | 0 => fun _ _ => False
  | depth + 1 => ReferenceWriting (Nested depth)

/-- A type that is not primitive. -/
def Written (t : TypeSignature) (cs : List Char) : Prop := Nested cs.length t cs

/-! ## The depth -/

section Depth

variable {α : Type} {W W' : α → List Char → Prop} {R R' : TypeSignature → List Char → Prop}
  {cs : List Char}

theorem Each.imp {as : List α} (h : Each W as cs)
    (hW : ∀ a ds, ds.length ≤ cs.length → W a ds → W' a ds) : Each W' as cs := by
  induction h with
  | nil => exact .nil
  | @cons a as cs ds first others ih =>
    rw [List.length_append] at hW
    exact .cons (hW a cs (by omega) first) (ih fun a es hes => hW a es (by omega))

theorem Bracketed.imp {as : List α} (h : Bracketed W as cs)
    (hW : ∀ a ds, ds.length ≤ cs.length → W a ds → W' a ds) : Bracketed W' as cs := by
  cases h with
  | absent => exact .absent
  | @present _ cs items =>
    refine .present (items.imp fun a ds hds => hW a ds ?_)
    simp only [List.length_append, List.length_cons]
    omega

theorem Led.imp {lead : Char} {a : α} (h : Led lead W a cs)
    (hW : ∀ ds, ds.length ≤ cs.length → W a ds → W' a ds) : Led lead W' a cs := by
  cases h with
  | mk item => exact .mk (hW _ (Nat.le_succ _) item)

theorem ArgumentWriting.imp {a : TypeArgument} (h : ArgumentWriting R a cs)
    (hR : ∀ t ds, ds.length ≤ cs.length → R t ds → R' t ds) : ArgumentWriting R' a cs := by
  cases h with
  | any => exact .any
  | exact type => exact .exact (hR _ _ (Nat.le_refl _) type)
  | upTo type => exact .upTo (hR _ _ (Nat.le_succ _) type)
  | downTo type => exact .downTo (hR _ _ (Nat.le_succ _) type)

theorem SegmentWriting.imp {s : ClassSegment} (h : SegmentWriting R s cs)
    (hR : ∀ t ds, ds.length ≤ cs.length → R t ds → R' t ds) : SegmentWriting R' s cs := by
  cases h with
  | @mk name arguments cs isName list =>
    rw [List.length_append] at hR
    exact .mk isName (list.imp fun a ds hds h => h.imp fun t es hes => hR t es (by omega))

theorem ClassWriting.imp {c : ClassTypeSignature} (h : ClassWriting R c cs)
    (hR : ∀ t ds, ds.length < cs.length → R t ds → R' t ds) : ClassWriting R' c cs := by
  cases h with
  | @mk package name arguments inner cs ds isName noSlash list segments =>
    simp only [List.length_append, List.length_cons] at hR
    refine .mk isName noSlash (list.imp fun a es hes h => h.imp fun t fs hfs => hR t fs (by omega))
      (segments.imp fun s es hes h => h.imp fun gs hgs h => h.imp fun t fs hfs => hR t fs ?_)
    omega

theorem TypeWriting.imp {t : TypeSignature} (h : TypeWriting R t cs)
    (hR : ∀ t ds, ds.length ≤ cs.length → R t ds → R' t ds) : TypeWriting R' t cs := by
  cases h with
  | base p => exact .base p
  | reference type => exact .reference (hR _ _ (Nat.le_refl _) type)

theorem ReferenceWriting.imp {t : TypeSignature} (h : ReferenceWriting R t cs)
    (hR : ∀ t ds, ds.length < cs.length → R t ds → R' t ds) : ReferenceWriting R' t cs := by
  cases h with
  | classType type => exact .classType (type.imp hR)
  | typeVar isName => exact .typeVar isName
  | array element =>
    refine .array (element.imp fun t ds hds => hR t ds ?_)
    rw [List.length_cons]
    omega

theorem BoundWriting.imp {b : Option TypeSignature} (h : BoundWriting R b cs)
    (hR : ∀ t ds, ds.length ≤ cs.length → R t ds → R' t ds) : BoundWriting R' b cs := by
  cases h with
  | absent => exact .absent
  | present type => exact .present (hR _ _ (Nat.le_refl _) type)

theorem ParameterWriting.imp {p : TypeParameter} (h : ParameterWriting R p cs)
    (hR : ∀ t ds, ds.length ≤ cs.length → R t ds → R' t ds) : ParameterWriting R' p cs := by
  cases h with
  | @mk name classBound interfaceBounds cs ds isName first others =>
    simp only [List.length_append, List.length_cons] at hR
    exact .mk isName (first.imp fun t es hes => hR t es (by omega))
      (others.imp fun t es hes h => h.imp fun fs hfs => hR t fs (by omega))

theorem ParametersWriting.imp {ps : List TypeParameter} (h : ParametersWriting R ps cs)
    (hR : ∀ t ds, ds.length ≤ cs.length → R t ds → R' t ds) : ParametersWriting R' ps cs :=
  ⟨h.list.imp fun _ _ hds h => h.imp fun t es hes => hR t es (Nat.le_trans hes hds), h.bounded⟩

theorem ClassSignatureWriting.imp {s : ClassSignature} (h : ClassSignatureWriting R s cs)
    (hR : ∀ t ds, ds.length ≤ cs.length → R t ds → R' t ds) : ClassSignatureWriting R' s cs := by
  cases h with
  | mk typeParameters superClass interfaces =>
    simp only [List.length_append] at hR
    exact .mk (typeParameters.imp fun t es hes => hR t es (by omega))
      (superClass.imp fun t es hes => hR t es (by omega))
      (interfaces.imp fun c es hes h => h.imp fun t fs hfs => hR t fs (by omega))

theorem MethodSignatureWriting.imp {s : MethodSignature} (h : MethodSignatureWriting R s cs)
    (hR : ∀ t ds, ds.length ≤ cs.length → R t ds → R' t ds) : MethodSignatureWriting R' s cs := by
  cases h with
  | mk typeParameters parameters result throws =>
    simp only [List.length_append, List.length_cons] at hR
    refine .mk (typeParameters.imp fun t es hes => hR t es (by omega))
      (parameters.imp fun a es hes h => h.imp fun t fs hfs => hR t fs (by omega)) ?_
      (throws.imp fun t es hes h => h.imp fun fs hfs => hR t fs (by omega))
    cases result with
    | absent => exact .absent
    | present type => exact .present (type.imp fun t es hes => hR t es (by omega))

/-- A type nests less deep than it is long. -/
theorem Nested.of_length_le {n m : Nat} {t : TypeSignature} (h : Nested n t cs)
    (hm : cs.length ≤ m) : Nested m t cs := by
  induction n generalizing m t cs with
  | zero => exact h.elim
  | succ n ih =>
    cases m with
    | zero =>
      have hnil : cs = [] := List.length_eq_zero_iff.mp (Nat.le_zero.mp hm)
      subst hnil
      generalize hcs : ([] : List Char) = cs at h
      cases h with
      | classType type =>
        cases type
        simp at hcs
      | typeVar isName => simp at hcs
      | array element => cases hcs
    | succ m => exact ReferenceWriting.imp h fun t ds hds h => ih h (by omega)

theorem written_of_nested {n : Nat} {t : TypeSignature} (h : Nested n t cs) : Written t cs :=
  h.of_length_le (Nat.le_refl _)

/-- A written type consists of written types. -/
theorem written_iff {t : TypeSignature} : Written t cs ↔ ReferenceWriting Written t cs := by
  constructor
  · intro h
    cases hn : cs.length with
    | zero =>
      rw [Written, hn] at h
      exact h.elim
    | succ n =>
      rw [Written, hn] at h
      exact ReferenceWriting.imp h fun _ _ _ h => written_of_nested h
  · intro h
    have hnested : Nested (cs.length + 1) t cs := ReferenceWriting.imp h fun t ds hds h =>
      Nested.of_length_le h (by omega)
    exact written_of_nested hnested

end Depth

end Conformance.ClassFile
