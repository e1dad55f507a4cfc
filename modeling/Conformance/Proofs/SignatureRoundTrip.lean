import Conformance.Proofs.SignatureReading

/-!
# Printing and reading signatures

What the printer gives for a signature is one of the texts that spell it, so it is read back as the
signature (`signature_roundTrip`), provided that its names are names and that types stand only where
the notation has a place for them. In the other direction a text that is read may differ from what
is printed by the brackets of empty lists and by nothing else. Such brackets can be left out, and a
text in which none can is the printed one: of all texts that spell a signature that is the shortest.
-/

namespace Conformance.ClassFile

/-! ## Brackets that can be left out -/

/-- The text holds an empty list, without which it is still one of a kind. -/
def Loose (P : List Char → Prop) (cs : List Char) : Prop :=
  ∃ front back, cs = front ++ '<' :: '>' :: back ∧ P (front ++ back)

theorem Loose.frame {P Q : List Char → Prop} {cs es : List Char} (h : Loose P cs)
    (before after : List Char) (hes : es = before ++ cs ++ after)
    (hPQ : ∀ ds, P ds → Q (before ++ ds ++ after)) : Loose Q es := by
  obtain ⟨front, back, rfl, hP⟩ := h
  exact ⟨before ++ front, back ++ after, by simp [hes], by simpa using hPQ _ hP⟩

theorem Loose.imp {P Q : List Char → Prop} {cs : List Char} (h : Loose P cs)
    (hPQ : ∀ ds, P ds → Q ds) : Loose Q cs := by
  obtain ⟨front, back, hcs, hP⟩ := h
  exact ⟨front, back, hcs, hPQ _ hP⟩

section Tight

variable {α : Type}

/-- Each text of something is the printed one, or it holds brackets that can be left out. -/
def Tight (W : α → List Char → Prop) (render : α → List Char) : Prop :=
  ∀ a cs, W a cs → cs = render a ∨ Loose (W a) cs

variable {W : α → List Char → Prop} {render : α → List Char}

/-- The printed text is the shortest. -/
theorem Tight.length_le (h : Tight W render) {a : α} {cs : List Char} (ha : W a cs) :
    (render a).length ≤ cs.length := by
  induction hn : cs.length using Nat.strongRecOn generalizing cs with
  | ind n ih =>
    rcases h a cs ha with rfl | ⟨front, back, rfl, hless⟩
    · exact Nat.le_of_eq hn
    · -- without the brackets the text is shorter by two, and still no shorter than the printed one
      simp only [List.length_append, List.length_cons] at hn
      have hshorter : (front ++ back).length < n := by
        rw [List.length_append]
        omega
      exact Nat.le_of_lt (Nat.lt_of_le_of_lt (ih _ hshorter hless rfl) hshorter)

theorem Tight.each (h : Tight W render) : Tight (Each W) (List.flatMap render) := by
  intro as cs has
  induction has with
  | nil => exact .inl rfl
  | @cons a as cs ds first others ih =>
    rcases h a cs first with rfl | hfirst
    · rcases ih with rfl | hothers
      · exact .inl rfl
      · exact .inr (hothers.frame (render a) [] (by simp) fun es hes => by simpa using .cons first hes)
    · exact .inr (hfirst.frame [] ds rfl fun es hes => .cons hes others)

theorem Tight.led (h : Tight W render) (lead : Char) :
    Tight (Led lead W) fun a => lead :: render a := by
  intro a cs ha
  cases ha with
  | @mk cs item =>
    rcases h a cs item with rfl | hitem
    · exact .inl rfl
    · exact .inr (hitem.frame [lead] [] (by simp) fun es hes => by simpa using .mk hes)

/-- A list as it is printed. -/
def renderList (render : α → List Char) : List α → List Char
  | [] => []
  | first :: others => '<' :: (first :: others).flatMap render ++ ['>']

theorem Tight.bracketed (h : Tight W render) : Tight (Bracketed W) (renderList render) := by
  intro as cs has
  cases has with
  | absent => exact .inl rfl
  | @present _ cs items =>
    cases as with
    | nil =>
      -- the only brackets that can be left out are these
      cases items
      exact .inr ⟨[], [], rfl, .absent⟩
    | cons a as =>
      rcases h.each _ cs items with rfl | hitems
      · exact .inl rfl
      · exact .inr (hitems.frame ['<'] ['>'] rfl fun es hes => .present hes)

theorem each_render {as : List α} (h : ∀ a ∈ as, W a (render a)) : Each W as (as.flatMap render) := by
  induction as with
  | nil => exact .nil
  | cons a as ih =>
    rw [List.forall_mem_cons] at h
    exact .cons h.1 (ih h.2)

theorem bracketed_render {as : List α} (h : ∀ a ∈ as, W a (render a)) :
    Bracketed W as (renderList render as) := by
  cases as with
  | nil => exact .absent
  | cons a as => exact .present (each_render h)

end Tight

/-! ## Lists as they are printed -/

def ClassSegment.render : ClassSegment → List Char
  | .mk name arguments => name.toList ++ renderArguments arguments

theorem renderEach_eq (as : List TypeArgument) : renderEach as = as.flatMap TypeArgument.render := by
  induction as with
  | nil => rfl
  | cons a as ih => rw [renderEach, ih, List.flatMap_cons]

theorem renderArguments_eq (as : List TypeArgument) :
    renderArguments as = renderList TypeArgument.render as := by
  cases as with
  | nil => rfl
  | cons a as => rw [renderArguments, renderEach_eq, renderList, List.flatMap_cons, List.cons_append]

theorem renderSegments_eq (ss : List ClassSegment) :
    renderSegments ss = ss.flatMap fun s => '.' :: s.render := by
  induction ss with
  | nil => rfl
  | cons s ss ih =>
    cases s
    rw [renderSegments, ih, List.flatMap_cons, ClassSegment.render]
    simp

theorem renderTypeParameters_eq (ps : List TypeParameter) :
    renderTypeParameters ps = renderList TypeParameter.render ps := by
  cases ps <;> rfl

/-! ## Texts that are read -/

section Texts

variable {R : TypeSignature → List Char → Prop} (hR : Tight R TypeSignature.render)
include hR

theorem tight_argument : Tight (ArgumentWriting R) TypeArgument.render := by
  intro a cs ha
  cases ha with
  | any => exact .inl rfl
  | exact type =>
    rcases hR _ _ type with rfl | htype
    · exact .inl rfl
    · exact .inr (htype.imp fun es hes => .exact hes)
  | upTo type =>
    rcases hR _ _ type with rfl | htype
    · exact .inl rfl
    · exact .inr (htype.frame ['+'] [] (by simp) fun es hes => by simpa using .upTo hes)
  | downTo type =>
    rcases hR _ _ type with rfl | htype
    · exact .inl rfl
    · exact .inr (htype.frame ['-'] [] (by simp) fun es hes => by simpa using .downTo hes)

theorem tight_segment : Tight (SegmentWriting R) ClassSegment.render := by
  intro s cs hs
  cases hs with
  | @mk name arguments cs isName list =>
    rcases (tight_argument hR).bracketed _ _ list with rfl | hlist
    · exact .inl (by rw [ClassSegment.render, renderArguments_eq])
    · exact .inr (hlist.frame name.toList [] (by simp) fun es hes => by simpa using .mk isName hes)

theorem tight_class : Tight (ClassWriting R) ClassTypeSignature.render := by
  intro c cs hc
  cases hc with
  | @mk package name arguments inner cs ds isName noSlash list segments =>
    rcases (tight_argument hR).bracketed _ _ list with rfl | hlist
    · rcases ((tight_segment hR).led '.').each _ _ segments with rfl | hsegments
      · refine .inl ?_
        rw [ClassTypeSignature.render, renderArguments_eq, renderSegments_eq]
      · exact .inr (hsegments.frame _ [';'] rfl fun es hes => .mk isName noSlash list hes)
    · refine .inr (hlist.frame ('L' :: qualifiedName package name) (ds ++ [';']) (by simp)
        fun es hes => ?_)
      simpa using ClassWriting.mk isName noSlash hes segments

theorem tight_type : Tight (TypeWriting R) TypeSignature.render := by
  intro t cs ht
  cases ht with
  | base p => exact .inl (by rw [TypeSignature.render])
  | reference type =>
    rcases hR _ _ type with rfl | htype
    · exact .inl rfl
    · exact .inr (htype.imp fun es hes => .reference hes)

theorem tight_reference : Tight (ReferenceWriting R) TypeSignature.render := by
  intro t cs ht
  cases ht with
  | classType type =>
    rcases tight_class hR _ _ type with rfl | htype
    · exact .inl (by rw [TypeSignature.render])
    · exact .inr (htype.imp fun es hes => .classType hes)
  | typeVar isName => exact .inl (by rw [TypeSignature.render])
  | array element =>
    rcases tight_type hR _ _ element with rfl | helement
    · exact .inl (by rw [TypeSignature.render])
    · exact .inr (helement.frame ['['] [] (by simp) fun es hes => by simpa using .array hes)

end Texts

theorem tight_nested (depth : Nat) : Tight (Nested depth) TypeSignature.render := by
  induction depth with
  | zero => nofun
  | succ depth ih => exact tight_reference ih

theorem tight_written : Tight Written TypeSignature.render := fun t cs ht =>
  (tight_nested cs.length t cs ht).imp_right fun h => h.imp fun _ => written_of_nested

theorem tight_parameter : Tight (ParameterWriting Written) TypeParameter.render := by
  intro p cs hp
  cases hp with
  | @mk name classBound interfaceBounds cs ds isName first others =>
    have hfirst : cs = classBound.elim [] TypeSignature.render
        ∨ Loose (BoundWriting Written classBound) cs := by
      cases first with
      | absent => exact .inl rfl
      | present type =>
        rcases tight_written _ _ type with rfl | htype
        · exact .inl rfl
        · exact .inr (htype.imp fun es hes => .present hes)
    rcases hfirst with rfl | hfirst
    · rcases (tight_written.led ':').each _ _ others with rfl | hothers
      · exact .inl (by simp [TypeParameter.render])
      · refine .inr (hothers.frame _ [] (List.append_nil _).symm fun es hes => ?_)
        simpa using ParameterWriting.mk isName first hes
    · refine .inr (hfirst.frame (name.toList ++ [':']) ds (by simp) fun es hes => ?_)
      simpa using ParameterWriting.mk isName hes others

theorem tight_parameters : Tight (ParametersWriting Written) renderTypeParameters := by
  intro ps cs hps
  rw [renderTypeParameters_eq]
  exact (tight_parameter.bracketed ps cs hps.list).imp_right fun h =>
    h.imp fun es hes => ⟨hes, hps.bounded⟩

theorem tight_classSignature : Tight (ClassSignatureWriting Written) ClassSignature.render := by
  intro s cs hs
  cases hs with
  | @mk ps c is cs ds es typeParameters superClass interfaces =>
    rcases tight_parameters _ _ typeParameters with rfl | hps
    · rcases tight_class tight_written _ _ superClass with rfl | hc
      · rcases (tight_class tight_written).each _ _ interfaces with rfl | his
        · exact .inl rfl
        · refine .inr (his.frame _ [] (List.append_nil _).symm fun fs hfs => ?_)
          simpa using ClassSignatureWriting.mk typeParameters superClass hfs
      · exact .inr (hc.frame (renderTypeParameters ps) es rfl fun fs hfs =>
          .mk typeParameters hfs interfaces)
    · refine .inr (hps.frame [] (ds ++ es) (by simp) fun fs hfs => ?_)
      simpa using ClassSignatureWriting.mk hfs superClass interfaces

theorem tight_methodSignature : Tight (MethodSignatureWriting Written) MethodSignature.render := by
  intro s cs hs
  cases hs with
  | @mk ps ts r es cs ds rs fs typeParameters parameters result throws =>
    have hresult : rs = r.elim ['V'] TypeSignature.render ∨ Loose (ResultWriting Written r) rs := by
      cases result with
      | absent => exact .inl rfl
      | present type =>
        rcases tight_type tight_written _ _ type with rfl | htype
        · exact .inl rfl
        · exact .inr (htype.imp fun es hes => .present hes)
    rcases tight_parameters _ _ typeParameters with rfl | hps
    · rcases (tight_type tight_written).each _ _ parameters with rfl | hts
      · rcases hresult with rfl | hr
        · rcases (tight_written.led '^').each _ _ throws with rfl | hes
          · exact .inl rfl
          · refine .inr (hes.frame _ [] (List.append_nil _).symm fun gs hgs => ?_)
            simpa using MethodSignatureWriting.mk typeParameters parameters result hgs
        · refine .inr (hr.frame (renderTypeParameters ps
            ++ '(' :: ts.flatMap TypeSignature.render ++ [')']) fs (by simp) fun gs hgs => ?_)
          simpa using MethodSignatureWriting.mk typeParameters parameters hgs throws
      · refine .inr (hts.frame (renderTypeParameters ps ++ ['(']) (')' :: rs ++ fs) (by simp)
          fun gs hgs => ?_)
        simpa using MethodSignatureWriting.mk typeParameters hgs result throws
    · refine .inr (hps.frame [] ('(' :: ds ++ ')' :: rs ++ fs) (by simp) fun gs hgs => ?_)
      simpa using MethodSignatureWriting.mk hgs parameters result throws

/-! ## Signatures that can be written -/

/-- The characters that no name can hold. -/
def notationMarks : List Char := ['.', ';', '[', '/', '<', '>', ':']

structure IsIdentifier (name : String) : Prop where
  nonempty : name ≠ ""
  unbroken : ∀ c ∈ name.toList, c ∉ notationMarks

theorem isIdentifier_iff {name : String} : IsIdentifier name
    ↔ name ≠ "" ∧ name.toList.all (fun c => !notationMarks.contains c) = true := by
  have hunbroken : name.toList.all (fun c => !notationMarks.contains c) = true
      ↔ ∀ c ∈ name.toList, c ∉ notationMarks := by simp
  rw [hunbroken]
  exact ⟨fun h => ⟨h.nonempty, h.unbroken⟩, fun h => ⟨h.1, h.2⟩⟩

instance : DecidablePred IsIdentifier := fun _ => decidable_of_iff' _ isIdentifier_iff

/-- The type is not primitive. -/
def TypeSignature.IsReference (t : TypeSignature) : Prop := ∀ p, t ≠ .base p

/-- The type in a type argument. -/
def TypeArgument.type? : TypeArgument → Option TypeSignature
  | .any => none
  | .exact t | .upTo t | .downTo t => some t

/-- All names are identifiers, and all type arguments are reference types. All class types in the
type are of a kind. -/
inductive TypeSignature.WellFormed (Q : ClassTypeSignature → Prop) : TypeSignature → Prop
  | base (p : Primitive) : WellFormed Q (.base p)
  | typeVar {name : String} (isName : IsIdentifier name) : WellFormed Q (.typeVar name)
  | array {t : TypeSignature} (element : WellFormed Q t) : WellFormed Q (.array t)
  | classType {c : ClassTypeSignature} (kind : Q c) (package : ∀ part ∈ c.package, IsIdentifier part)
    (names : ∀ s ∈ c.segments, IsIdentifier s.name)
    (references : ∀ s ∈ c.segments, ∀ a ∈ s.arguments, ∀ t, a.type? = some t → t.IsReference)
    (arguments : ∀ s ∈ c.segments, ∀ a ∈ s.arguments, ∀ t, a.type? = some t → WellFormed Q t) :
    WellFormed Q (.classType c)

/-- The type parameter has a name and at least one bound, and its bounds are reference types. -/
structure TypeParameter.WellFormed (Q : ClassTypeSignature → Prop) (p : TypeParameter) : Prop where
  isName : IsIdentifier p.name
  bounded : p.HasBound
  references : ∀ t ∈ p.classBound.toList ++ p.interfaceBounds, t.IsReference
  bounds : ∀ t ∈ p.classBound.toList ++ p.interfaceBounds, t.WellFormed Q

structure ClassSignature.WellFormed (Q : ClassTypeSignature → Prop) (s : ClassSignature) : Prop where
  typeParameters : ∀ p ∈ s.typeParameters, p.WellFormed Q
  superClass : (TypeSignature.classType s.superClass).WellFormed Q
  interfaces : ∀ c ∈ s.interfaces, (TypeSignature.classType c).WellFormed Q

structure MethodSignature.WellFormed (Q : ClassTypeSignature → Prop) (s : MethodSignature) :
    Prop where
  typeParameters : ∀ p ∈ s.typeParameters, p.WellFormed Q
  parameters : ∀ t ∈ s.parameters, t.WellFormed Q
  result : ∀ t ∈ s.result, t.WellFormed Q
  references : ∀ t ∈ s.throws, t.IsReference
  throws : ∀ t ∈ s.throws, t.WellFormed Q

theorem IsIdentifier.isName {name : String} (h : IsIdentifier name) {stops : List Char}
    (hstops : stops ⊆ notationMarks) : IsName stops name.toList where
  nonempty hnil := h.nonempty (String.toList_eq_nil_iff.mp hnil)
  unbroken c hc hstop := h.unbroken c hc (hstops hstop)

theorem classNameEnd_subset : classNameEnd ⊆ notationMarks := by
  simp [classNameEnd, notationMarks]

theorem isName_qualifiedName {package : List String} {name : String}
    (hpackage : ∀ part ∈ package, IsIdentifier part) (hname : IsIdentifier name) :
    IsName classNameEnd (qualifiedName package name) where
  nonempty hnil := by
    rw [qualifiedName, List.append_eq_nil_iff] at hnil
    exact hname.nonempty (String.toList_eq_nil_iff.mp hnil.2)
  unbroken c hc hend := by
    rcases List.mem_append.mp hc with hc | hc
    · obtain ⟨part, hpart, hc⟩ := List.mem_flatMap.mp hc
      rcases List.mem_append.mp hc with hc | hc
      · exact (hpackage part hpart).unbroken c hc (classNameEnd_subset hend)
      · obtain rfl := List.mem_singleton.mp hc
        revert hend
        decide
    · exact hname.unbroken c hc (classNameEnd_subset hend)

theorem written_render {t : TypeSignature} (h : t.WellFormed (·.segments ≠ []))
    (hreference : t.IsReference) : Written t t.render := by
  induction h with
  | base p => exact absurd rfl (hreference p)
  | @typeVar name isName =>
    rw [TypeSignature.render]
    exact written_iff.mpr (.typeVar (isName.isName (by simp [notationMarks])))
  | @array t element ih =>
    rw [TypeSignature.render]
    refine written_iff.mpr (.array ?_)
    by_cases hbase : ∃ p, t = .base p
    · obtain ⟨p, rfl⟩ := hbase
      rw [TypeSignature.render]
      exact .base p
    · exact .reference (ih fun p hp => hbase ⟨p, hp⟩)
  | @classType c kind package names references arguments ih =>
    obtain ⟨package', segments⟩ := c
    have hargument : ∀ s ∈ segments, ∀ a ∈ s.arguments, ArgumentWriting Written a a.render := by
      intro s hs a ha
      have hwritten := fun t ht => ih s hs a ha t ht (references s hs a ha t ht)
      cases a with
      | any => exact .any
      | exact t => exact .exact (hwritten t rfl)
      | upTo t => exact .upTo (hwritten t rfl)
      | downTo t => exact .downTo (hwritten t rfl)
    have hlist : ∀ s ∈ segments, Bracketed (ArgumentWriting Written) s.arguments
        (renderArguments s.arguments) := by
      intro s hs
      rw [renderArguments_eq]
      exact bracketed_render (hargument s hs)
    cases segments with
    | nil => exact absurd rfl kind
    | cons first inner =>
      obtain ⟨name, as⟩ := first
      have hinner : Each (Led '.' (SegmentWriting Written)) inner (renderSegments inner) := by
        rw [renderSegments_eq]
        refine each_render fun s hs => .mk ?_
        have hmem := List.mem_cons_of_mem (ClassSegment.mk name as) hs
        obtain ⟨inside, bs⟩ := s
        exact .mk ((names _ hmem).isName classNameEnd_subset) (hlist _ hmem)
      have hname : IsIdentifier name := names (.mk name as) (List.mem_cons_self ..)
      have hnoSlash : ∀ part ∈ name :: package', '/' ∉ part.toList := by
        intro part hpart hslash
        have hidentifier : IsIdentifier part := by
          rcases List.mem_cons.mp hpart with rfl | hpart
          · exact hname
          · exact package part hpart
        exact hidentifier.unbroken '/' hslash (by simp [notationMarks])
      rw [TypeSignature.render, ClassTypeSignature.render]
      exact written_iff.mpr (.classType (.mk (isName_qualifiedName package hname) hnoSlash
        (hlist _ (List.mem_cons_self ..)) hinner))

theorem typeWriting_render {t : TypeSignature} (h : t.WellFormed (·.segments ≠ [])) :
    TypeWriting Written t t.render := by
  by_cases hbase : ∃ p, t = .base p
  · obtain ⟨p, rfl⟩ := hbase
    rw [TypeSignature.render]
    exact .base p
  · exact .reference (written_render h fun p hp => hbase ⟨p, hp⟩)

theorem classWriting_render {c : ClassTypeSignature}
    (h : (TypeSignature.classType c).WellFormed (·.segments ≠ [])) :
    ClassWriting Written c c.render := by
  have hwritten := written_iff.mp (written_render h nofun)
  rw [TypeSignature.render] at hwritten
  cases hwritten with
  | classType type => exact type

theorem parameterWriting_render {p : TypeParameter} (h : p.WellFormed (·.segments ≠ [])) :
    ParameterWriting Written p p.render := by
  have hbound : ∀ t ∈ p.classBound.toList ++ p.interfaceBounds, Written t t.render := fun t ht =>
    written_render (h.bounds t ht) (h.references t ht)
  obtain ⟨name, classBound, interfaceBounds⟩ := p
  have hfirst : BoundWriting Written classBound (classBound.elim [] TypeSignature.render) := by
    cases classBound with
    | none => exact .absent
    | some t => exact .present (hbound t (by simp))
  have hothers : Each (Led ':' Written) interfaceBounds
      (interfaceBounds.flatMap fun bound => ':' :: bound.render) :=
    each_render fun t ht => .mk (hbound t (List.mem_append_right _ ht))
  exact .mk (h.isName.isName (by simp [notationMarks])) hfirst hothers

theorem parametersWriting_render {ps : List TypeParameter}
    (h : ∀ p ∈ ps, p.WellFormed (·.segments ≠ [])) :
    ParametersWriting Written ps (renderTypeParameters ps) := by
  rw [renderTypeParameters_eq]
  exact ⟨bracketed_render fun p hp => parameterWriting_render (h p hp),
    fun p hp => (h p ((List.dropLast_sublist ps).subset hp)).bounded⟩

theorem classSignatureWriting_render {s : ClassSignature} (h : s.WellFormed (·.segments ≠ [])) :
    ClassSignatureWriting Written s s.render :=
  .mk (parametersWriting_render h.typeParameters) (classWriting_render h.superClass)
    (each_render fun c hc => classWriting_render (h.interfaces c hc))

theorem methodSignatureWriting_render {s : MethodSignature} (h : s.WellFormed (·.segments ≠ [])) :
    MethodSignatureWriting Written s s.render := by
  have hresult : ResultWriting Written s.result (s.result.elim ['V'] TypeSignature.render) := by
    have hwellFormed := h.result
    cases hr : s.result with
    | none => exact .absent
    | some t => exact .present (typeWriting_render (hwellFormed t hr))
  exact .mk (parametersWriting_render h.typeParameters)
    (each_render fun t ht => typeWriting_render (h.parameters t ht)) hresult
    (each_render fun t ht => .mk (written_render (h.throws t ht) (h.references t ht)))

/-! ## There and back -/

theorem ClassSignature.parse_eq_ok {text : String} {s : ClassSignature} :
    parse text = .ok s ↔ ClassSignatureWriting Written s text.toList := by
  rw [← ofChars?_eq_some, parse]
  cases ofChars? text.toList <;> simp

theorem MethodSignature.parse_eq_ok {text : String} {s : MethodSignature} :
    parse text = .ok s ↔ MethodSignatureWriting Written s text.toList := by
  rw [← ofChars?_eq_some, parse]
  cases ofChars? text.toList <;> simp

/-- A text that spells something is the printed one exactly if no brackets in it can be left out. -/
theorem Tight.eq_render_iff {α : Type} {W : α → List Char → Prop} {render : α → List Char}
    (h : Tight W render) {a : α} {text : String} (ha : W a text.toList) :
    String.ofList (render a) = text
      ↔ ∀ front back, text = front ++ "<>" ++ back → ¬ W a (front ++ back).toList := by
  constructor
  · -- leaving brackets out would make a text that is shorter than the printed one
    rintro rfl front back htext hless
    have hlength := h.length_le hless
    have hchars := congrArg (fun text : String => text.toList.length) htext
    simp [String.toList_append] at hchars hlength
    omega
  · intro hnone
    rcases h a _ ha with heq | ⟨front, back, htext, hless⟩
    · rw [← heq, String.ofList_toList]
    · refine absurd ?_ (hnone (String.ofList front) (String.ofList back) ?_)
      · rwa [String.toList_append, String.toList_ofList, String.toList_ofList]
      · refine String.toList_injective ?_
        simp [htext, String.toList_append]

/-- **Printing and reading are inverse to each other.** A signature whose names are names, whose
type parameters have bounds and whose class types have names at all is read back from what is
printed for it. What is printed for a signature that was read is the text exactly if the text
has no empty list in brackets, which could be left out. -/
theorem signature_roundTrip :
    (∀ s : ClassSignature, s.WellFormed (·.segments ≠ []) →
      ClassSignature.parse (String.ofList s.render) = .ok s)
    ∧ (∀ s : MethodSignature, s.WellFormed (·.segments ≠ []) →
      MethodSignature.parse (String.ofList s.render) = .ok s)
    ∧ (∀ text s, ClassSignature.parse text = .ok s → (String.ofList s.render = text
      ↔ ∀ front back, text = front ++ "<>" ++ back → ClassSignature.parse (front ++ back) ≠ .ok s))
    ∧ (∀ text s, MethodSignature.parse text = .ok s → (String.ofList s.render = text
      ↔ ∀ front back, text = front ++ "<>" ++ back →
        MethodSignature.parse (front ++ back) ≠ .ok s)) := by
  refine ⟨fun s h => ?_, fun s h => ?_, fun text s h => ?_, fun text s h => ?_⟩
  · rw [ClassSignature.parse_eq_ok, String.toList_ofList]
    exact classSignatureWriting_render h
  · rw [MethodSignature.parse_eq_ok, String.toList_ofList]
    exact methodSignatureWriting_render h
  · simp only [ne_eq, ClassSignature.parse_eq_ok] at h ⊢
    exact tight_classSignature.eq_render_iff h
  · simp only [ne_eq, MethodSignature.parse_eq_ok] at h ⊢
    exact tight_methodSignature.eq_render_iff h

/-- A class with type arguments, which is not nested in another one. -/
def plainClass (package : List String) (name : String) (arguments : List TypeArgument) :
    ClassTypeSignature := .mk package [.mk name arguments]

theorem wellFormed_plainClass {package : List String} {name : String}
    {arguments : List TypeArgument} (hpackage : ∀ part ∈ name :: package, IsIdentifier part)
    (harguments : ∀ a ∈ arguments, ∀ t, a.type? = some t →
      t.IsReference ∧ t.WellFormed (·.segments ≠ [])) :
    (TypeSignature.classType (plainClass package name arguments)).WellFormed (·.segments ≠ []) := by
  rw [List.forall_mem_cons] at hpackage
  refine .classType (by simp [plainClass, ClassTypeSignature.segments]) hpackage.2
    (List.forall_mem_singleton.mpr hpackage.1) ?_ ?_
  · exact List.forall_mem_singleton.mpr fun a ha t ht => (harguments a ha t ht).1
  · exact List.forall_mem_singleton.mpr fun a ha t ht => (harguments a ha t ht).2

/-- A class with a type parameter `T` that a bound compares with itself. -/
def supplierSignature : ClassSignature where
  typeParameters := [{
    name := "T", classBound := none
    interfaceBounds := [.classType (plainClass ["java", "lang"] "Comparable" [.exact (.typeVar "T")])] }]
  superClass := plainClass ["java", "lang"] "Object" []
  interfaces := [plainClass ["java", "util", "function"] "Supplier" [.exact (.typeVar "T")]]

/-- A method with a parameter that is an array, and one with a wildcard. -/
def mapSignature : MethodSignature where
  typeParameters := [{
    name := "R", classBound := some (.classType (plainClass ["java", "lang"] "Object" []))
    interfaceBounds := [] }]
  parameters := [.classType (plainClass ["java", "util"] "List" [.upTo (.typeVar "R")]),
    .array (.base .int)]
  result := some (.classType (plainClass ["java", "util"] "Map" [.any, .downTo (.typeVar "R")]))
  throws := [.classType (plainClass ["java", "io"] "IOException" [])]

theorem wellFormed_supplierSignature : supplierSignature.WellFormed (·.segments ≠ []) := by
  have hvariable : (TypeSignature.typeVar "T").WellFormed (·.segments ≠ []) :=
    .typeVar (by decide)
  have hown : ∀ a ∈ [TypeArgument.exact (.typeVar "T")], ∀ t, a.type? = some t →
      t.IsReference ∧ t.WellFormed (·.segments ≠ []) := by
    simp [TypeArgument.type?, hvariable, TypeSignature.IsReference]
  refine ⟨?_, wellFormed_plainClass ?_ nofun, List.forall_mem_singleton.mpr
    (wellFormed_plainClass ?_ hown)⟩
  · refine List.forall_mem_singleton.mpr ⟨by decide, .inr nofun,
      List.forall_mem_singleton.mpr nofun, List.forall_mem_singleton.mpr
        (wellFormed_plainClass ?_ hown)⟩
    decide
  · decide
  · decide

theorem wellFormed_mapSignature : mapSignature.WellFormed (·.segments ≠ []) := by
  have hvariable : (TypeSignature.typeVar "R").WellFormed (·.segments ≠ []) :=
    .typeVar (by decide)
  have hplain : ∀ {package name arguments},
      (∀ part ∈ name :: package, IsIdentifier part) →
      (∀ a ∈ arguments, ∀ t, a.type? = some t → t = .typeVar "R") →
      (TypeSignature.classType (plainClass package name arguments)).WellFormed (·.segments ≠ []) := by
    intro package name arguments hnames harguments
    refine wellFormed_plainClass hnames fun a ha t ht => ?_
    obtain rfl := harguments a ha t ht
    exact ⟨nofun, hvariable⟩
  refine ⟨?_, ?_, ?_, List.forall_mem_singleton.mpr nofun,
    List.forall_mem_singleton.mpr (hplain (by decide) nofun)⟩
  · exact List.forall_mem_singleton.mpr ⟨by decide, .inl nofun,
      List.forall_mem_singleton.mpr nofun, List.forall_mem_singleton.mpr (hplain (by decide) nofun)⟩
  · refine List.forall_mem_cons.mpr ⟨hplain (by decide) (by simp [TypeArgument.type?]), ?_⟩
    exact List.forall_mem_singleton.mpr (.array (.base .int))
  · intro t ht
    cases ht
    exact hplain (by decide) (by simp [TypeArgument.type?])

/-- Both signatures are read back, and a list that is empty is not printed again. -/
theorem signatures_roundTrip :
    (supplierSignature.WellFormed (·.segments ≠ []) ∧ mapSignature.WellFormed (·.segments ≠ []))
    ∧ ClassSignature.parse ("<T::Ljava/lang/Comparable<TT;>;>Ljava/lang/Object;"
        ++ "Ljava/util/function/Supplier<TT;>;") = .ok supplierSignature
    ∧ MethodSignature.parse ("<R:Ljava/lang/Object;>(Ljava/util/List<+TR;>;[I)"
        ++ "Ljava/util/Map<*-TR;>;^Ljava/io/IOException;") = .ok mapSignature
    ∧ ClassSignature.parse "Lp/C<>;" = .ok ⟨[], plainClass ["p"] "C" [], []⟩
    ∧ ∃ front back, "Lp/C<>;" = front ++ "<>" ++ back
      ∧ ClassSignature.parse (front ++ back) = .ok ⟨[], plainClass ["p"] "C" [], []⟩ := by
  have hsupplier : String.ofList supplierSignature.render
      = "<T::Ljava/lang/Comparable<TT;>;>Ljava/lang/Object;"
        ++ "Ljava/util/function/Supplier<TT;>;" := by decide
  have hmap : String.ofList mapSignature.render = "<R:Ljava/lang/Object;>(Ljava/util/List<+TR;>;[I)"
      ++ "Ljava/util/Map<*-TR;>;^Ljava/io/IOException;" := by decide
  have hbrackets : ClassSignature.parse "Lp/C<>;" = .ok ⟨[], plainClass ["p"] "C" [], []⟩ := by
    rfl
  have hprinted : String.ofList (⟨[], plainClass ["p"] "C" [], []⟩ : ClassSignature).render
      ≠ "Lp/C<>;" := by decide
  obtain ⟨hclass, hmethod, hread, -⟩ := signature_roundTrip
  refine ⟨⟨wellFormed_supplierSignature, wellFormed_mapSignature⟩, ?_, ?_, hbrackets, ?_⟩
  · rw [← hsupplier]
    exact hclass supplierSignature wellFormed_supplierSignature
  · rw [← hmap]
    exact hmethod mapSignature wellFormed_mapSignature
  · simpa using (hread _ _ hbrackets).not.mp hprinted

/-- **A class type without segments is read back with one**, whose name is empty. -/
theorem noSegments_roundTrip :
    (⟨[], .mk ["p"] [], []⟩ : ClassSignature).WellFormed (fun _ => True)
    ∧ String.ofList (⟨[], .mk ["p"] [], []⟩ : ClassSignature).render = "Lp/;"
    ∧ ClassSignature.parse "Lp/;" = .ok ⟨[], .mk ["p"] [.mk "" []], []⟩
    ∧ ClassSignature.parse "Lp/;" ≠ .ok ⟨[], .mk ["p"] [], []⟩ := by
  have hread : ClassSignature.parse "Lp/;" = .ok ⟨[], .mk ["p"] [.mk "" []], []⟩ := by rfl
  refine ⟨⟨nofun, .classType trivial ?_ nofun nofun nofun, nofun⟩, by decide, hread, ?_⟩
  · exact List.forall_mem_singleton.mpr (by decide)
  · rw [hread]
    simp

end Conformance.ClassFile
