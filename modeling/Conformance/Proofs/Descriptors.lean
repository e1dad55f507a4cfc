import Conformance.ClassFile.Descriptor

/-!
# Descriptors read and printed

A descriptor has one spelling, and reading undoes printing (`descriptors_roundTrip`). The one thing
that the notation leaves to its users is that the name of a class holds no semicolon, because the
first one ends it (`Delimited`).

A type is taken off a text exactly if the text begins with what is printed for the type, whatever
follows (`take?_eq_some`). So nothing is skipped on the way through a descriptor, and nothing is left
of one that is read.
-/

namespace Conformance.ClassFile

namespace FieldType

/-- The class that a type is built from, if it is not built from a primitive type. -/
def className? : FieldType → Option String
  | base _ => none
  | object name => some name
  | array element => element.className?

/-- The name of the class in a type holds nothing that would end it. -/
def Delimited (type : FieldType) : Prop := ∀ name ∈ type.className?, ';' ∉ name.toList

theorem splitSemicolon?_eq_some {text name rest : List Char} :
    splitSemicolon? text = some (name, rest) ↔ text = name ++ ';' :: rest ∧ ';' ∉ name := by
  constructor
  · intro h
    fun_induction splitSemicolon? text generalizing name with
    | case1 => cases h
    | case2 text =>
      cases h
      exact ⟨rfl, List.not_mem_nil⟩
    | case3 c text hc ih =>
      obtain ⟨⟨name, rest⟩, hrest, h⟩ := Option.map_eq_some_iff.mp h
      cases h
      obtain ⟨rfl, hname⟩ := ih hrest
      exact ⟨rfl, List.not_mem_cons_of_ne_of_not_mem (fun h => hc h.symm) hname⟩
  · rintro ⟨rfl, hname⟩
    induction name with
    | nil => rfl
    | cons c name ih =>
      rw [List.mem_cons, not_or] at hname
      rw [List.cons_append, splitSemicolon?, ih hname.2]
      · rfl
      · exact fun h => hname.1 h.symm

/-- What is taken off a text is printed as the text begins. -/
theorem take?_eq_some {text rest : List Char} {type : FieldType} :
    take? text = some (type, rest) ↔ text = type.render ++ rest ∧ type.Delimited := by
  constructor
  · intro h
    fun_induction take? text generalizing type with
    | case1 => cases h
    | case2 text =>
      obtain ⟨⟨name, rest⟩, hsplit, h⟩ := Option.map_eq_some_iff.mp h
      cases h
      obtain ⟨rfl, hname⟩ := splitSemicolon?_eq_some.mp hsplit
      exact ⟨by simp [render], by simpa [Delimited, className?] using hname⟩
    | case3 text ih =>
      obtain ⟨⟨element, rest⟩, helement, h⟩ := Option.map_eq_some_iff.mp h
      cases h
      obtain ⟨rfl, hdelimited⟩ := ih helement
      exact ⟨rfl, hdelimited⟩
    | case4 c text =>
      obtain ⟨p, hp, h⟩ := Option.map_eq_some_iff.mp h
      cases h
      exact ⟨by rw [Primitive.ofLetter?_eq_some.mp hp, render, List.singleton_append], nofun⟩
  · -- only the name of a class is read to an end that it could hold itself
    rintro ⟨rfl, hdelimited⟩
    induction type with
    | base p => cases p <;> rfl
    | object name =>
      have hsplit : splitSemicolon? (name.toList ++ ';' :: rest) = some (name.toList, rest) :=
        splitSemicolon?_eq_some.mpr ⟨rfl, hdelimited name rfl⟩
      rw [render, List.cons_append, List.cons_append, List.append_assoc, List.singleton_append,
        take?, hsplit, Option.map_some]
      dsimp only
      rw [String.ofList_toList]
    | array element ih =>
      rw [render, List.cons_append, take?, ih hdelimited]
      rfl

theorem parse_eq_ok {text : String} {type : FieldType} :
    parse text = .ok type ↔ text = String.ofList type.render ∧ type.Delimited := by
  have htake : take? text.toList = some (type, [])
      ↔ text.toList = type.render ∧ type.Delimited := by
    rw [take?_eq_some, List.append_nil]
  rw [← String.toList_inj, String.toList_ofList, ← htake, parse]
  split
  · next found h => simp [h]
  · next h =>
    refine ⟨nofun, fun hfound => absurd hfound (h type)⟩

theorem eq_of_parse_eq_error {text : String} {fault : Fault} (h : parse text = .error fault) :
    fault = .malformedDescriptor text := by
  unfold parse at h
  split at h <;> cases h
  rfl

theorem length_render_pos (type : FieldType) : 0 < type.render.length := by
  cases type <;> exact Nat.succ_pos _

/-- A printed type begins neither like what closes a list of parameters nor like no type at all. -/
theorem render_append_ne (type : FieldType) (rest left : List Char) :
    type.render ++ rest ≠ ')' :: left ∧ type.render ++ rest ≠ 'V' :: left := by
  cases type with
  | base p => cases p <;> simp [render, Primitive.letter]
  | object name => simp [render]
  | array element => simp [render]

end FieldType

namespace MethodDescriptor

/-- The types that a descriptor names. -/
def types (d : MethodDescriptor) : List FieldType := d.parameters ++ d.result.toList

/-- The names of the classes in a descriptor hold nothing that would end them. -/
def Delimited (d : MethodDescriptor) : Prop := ∀ type ∈ d.types, type.Delimited

theorem takeParameters?_sound {fuel : Nat} {text rest : List Char} {types : List FieldType}
    (h : takeParameters? fuel text = some (types, rest)) :
    text = types.flatMap FieldType.render ++ ')' :: rest ∧ ∀ type ∈ types, type.Delimited := by
  fun_induction takeParameters? fuel text generalizing types with
  | case1 fuel text =>
    cases h
    exact ⟨rfl, nofun⟩
  | case2 => cases h
  | case3 fuel text hclose ih =>
    obtain ⟨⟨first, left⟩, hfirst, h⟩ := Option.bind_eq_some_iff.mp h
    obtain ⟨⟨others, left'⟩, hothers, h⟩ := Option.bind_eq_some_iff.mp h
    cases h
    obtain ⟨rfl, hdelimited⟩ := FieldType.take?_eq_some.mp hfirst
    obtain ⟨rfl, hall⟩ := ih _ hothers
    exact ⟨by simp, List.forall_mem_cons.mpr ⟨hdelimited, hall⟩⟩

theorem takeParameters?_complete {types : List FieldType} (rest : List Char)
    (h : ∀ type ∈ types, type.Delimited) {fuel : Nat}
    (hfuel : (types.flatMap FieldType.render).length ≤ fuel) :
    takeParameters? fuel (types.flatMap FieldType.render ++ ')' :: rest) = some (types, rest) := by
  induction types generalizing fuel with
  | nil => cases fuel <;> rfl
  | cons first others ih =>
    rw [List.forall_mem_cons] at h
    have hpos := first.length_render_pos
    rw [List.flatMap_cons, List.length_append] at hfuel
    cases fuel with
    | zero => omega
    | succ fuel =>
      have hfirst : FieldType.take? (first.render ++ (others.flatMap FieldType.render ++ ')' :: rest))
          = some (first, others.flatMap FieldType.render ++ ')' :: rest) :=
        FieldType.take?_eq_some.mpr ⟨rfl, h.1⟩
      have hlater : (others.flatMap FieldType.render).length ≤ fuel := by omega
      have hothers := ih h.2 hlater
      rw [List.flatMap_cons, List.append_assoc, takeParameters?, hfirst]
      · exact Option.bind_eq_some_iff.mpr ⟨_, rfl, Option.bind_eq_some_iff.mpr ⟨_, hothers, rfl⟩⟩
      · exact fun left => (first.render_append_ne _ left).1

theorem takeResult?_eq_some {text rest : List Char} {result : Option FieldType} :
    takeResult? text = some (result, rest)
      ↔ text = result.elim ['V'] FieldType.render ++ rest ∧ ∀ type ∈ result, type.Delimited := by
  constructor
  · intro h
    unfold takeResult? at h
    split at h
    · cases h
      exact ⟨rfl, nofun⟩
    · obtain ⟨⟨type, rest⟩, htype, h⟩ := Option.map_eq_some_iff.mp h
      cases h
      obtain ⟨rfl, hdelimited⟩ := FieldType.take?_eq_some.mp htype
      exact ⟨rfl, by simpa using hdelimited⟩
  · rintro ⟨rfl, hdelimited⟩
    cases result with
    | none => rfl
    | some type =>
      have htype : FieldType.take? (type.render ++ rest) = some (type, rest) :=
        FieldType.take?_eq_some.mpr ⟨rfl, hdelimited type rfl⟩
      rw [Option.elim_some, takeResult?, htype]
      · rfl
      · exact fun left => (type.render_append_ne rest left).2

theorem ofChars?_eq_some {text : List Char} {d : MethodDescriptor} :
    ofChars? text = some d ↔ text = d.render ∧ d.Delimited := by
  have hall : d.Delimited ↔ (∀ type ∈ d.parameters, type.Delimited)
      ∧ ∀ type ∈ d.result, type.Delimited := by
    simp only [Delimited, types, List.forall_mem_append, Option.mem_toList, Option.mem_def]
  rw [hall]
  constructor
  · intro h
    unfold ofChars? at h
    split at h
    · obtain ⟨⟨parameters, left⟩, hparameters, h⟩ := Option.bind_eq_some_iff.mp h
      obtain ⟨⟨result, rest⟩, hresult, h⟩ := Option.bind_eq_some_iff.mp h
      dsimp only at h
      split at h
      · next hend =>
        cases h
        obtain ⟨rfl, hdelimited⟩ := takeParameters?_sound hparameters
        obtain ⟨rfl, hdelimited'⟩ := takeResult?_eq_some.mp hresult
        obtain rfl : rest = [] := List.isEmpty_iff.mp hend
        exact ⟨by simp [render], hdelimited, hdelimited'⟩
      · cases h
    · cases h
  · rintro ⟨rfl, hparameters, hresult⟩
    have hfuel : (d.parameters.flatMap FieldType.render).length
        ≤ (d.parameters.flatMap FieldType.render ++ ')' :: d.result.elim ['V'] FieldType.render).length :=
      (List.prefix_append ..).length_le
    have htakeResult : takeResult? (d.result.elim ['V'] FieldType.render) = some (d.result, []) :=
      takeResult?_eq_some.mpr ⟨(List.append_nil _).symm, hresult⟩
    exact Option.bind_eq_some_iff.mpr ⟨_, takeParameters?_complete _ hparameters hfuel,
      Option.bind_eq_some_iff.mpr ⟨_, htakeResult, rfl⟩⟩

theorem parse_eq_ok {text : String} {d : MethodDescriptor} :
    parse text = .ok d ↔ text = String.ofList d.render ∧ d.Delimited := by
  rw [← String.toList_inj, String.toList_ofList, ← ofChars?_eq_some, parse]
  cases ofChars? text.toList with
  | some found => simp
  | none => simp

theorem eq_of_parse_eq_error {text : String} {fault : Fault} (h : parse text = .error fault) :
    fault = .malformedDescriptor text := by
  unfold parse at h
  split at h <;> cases h
  rfl

end MethodDescriptor

/-! ## Both ways -/

/-- Reading and printing are inverse to each other for the values of some sort. -/
structure RoundTrips {α : Type} (parse : String → Except Fault α) (render : α → List Char)
    (Proper : α → Prop) : Prop where
  parse_render : ∀ a, Proper a → parse (String.ofList (render a)) = .ok a
  render_parse : ∀ text a, parse text = .ok a → String.ofList (render a) = text ∧ Proper a
  /-- What is not printed for anything is reported, as it is. -/
  refused : ∀ text, (∀ a, Proper a → String.ofList (render a) ≠ text) →
    parse text = .error (.malformedDescriptor text)

theorem roundTrips_of_iff {α : Type} {parse : String → Except Fault α} {render : α → List Char}
    {Proper : α → Prop}
    (hok : ∀ {text a}, parse text = .ok a ↔ text = String.ofList (render a) ∧ Proper a)
    (herror : ∀ {text fault}, parse text = .error fault → fault = .malformedDescriptor text) :
    RoundTrips parse render Proper where
  parse_render a ha := hok.mpr ⟨rfl, ha⟩
  render_parse text a h := ⟨(hok.mp h).1.symm, (hok.mp h).2⟩
  refused text hnot := by
    cases h : parse text with
    | ok a => exact absurd (hok.mp h).1.symm (hnot a (hok.mp h).2)
    | error fault => rw [herror h]

/-- **Descriptors are read as they are printed.** This holds of the types of fields and of the
descriptors of methods, as long as no name of a class holds a semicolon. What is read never has
such a name, and a text that is not printed for anything is refused as a whole. -/
theorem descriptors_roundTrip :
    RoundTrips FieldType.parse FieldType.render FieldType.Delimited
      ∧ RoundTrips MethodDescriptor.parse MethodDescriptor.render MethodDescriptor.Delimited :=
  ⟨roundTrips_of_iff FieldType.parse_eq_ok FieldType.eq_of_parse_eq_error,
    roundTrips_of_iff MethodDescriptor.parse_eq_ok MethodDescriptor.eq_of_parse_eq_error⟩

/-- The empty name is a name like any other, and a text that goes on after a type is no type. -/
theorem putDescriptor_roundTrips :
    MethodDescriptor.parse "([[Ljava/util/Map$Entry;JL;)V"
        = .ok ⟨[.array (.array (.object "java/util/Map$Entry")), .base .long, .object ""], none⟩
      ∧ FieldType.parse "II" = .error (.malformedDescriptor "II") := by
  obtain ⟨hfield, hmethod⟩ := descriptors_roundTrip
  refine ⟨hmethod.parse_render
    ⟨[.array (.array (.object "java/util/Map$Entry")), .base .long, .object ""], none⟩ ?_,
    hfield.refused "II" fun type _ h => ?_⟩
  · simp [MethodDescriptor.Delimited, MethodDescriptor.types, FieldType.Delimited,
      FieldType.className?]
  · have hchars : type.render = ['I', 'I'] := by
      rw [← String.toList_ofList (l := type.render), h]
      rfl
    cases type <;> simp [FieldType.render] at hchars

end Conformance.ClassFile
