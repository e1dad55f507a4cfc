import Conformance.Proofs.Rereading
import Conformance.Proofs.TypeRules

/-!
# What a spelled type means

A class is written under the shortest ending of its name that means it. The endings are tried from
the shortest on, and they get longer with every part that is added, so the first that means the
class is the shortest (`shortestName_shortest`). If none of them does, the full name is left; that
it means the class is all that has to be known beforehand.

A bare name that is a type variable never means a class, so spelling passes over such an ending. Type
variables have no dots in their names, so they are in the way of endings of one part only. Then
what is spelled means the type that was spelled, down to the last argument (`typeOf_spell`).
-/

namespace Conformance

/-! ## The classes in a type -/

namespace JavaType

mutual

/-- The names of all classes that a type is made of. -/
def classNames : JavaType → List String
  | classType name arguments => name :: classNamesAll arguments
  | array element => element.classNames
  | wildcardExtends bound | wildcardSuper bound => bound.classNames
  | void | primitive _ | typeVar _ | wildcard => []

/-- The names of all classes that some types are made of. -/
def classNamesAll : List JavaType → List String
  | [] => []
  | first :: others => first.classNames ++ classNamesAll others

end

theorem classNamesAll_eq_flatMap (ts : List JavaType) :
    classNamesAll ts = ts.flatMap classNames := by
  induction ts with
  | nil => rfl
  | cons t ts ih => rw [classNamesAll, ih, List.flatMap_cons]

end JavaType

namespace Java

namespace Scope

open WrittenType

variable {s : Scope} {c : Context} {name written : String}

/-! ## Endings of a name -/

/-- A written name is the whole of a name or what follows one of its dots. -/
def Ends (written name : String) : Prop := written = name ∨ ∃ before, name = before ++ "." ++ written

theorem intercalate_append (first next : String) (others parts : List String) :
    ".".intercalate (first :: others ++ next :: parts)
      = ".".intercalate (first :: others) ++ "." ++ ".".intercalate (next :: parts) := by
  rw [← String.toList_inj, List.cons_append, String.toList_append, String.toList_append]
  simp only [toList_intercalate_dot, List.flatMap_append, List.flatMap_cons, List.append_assoc]
  rfl

/-- The ending of a list of parts is what follows a dot. -/
theorem intercalate_drop {parts : List String} {n m : Nat} (h : n < m) (hm : m < parts.length) :
    ∃ before, ".".intercalate (parts.drop n) = before ++ "." ++ ".".intercalate (parts.drop m) := by
  -- neither what lies between the two endings nor the shorter ending is empty
  have hsplit : parts.drop n = (parts.drop n).take (m - n) ++ parts.drop m := by
    conv_lhs => rw [← List.take_append_drop (m - n) (parts.drop n)]
    rw [List.drop_drop]
    congr 2
    omega
  cases htaken : (parts.drop n).take (m - n) with
  | nil =>
    have := congrArg List.length htaken
    simp at this
    omega
  | cons first others =>
    cases hleft : parts.drop m with
    | nil =>
      rw [List.drop_eq_nil_iff] at hleft
      omega
    | cons next rest => exact ⟨_, by rw [hsplit, htaken, hleft, intercalate_append]⟩

theorem split_append (before written : String) :
    Text.split '.' (before ++ "." ++ written) = Text.split '.' before ++ Text.split '.' written := by
  have hdot : ".".toList = ['.'] := rfl
  rw [Text.split, String.toList_append, String.toList_append, hdot, List.append_assoc,
    List.singleton_append, Text.splitOnChar_append_cons, List.map_append]
  rfl

theorem split_ne_nil (name : String) : Text.split '.' name ≠ [] := by
  rw [Text.split, ne_eq, List.map_eq_nil_iff]
  exact Text.splitOnChar_ne_nil '.' _

/-- The endings are what follows the dots of a name. -/
theorem mem_endings_iff : written ∈ endings name ↔ ∃ before, name = before ++ "." ++ written := by
  constructor
  · intro h
    obtain ⟨n, hn, rfl⟩ := List.mem_map.mp h
    rw [List.mem_range] at hn
    obtain ⟨before, hbefore⟩ :=
      @intercalate_drop (Text.split '.' name) 0 ((Text.split '.' name).length - 1 - n)
        (by omega) (by omega)
    rw [List.drop_zero, intercalate_split] at hbefore
    exact ⟨before, hbefore⟩
  · rintro ⟨before, rfl⟩
    have hbefore := List.length_pos_of_ne_nil (split_ne_nil before)
    have hwritten := List.length_pos_of_ne_nil (split_ne_nil written)
    refine List.mem_map.mpr ⟨(Text.split '.' written).length - 1, ?_, ?_⟩
    · rw [List.mem_range, split_append, List.length_append]
      omega
    · have hdrop : (Text.split '.' before ++ Text.split '.' written).length - 1
          - ((Text.split '.' written).length - 1) = (Text.split '.' before).length := by
        rw [List.length_append]
        omega
      rw [split_append, hdrop, List.drop_left, intercalate_split]

/-- Longer endings are tried later. -/
theorem pairwise_length_endings (name : String) :
    (endings name).Pairwise fun written later => written.length < later.length := by
  refine List.pairwise_map.mpr (List.pairwise_lt_range.imp_of_mem fun {n m} hn hm h => ?_)
  rw [List.mem_range] at hn hm
  obtain ⟨before, hbefore⟩ := @intercalate_drop (Text.split '.' name)
    ((Text.split '.' name).length - 1 - m) ((Text.split '.' name).length - 1 - n)
    (by omega) (by omega)
  rw [hbefore, String.length_append, String.length_append]
  have : ".".length = 1 := rfl
  omega

/-! ## The shortest name -/

/-- A written name means a class, and is not taken for a type variable. -/
def Denotes (s : Scope) (c : Context) (written name : String) : Prop :=
  s.resolve? c written = some name ∧ written ∉ c.typeVars

/-- Type variables have no dots in their names, so a name that is one has a single part. -/
theorem isHidden_iff (hdotless : ∀ x ∈ c.typeVars, '.' ∉ x.toList) :
    isHidden c written = true ↔ written ∈ c.typeVars := by
  rw [isHidden, Bool.and_eq_true, isEmpty_rest_iff, List.contains_iff_mem]
  exact ⟨And.right, fun h => ⟨hdotless written h, h⟩⟩

theorem denotes_iff (hdotless : ∀ x ∈ c.typeVars, '.' ∉ x.toList) :
    (!isHidden c written && decide (s.resolve? c written = some name)) = true
      ↔ s.Denotes c written name := by
  rw [Bool.and_eq_true, Bool.not_eq_true', ← Bool.not_eq_true, isHidden_iff hdotless,
    decide_eq_true_iff, Denotes, and_comm]

/-- **What is written for a class is the shortest ending of its name that means it.** -/
theorem shortestName_shortest (hdotless : ∀ x ∈ c.typeVars, '.' ∉ x.toList)
    (hname : s.Denotes c name name) :
    Ends (s.shortestName c name) name ∧ s.Denotes c (s.shortestName c name) name
      ∧ ∀ written, Ends written name → s.Denotes c written name →
        (s.shortestName c name).length ≤ written.length := by
  have hshorter : ∀ {written}, written ∈ endings name → written.length ≤ name.length := by
    intro written h
    obtain ⟨before, rfl⟩ := mem_endings_iff.mp h
    simp only [String.length_append]
    omega
  unfold shortestName
  cases hfind : (endings name).find? fun written =>
      !isHidden c written && decide (s.resolve? c written = some name) with
  | none =>
    rw [Option.getD_none]
    -- no proper ending means the class, so the full name is the only candidate
    refine ⟨.inl rfl, hname, ?_⟩
    rintro written (rfl | hends) hdenotes
    · exact Nat.le_refl _
    · exact absurd ((denotes_iff hdotless).mpr hdenotes)
        (List.find?_eq_none.mp hfind written (mem_endings_iff.mpr hends))
  | some shortest =>
    obtain ⟨hfound, before, after, hendings, hbefore⟩ := List.find?_eq_some_iff_append.mp hfind
    have hmem : shortest ∈ endings name := List.mem_of_find?_eq_some hfind
    rw [Option.getD_some]
    refine ⟨.inr (mem_endings_iff.mp hmem), (denotes_iff hdotless).mp hfound, ?_⟩
    rintro written (rfl | hends) hdenotes
    · exact hshorter hmem
    · -- no ending in front of the one that was found means the class, and those behind it are longer
      have hwritten := mem_endings_iff.mpr hends
      have hpairwise := pairwise_length_endings name
      rw [hendings] at hwritten hpairwise
      rcases List.mem_append.mp hwritten with h | h
      · have hnot := hbefore written h
        rw [(denotes_iff hdotless).mpr hdenotes] at hnot
        cases hnot
      · rcases List.mem_cons.mp h with rfl | h
        · exact Nat.le_refl _
        · exact Nat.le_of_lt
            ((List.pairwise_cons.mp (List.pairwise_append.mp hpairwise).2.1).1 written h)

/-! ## Types -/

theorem spellAll_eq_map (s : Scope) (c : Context) (ts : List JavaType) :
    s.spellAll c ts = ts.map (s.spell c) := by
  induction ts with
  | nil => rfl
  | cons t ts ih => rw [spellAll, ih, List.map_cons]

theorem typeOf_spell_classType {arguments : List JavaType}
    (harguments : ∀ a ∈ arguments, s.typeOf c (s.spell c a) = a)
    (hname : s.Denotes c (s.shortestName c name) name) :
    s.typeOf c (s.spell c (.classType name arguments)) = .classType name arguments := by
  -- the name is not looked up as a type variable, with arguments or without
  have hvar : ((s.spellAll c arguments).isEmpty && c.typeVars.contains (s.shortestName c name))
      = false := by
    rw [Bool.and_eq_false_iff, ← Bool.not_eq_true, ← Bool.not_eq_true, List.contains_iff_mem]
    exact .inr hname.2
  rw [spell, typeOf, hvar, if_neg Bool.false_ne_true, hname.1, Option.getD_some, spellAll_eq_map,
    typesOf_eq_map, List.map_map]
  congr 1
  exact (List.map_congr_left harguments).trans (List.map_id arguments)

/-- **A spelled type means the type.** Where every class of a type can be written at all, and its type
variables are in view, reading what is spelled gives back the type; and each class is written under
the shortest ending of its name that means it. -/
theorem typeOf_spell (hdotless : ∀ x ∈ c.typeVars, '.' ∉ x.toList) :
    (∀ t : JavaType, t.MentionsOnly (· ∈ c.typeVars) →
        (∀ name ∈ t.classNames, s.Denotes c name name) → s.typeOf c (s.spell c t) = t)
      ∧ ∀ name, s.Denotes c name name →
        Ends (s.shortestName c name) name ∧ s.Denotes c (s.shortestName c name) name
          ∧ ∀ written, Ends written name → s.Denotes c written name →
            (s.shortestName c name).length ≤ written.length := by
  refine ⟨fun t hvars hnames => ?_, fun name hname => shortestName_shortest hdotless hname⟩
  induction t with
  | void => rfl
  | primitive p => rw [spell, typeOf, Primitive.ofKeyword?_keyword]; rfl
  | typeVar x =>
    have hx : c.typeVars.contains x = true :=
      List.contains_iff_mem.mpr (JavaType.mentionsOnly_typeVar.mp hvars)
    rw [spell, typeOf, hx]
    rfl
  | classType name arguments ih =>
    simp only [JavaType.classNames, JavaType.classNamesAll_eq_flatMap, List.forall_mem_cons,
      List.mem_flatMap] at hnames
    refine typeOf_spell_classType (fun a ha => ih a ha ?_ ?_)
      (shortestName_shortest hdotless hnames.1).2.1
    · exact JavaType.mentionsOnly_classType.mp hvars a ha
    · exact fun name hname => hnames.2 name ⟨a, ha, hname⟩
  | array t ih => rw [spell, typeOf, ih hvars hnames]
  | wildcard => rfl
  | wildcardExtends t ih => rw [spell, typeOf, ih hvars hnames]
  | wildcardSuper t ih => rw [spell, typeOf, ih hvars hnames]

/-- A file of the package `app` that imports `lib.Outer`, `lib.T` and all of `java.util`. -/
def probeScope : Scope where
  store := Store.empty.insertAll
    (["app.Probe", "app.Probe.Entry", "lib.Outer", "lib.Outer.Inner", "lib.T", "java.util.Map",
      "java.util.Map.Entry"].map fun name => { name, kind := .interface })
  package := "app"
  imports := [⟨"lib.Outer", false, false⟩, ⟨"lib.T", false, false⟩, ⟨"java.util", false, true⟩]
  topLevel := ["Probe"]

/-- A place inside of `Probe<T>`. -/
def probeContext : Context where
  typeVars := ["T"]
  enclosing := ["app.Probe"]

/-- A type with a class that is named like the type variable, and one that is named like a member of
`Probe`. -/
def probeType : JavaType :=
  .classType "java.util.Map" [.wildcardSuper (.array (.raw "lib.T")),
    .classType "java.util.Map.Entry" [.typeVar "T", .raw "lib.Outer.Inner"]]

theorem probeType_spelled : (∀ x ∈ probeContext.typeVars, '.' ∉ x.toList)
    ∧ probeType.MentionsOnly (· ∈ probeContext.typeVars)
    ∧ (∀ name ∈ probeType.classNames, probeScope.Denotes probeContext name name)
    ∧ probeScope.typeOf probeContext (probeScope.spell probeContext probeType) = probeType
    ∧ probeScope.shortestName probeContext "lib.T" = "lib.T"
    ∧ probeScope.shortestName probeContext "java.util.Map.Entry" = "Map.Entry" := by
  have hdotless : ∀ x ∈ probeContext.typeVars, '.' ∉ x.toList := by decide
  have hvars : probeType.MentionsOnly (· ∈ probeContext.typeVars) := by
    simp [JavaType.MentionsOnly, probeType, probeContext, JavaType.raw, JavaType.mentions,
      JavaType.mentionsAny, eq_comm]
  have hnames : ∀ name ∈ probeType.classNames, probeScope.Denotes probeContext name name := by
    unfold Denotes
    decide
  exact ⟨hdotless, hvars, hnames, (typeOf_spell hdotless).1 probeType hvars hnames,
    by decide, by decide⟩

end Scope

end Java

end Conformance
