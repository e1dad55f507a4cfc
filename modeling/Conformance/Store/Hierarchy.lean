import Conformance.Store.Basic

/-!
# Walking the class hierarchy

Questions about what lies above a class are answered by walking from supertype to
supertype. A hierarchy may contain cycles and classes that no definition is known of, and
type arguments may grow on the way around a cycle, so a walk goes by names: each name is
met once, the nearest use of it first.

`walk` proceeds level by level. A level that leads to another one has met a stored class
that was not met before, so there are at most as many levels as stored classes.

* `ancestors` lists what lies above a class, nearest first.
* `supertypeView` sees a type as a use of a class above it.
* `methods` lists the methods of a class and of its superclasses.
-/

namespace Conformance

/-- Why a question about types has no answer. -/
inductive TypeFault where
  /-- No definition of the class is known. -/
  | unresolved (name : String)
  /-- The answer depends on what a type variable stands for. -/
  | unboundTypeVariable (name : String)
  deriving DecidableEq, Repr, Inhabited

def TypeFault.message : TypeFault → String
  | unresolved name => "cannot resolve type `" ++ name ++ "`"
  | unboundTypeVariable name =>
    "type variable `" ++ name ++ "` has no binding in this context"

/-- Whether a definition is stored or a fault says that it is not. -/
def Store.require (store : Store) (name : String) : Except TypeFault ClassDef :=
  match store.find? name with
  | some d => .ok d
  | none => .error (.unresolved name)

namespace Store

/-- How many stored classes have a name that is not among those seen. -/
def unseen (store : Store) (seen : List String) : Nat :=
  (store.names.filter (!seen.contains ·)).length

theorem mem_names_of_find? {store : Store} {name : String} {d : ClassDef}
    (h : store.find? name = some d) : name ∈ store.names := by
  unfold names
  rw [Std.ExtTreeMap.mem_keys]
  exact Std.ExtTreeMap.mem_iff_isSome_getElem?.mpr (by rw [show store.classes[name]? = _ from h]; rfl)

theorem unseen_cons_le (store : Store) (seen : List String) (name : String) :
    store.unseen (name :: seen) ≤ store.unseen seen := by
  unfold unseen
  rw [← List.countP_eq_length_filter, ← List.countP_eq_length_filter]
  refine List.countP_mono_left fun x _ => ?_
  simp +contextual

theorem unseen_cons_lt {store : Store} {seen : List String} {name : String} {d : ClassDef}
    (h : store.find? name = some d) (hn : name ∉ seen) :
    store.unseen (name :: seen) < store.unseen seen := by
  have hmem : name ∈ store.names.filter (!seen.contains ·) := by
    simp [mem_names_of_find? h, hn]
  have heq : store.names.filter (!(name :: seen).contains ·)
      = (store.names.filter (!seen.contains ·)).filter (· ≠ name) := by
    rw [List.filter_filter]
    congr 1
    funext x
    simp [eq_comm]
  unfold unseen
  rw [heq]
  exact List.length_filter_lt_length_iff_exists.mpr ⟨name, hmem, by simp⟩

/-! ## Levels -/

/-- What one level of a walk comes to. -/
structure Level where
  /-- The names met so far. -/
  seen : List String
  /-- The types of the level whose names were met here first. -/
  met : List JavaType
  /-- The supertypes of those. -/
  next : List JavaType

/-- Goes through the types of a level. `supers` gives the supertypes of a use of a class;
what is not a class has none, and neither has a class that is not stored. -/
def visit (store : Store) (supers : ClassDef → List JavaType → List JavaType)
    (seen : List String) : List JavaType → Level
  | [] => ⟨seen, [], []⟩
  | .classType name arguments :: level =>
    if name ∈ seen then visit store supers seen level
    else
      let rest := visit store supers (name :: seen) level
      let above := (store.find? name).elim [] (supers · arguments)
      ⟨rest.seen, .classType name arguments :: rest.met, above ++ rest.next⟩
  | _ :: level => visit store supers seen level

theorem unseen_visit_le (store : Store) (supers : ClassDef → List JavaType → List JavaType)
    (seen : List String) (level : List JavaType) :
    store.unseen (store.visit supers seen level).seen ≤ store.unseen seen := by
  fun_induction visit store supers seen level with
  | case1 => simp
  | case2 => assumption
  | case3 seen name arguments level hn rest above ih =>
    exact Nat.le_trans ih (unseen_cons_le ..)
  | case4 => assumption

theorem unseen_visit_lt (store : Store) (supers : ClassDef → List JavaType → List JavaType)
    (seen : List String) (level : List JavaType)
    (h : (store.visit supers seen level).next ≠ []) :
    store.unseen (store.visit supers seen level).seen < store.unseen seen := by
  fun_induction visit store supers seen level with
  | case1 => simp at h
  | case2 _ _ _ _ _ ih => exact ih h
  | case3 seen name arguments level hn rest above ih =>
    cases hd : store.find? name with
    | some d =>
      exact Nat.lt_of_le_of_lt (unseen_visit_le ..) (unseen_cons_lt hd hn)
    | none =>
      refine Nat.lt_of_lt_of_le (ih ?_) (unseen_cons_le ..)
      simpa [above, hd] using h
  | case4 _ _ _ _ ih => exact ih h

/-- All types met on a walk that begins with a level, in the order in which they are met. -/
def walk (store : Store) (supers : ClassDef → List JavaType → List JavaType)
    (seen : List String) (level : List JavaType) : List JavaType :=
  let here := store.visit supers seen level
  if _h : here.next = [] then here.met
  else here.met ++ store.walk supers here.seen here.next
termination_by store.unseen seen
decreasing_by exact unseen_visit_lt store supers seen level _h

/-! ## Questions about what lies above -/

/-- The direct supertypes of a use of a class, with the arguments in place. -/
def supersOfUse (d : ClassDef) (arguments : List JavaType) : List JavaType :=
  JavaType.substituteAll (d.instantiation arguments) d.directSupertypes

/-- The direct supertypes of a use of a class; those of a raw use are raw. -/
def supersOfView (d : ClassDef) (arguments : List JavaType) : List JavaType :=
  if arguments.isEmpty && !d.typeParams.isEmpty then d.directSupertypes.map JavaType.erasure
  else supersOfUse d arguments

/-- What lies above a class, nearest first. A class that is not stored is listed, but what
lies above it is unknown. -/
def ancestors (store : Store) (name : String) : Except TypeFault (List JavaType) := do
  let d ← store.require name
  return store.walk supersOfUse [name] d.directSupertypes

/-- A type and everything above it, nearest first. -/
def supertypes (store : Store) (type : JavaType) : List JavaType :=
  store.walk supersOfView [] [type]

/-- A type as a use of a class above it, or of its own class. If the class is not found,
a class on the way that is not stored might be the one that has it above. -/
def supertypeView (store : Store) (type : JavaType) (name : String) :
    Except TypeFault (Option JavaType) :=
  let found := store.supertypes type
  match found.find? (·.className? = some name) with
  | some view => .ok (some view)
  | none =>
    match (found.filterMap JavaType.className?).find? (!store.contains ·) with
    | some unknown => .error (.unresolved unknown)
    | none => .ok none

/-- The methods of a superclass and of the superclasses above it. -/
def inheritedMethods (store : Store) (seen : List String) (type : JavaType) : List MethodDef :=
  match type with
  | .classType name arguments =>
    if _hn : name ∈ seen then []
    else
      match _hd : store.find? name with
      | none => []
      | some d =>
        let s := d.instantiation arguments
        let own := d.methods.map (MethodDef.substitute s)
        match d.superClass with
        | none => own
        | some superClass =>
          own ++ store.inheritedMethods (name :: seen) (superClass.substitute s)
  | _ => []
termination_by store.unseen seen
decreasing_by exact unseen_cons_lt _hd _hn

/-- The methods of a class, its own first, then those of its superclasses upward. -/
def methods (store : Store) (name : String) : Except TypeFault (List MethodDef) := do
  let d ← store.require name
  return d.methods ++ d.superClass.elim [] (store.inheritedMethods [name])

end Store

end Conformance
