import Conformance.Java.WrittenType
import Conformance.Store.Basic
import Conformance.Text.Edit

/-!
# Type declarations

A `Declaration` is the part of a class, interface, enum, record or annotation type that says
which types it belongs to: its header, its methods' signatures and the types nested in it.
The types in its header fall into those that were written when it was read and those added
since; only the latter still have to be written into the text, at the `ClauseAnchor`.
-/

namespace Conformance.Java

structure WrittenTypeParam where
  name : String
  bounds : List WrittenType
  deriving DecidableEq, Repr, Inhabited

/-- A method as its declaration spells it. -/
structure WrittenMethod where
  name : String
  typeParams : List WrittenTypeParam
  params : List WrittenType
  returnType : WrittenType
  isStatic : Bool
  isPrivate : Bool
  isAbstract : Bool
  isDefault : Bool
  deriving DecidableEq, Repr, Inhabited

/-- The place for further entries in the list of interfaces of a header. -/
structure ClauseAnchor where
  offset : Nat
  /-- Whether the header has such a list; the place is then its end. -/
  hasClause : Bool
  deriving DecidableEq, Repr, Inhabited

structure Declaration where
  kind : ClassKind
  name : String
  typeParams : List WrittenTypeParam
  superclass : Option WrittenType
  /-- The list of interfaces as it was read. -/
  declared : List WrittenType
  /-- The interfaces that were added to the list. -/
  added : List WrittenType
  methods : List WrittenMethod
  members : List Declaration
  anchor : ClauseAnchor
  deriving Repr, Inhabited

namespace Declaration

mutual

/-- Compares two declarations piece by piece. -/
def same : Declaration → Declaration → Bool
  | ⟨k, m, ps, s, ds, as, ms, cs, a⟩, ⟨l, n, qs, t, es, bs, ns, fs, b⟩ =>
    k = l && m = n && ps = qs && s = t && ds = es && as = bs && ms = ns && sameAll cs fs && a = b

def sameAll : List Declaration → List Declaration → Bool
  | [], [] => true
  | d :: ds, e :: es => same d e && sameAll ds es
  | _, _ => false

end

mutual

theorem same_iff : (d e : Declaration) → same d e = true ↔ d = e
  | ⟨_, _, _, _, _, _, _, members, _⟩, ⟨_, _, _, _, _, _, _, _, _⟩ => by
    simp [same, sameAll_iff members, and_assoc]

theorem sameAll_iff : (ds es : List Declaration) → sameAll ds es = true ↔ ds = es
  | [], es => by cases es <;> simp [sameAll]
  | d :: ds, es => by cases es <;> simp [sameAll, same_iff d, sameAll_iff ds]

end

instance : DecidableEq Declaration := fun d e => decidable_of_iff _ (same_iff d e)

/-- The list of interfaces: what was read, then what was added. -/
def interfaces (d : Declaration) : List WrittenType := d.declared ++ d.added

/-- The declaration with one more interface at the end of its list. -/
def addInterface (t : WrittenType) (d : Declaration) : Declaration :=
  { d with added := d.added ++ [t] }

/-- The word before the list of interfaces. -/
def clauseKeyword (kind : ClassKind) : String :=
  match kind with
  | .interface => "extends"
  | _ => "implements"

/-- What has to be inserted for interfaces added to a declaration itself. -/
def insertion? (kind : ClassKind) (anchor : ClauseAnchor) (added : List WrittenType) :
    Option TextEdit :=
  if added.isEmpty then none
  else
    let list := ", ".intercalate (added.map WrittenType.text)
    let text := if anchor.hasClause then ", " ++ list else " " ++ clauseKeyword kind ++ " " ++ list
    some (.insert anchor.offset text)

mutual

/-- Whether an interface was added to the declaration or to one nested in it. -/
def isModified : Declaration → Bool
  | { added, members, .. } => !added.isEmpty || anyModified members

/-- Whether an interface was added to any of the declarations. -/
def anyModified : List Declaration → Bool
  | [] => false
  | d :: others => d.isModified || anyModified others

end

mutual

/-- What has to be inserted for all interfaces that were added, nested declarations last. -/
def insertions : Declaration → List TextEdit
  | { kind, added, members, anchor, .. } =>
    (insertion? kind anchor added).toList ++ insertionsOf members

/-- What has to be inserted for the interfaces added to any of the declarations. -/
def insertionsOf : List Declaration → List TextEdit
  | [] => []
  | d :: others => d.insertions ++ insertionsOf others

end

/-- Changes the declaration at a path of positions: among the given ones, then among the
members of that one, and so on. -/
def modifyAt? (f : Declaration → Declaration) :
    List Nat → List Declaration → Option (Declaration × List Declaration)
  | [], _ => none
  | _ :: _, [] => none
  | 0 :: [], d :: others => some (f d, f d :: others)
  | 0 :: path, d :: others =>
    (modifyAt? f path d.members).map fun (found, members) =>
      (found, { d with members := members } :: others)
  | (n + 1) :: path, d :: others =>
    (modifyAt? f (n :: path) others).map fun (found, others) => (found, d :: others)
termination_by path _ => path.foldr (fun n size => n + 1 + size) 0

end Declaration

/-! ## Reading a declaration from its tree -/

namespace Declaration

/-- The words and symbols right below a node. -/
def ownTokens (trees : List Tree) : List Token :=
  trees.filterMap fun
    | .leaf token => if token.isComment then none else some token
    | .node _ _ => none

/-- The words right below a node. -/
def ownWords (trees : List Tree) : List String :=
  (ownTokens trees).filterMap fun token => if token.kind = .word then some token.text else none

/-- The trees below the first node of a kind. -/
def inside (kind : NodeKind) (trees : List Tree) : List Tree :=
  ((trees.find? (·.isNode kind)).map Tree.children).getD []

/-- The kind of class that a node declares. -/
def kindOf? : NodeKind → Option ClassKind
  | .classDecl => some .plainClass
  | .interfaceDecl => some .interface
  | .enumDecl => some .enum
  | .recordDecl => some .record
  | .annotationDecl => some .annotationType
  | _ => none

/-- The first of some trees that is a type. -/
def typeTree? (trees : List Tree) : Option Tree :=
  trees.find? fun t =>
    t.isNode .voidType || t.isNode .primitiveType || t.isNode .classType || t.isNode .arrayType

/-- The first type among some trees, with the dimensions that follow it. -/
def dimensionedType? (trees : List Tree) : Option WrittenType :=
  (typeTree? trees).map fun t =>
    WrittenType.arrays (WrittenType.dimensionCount trees) (WrittenType.ofTree t)

/-- A type parameter from the trees below its node. -/
def typeParam? (trees : List Tree) : Option WrittenTypeParam :=
  (ownWords trees).head?.map fun name =>
    { name, bounds := WrittenType.ofTrees (inside .typeBound trees) }

/-- The type parameters that a header lists. -/
def typeParamsOf (trees : List Tree) : List WrittenTypeParam :=
  (inside .typeParams trees).filterMap fun t =>
    if t.isNode .typeParam then typeParam? t.children else none

/-- The type of a parameter of a method. -/
def parameter? : Tree → Option WrittenType
  | .node .parameter children => dimensionedType? children
  | .node .spreadParameter children =>
    let listed := children.filter fun t =>
      WrittenType.isEntry t && !t.isNode .modifiers && !t.isNode .declarator
    listed.head?.map fun t => .array (WrittenType.ofTree t)
  | _ => none

/-- A method from the trees below its node; `owner` is the kind of class it belongs to. -/
def method? (owner : ClassKind) (trees : List Tree) : Option WrittenMethod := do
  let name ← (ownWords trees).head?
  let modifiers := ownWords (inside .modifiers trees)
  let hasBody := trees.any (·.isNode .block)
  return {
    name
    typeParams := typeParamsOf trees
    params := (inside .parameters trees).filterMap parameter?
    returnType := (dimensionedType? trees).getD (.unknown "")
    isStatic := modifiers.contains "static"
    isPrivate := modifiers.contains "private"
    isAbstract :=
      if owner = .interface || owner = .annotationType then !hasBody
      else modifiers.contains "abstract"
    isDefault := modifiers.contains "default" }

/-- The methods among the trees of a body; those of an enum stand in a part of their own. -/
def methodsOf (owner : ClassKind) (body : List Tree) : List WrittenMethod :=
  let trees := body.flatMap fun t => if t.isNode .enumMembers then t.children else [t]
  trees.filterMap fun t => if t.isNode .method then method? owner t.children else none

/-- The list of interfaces in the header of a declaration of some kind. -/
def clause? (kind : ClassKind) (trees : List Tree) : Option Tree :=
  match kind with
  | .interface => trees.find? (·.isNode .extendsInterfaces)
  | .annotationType => none
  | _ => trees.find? (·.isNode .superInterfaces)

/-- The place for further interfaces: the end of their list, or else of the part of the
header that the list has to follow. -/
def anchorOf (kind : ClassKind) (trees : List Tree) : ClauseAnchor :=
  let isBefore (k : NodeKind) : Option Tree := trees.find? (·.isNode k)
  match clause? kind trees with
  | some clause => ⟨clause.stop?.getD 0, true⟩
  | none =>
    let before :=
      ((isBefore .superclass).or (isBefore .parameters)).or (isBefore .typeParams)
    let name := ((ownTokens trees)[1]?).map Token.stop
    ⟨((before.bind Tree.stop?).or name).getD 0, false⟩

/-- The first type after the word that announces a superclass. -/
def superclassOf (trees : List Tree) : Option WrittenType :=
  (WrittenType.ofTrees (inside .superclass trees)).head?

mutual

/-- The declarations that a tree in a file or in a body stands for. -/
def ofTree : Tree → List Declaration
  | .leaf _ => []
  | .node node children =>
    match kindOf? node with
    | some kind =>
      match (ownTokens children)[1]? with
      | none => []
      | some name =>
        let entries := ((clause? kind children).map Tree.children).getD []
        [{ kind
           name := name.text
           typeParams := typeParamsOf children
           superclass := superclassOf children
           declared := WrittenType.ofTrees (inside .typeList entries)
           added := []
           methods := methodsOf kind (inside .body children)
           members := ofBody children
           anchor := anchorOf kind children }]
    | none => if node = .enumMembers then ofTrees children else []

/-- The declarations among some trees. -/
def ofTrees : List Tree → List Declaration
  | [] => []
  | t :: others => ofTree t ++ ofTrees others

/-- The declarations in the first body among some trees. -/
def ofBody : List Tree → List Declaration
  | [] => []
  | .node .body children :: _ => ofTrees children
  | _ :: others => ofBody others

end

end Declaration

end Conformance.Java
