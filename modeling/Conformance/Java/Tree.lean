import Conformance.Java.Token

/-!
# Trees of tokens, and the rules that build them

A source file is read into a tree whose leaves are its tokens, comments included. The
grammar is data: a `Rule` says which tokens may come next and which of them form a node.
Alternatives are tried in order and the first one that matches is taken, so a rule matches
in at most one way.

A comment belongs to the innermost node that has tokens on both sides of it. Comments are
picked up together with the token that follows them, and those at the front of a node are
handed on to the node around it.
-/

namespace Conformance.Java

/-- The nodes that mean something once a file has been read. -/
inductive NodeKind where
  | packageDecl | importDecl | qualifiedName | asterisk
  | classDecl | interfaceDecl | enumDecl | recordDecl | annotationDecl
  | modifiers | annotationUse | typeParams | typeParam | typeBound
  | superclass | superInterfaces | extendsInterfaces | typeList | permits
  | body | enumMembers | block | method | parameters | parameter | spreadParameter | declarator
  | dimensions | voidType | primitiveType | classType | arrayType | annotatedType
  | typeArguments | wildcard | receiver | throwsClause
  /-- A statement, a field or another part that declares no type and no method. -/
  | code
  deriving DecidableEq, Repr, Inhabited

inductive Tree where
  | leaf (token : Token)
  | node (kind : NodeKind) (children : List Tree)
  deriving Repr, Inhabited

namespace Tree

mutual

/-- The tokens at the leaves, from left to right. -/
def tokens : Tree → List Token
  | leaf token => [token]
  | node _ children => tokensOf children

def tokensOf : List Tree → List Token
  | [] => []
  | child :: others => child.tokens ++ tokensOf others

end

def isComment : Tree → Bool
  | leaf token => token.isComment
  | node _ _ => false

def isNode (kind : NodeKind) : Tree → Bool
  | leaf _ => false
  | node k _ => k = kind

/-- Whether the tree is a leaf with a given word. -/
def isWord (word : String) : Tree → Bool
  | leaf token => token.isWord word
  | node _ _ => false

/-- Whether the tree is a leaf with a given symbol. -/
def isSymbol (symbol : String) : Tree → Bool
  | leaf token => token.isSymbol symbol
  | node _ _ => false

/-- The trees directly below the root. -/
def children : Tree → List Tree
  | leaf _ => []
  | node _ children => children

/-- The first child that is a node of a given kind. -/
def child? (kind : NodeKind) (t : Tree) : Option Tree := t.children.find? (·.isNode kind)

/-- Where the tree begins in the source. -/
def start? (t : Tree) : Option Nat := t.tokens.head?.map (·.start)

/-- Where the tree ends in the source. -/
def stop? (t : Tree) : Option Nat := t.tokens.getLast?.map (·.stop)

end Tree

/-- What a single token has to be. -/
inductive TokenTest where
  /-- A name: any word but those listed. -/
  | name (except : List String)
  | word (text : String)
  | symbol (text : String)
  | kind (k : TokenKind)
  deriving Repr, Inhabited

def TokenTest.accepts (t : Token) : TokenTest → Bool
  | name except => t.kind = .word && !except.contains t.text
  | word text => t.isWord text
  | symbol text => t.isSymbol text
  | kind k => t.kind = k

/-- What may come next, when `S` are the names of rules. -/
inductive Rule (S : Type) where
  | one (test : TokenTest)
  | seq (rules : List (Rule S))
  | choice (rules : List (Rule S))
  /-- A rule as often as it matches. -/
  | many (rule : Rule S)
  /-- Takes nothing, where the rule does not match. -/
  | absent (rule : Rule S)
  /-- Takes nothing, where the next token follows the last one without a gap. -/
  | joined
  /-- Takes nothing, where the last token may end something that can be assigned to. -/
  | assignable
  | call (symbol : S)
  | node (kind : NodeKind) (rule : Rule S)
  /-- A rule, and another one after it if that matches; the two then form a node. -/
  | extended (kind : NodeKind) (rule extension : Rule S)

namespace Rule

variable {S : Type}

/-- A rule that may be left out. -/
def optional (rule : Rule S) : Rule S := choice [rule, seq []]

/-- A rule one or more times. -/
def atLeastOnce (rule : Rule S) : Rule S := seq [rule, many rule]

/-- A rule one or more times, with a separator between. -/
def separated (separator rule : Rule S) : Rule S := seq [rule, many (seq [separator, rule])]

end Rule

/-- A place in the list of tokens: the last token taken and those that follow. -/
structure Place where
  last : Option Token
  rest : List Token
  deriving Repr, Inhabited

namespace Place

/-- Takes the next token that is no comment if it passes a test, with the comments before
it. -/
def take? (place : Place) (test : TokenTest) : Option (List Tree × Place) :=
  match place.rest.dropWhile Token.isComment with
  | [] => none
  | t :: rest =>
    if test.accepts t then
      some ((place.rest.takeWhile Token.isComment).map .leaf ++ [.leaf t], ⟨t, rest⟩)
    else none

/-- Whether the next token follows the last one without a gap. -/
def isJoined (place : Place) : Bool :=
  match place.last, place.rest with
  | some last, next :: _ => last.stop = next.start
  | _, _ => false

/-- Words that stand for a value that cannot be assigned to. -/
def fixedWords : List String := ["true", "false", "null", "this", "super", "class"]

/-- Whether the last token may end a variable, a field or an element of an array. -/
def isAssignable (place : Place) : Bool :=
  match place.last with
  | some last => (last.kind = .word && !fixedWords.contains last.text) || last.isSymbol "]"
  | none => false

end Place

/-- A node over some trees; comments at the front stay outside it. -/
def gather (kind : NodeKind) (trees : List Tree) : List Tree :=
  trees.takeWhile Tree.isComment ++ [.node kind (trees.dropWhile Tree.isComment)]

/-- What a rule takes at a place: the trees it builds, and the place after them. `rules` says
what the names of rules stand for, and `fuel` bounds how deep rules may nest. -/
def matchRule {S : Type} (rules : S → Rule S) :
    Nat → Rule S → Place → Option (List Tree × Place)
  | 0, _, _ => none
  | fuel + 1, rule, place =>
    match rule with
    | .one test => place.take? test
    | .seq [] => some ([], place)
    | .seq (first :: others) => do
      let (trees, place) ← matchRule rules fuel first place
      let (more, place) ← matchRule rules fuel (.seq others) place
      return (trees ++ more, place)
    | .choice [] => none
    | .choice (first :: others) =>
      match matchRule rules fuel first place with
      | some found => some found
      | none => matchRule rules fuel (.choice others) place
    | .many inner =>
      match matchRule rules fuel inner place with
      | none => some ([], place)
      | some (trees, next) => do
        let (more, next) ← matchRule rules fuel (.many inner) next
        return (trees ++ more, next)
    | .absent inner => if (matchRule rules fuel inner place).isSome then none else some ([], place)
    | .joined => if place.isJoined then some ([], place) else none
    | .assignable => if place.isAssignable then some ([], place) else none
    | .call symbol => matchRule rules fuel (rules symbol) place
    | .node kind inner =>
      (matchRule rules fuel inner place).map fun (trees, place) => (gather kind trees, place)
    | .extended kind inner extension => do
      let (trees, place) ← matchRule rules fuel inner place
      match matchRule rules fuel extension place with
      | some (more, next) => return (gather kind (trees ++ more), next)
      | none => return (trees, place)

end Conformance.Java
