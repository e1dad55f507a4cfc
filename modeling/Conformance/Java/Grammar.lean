import Conformance.Java.Tree

/-!
# The grammar of Java

The rules for declarations, types, statements and expressions. Names of types, modifiers and
the lists of supertypes become nodes, because they are looked at later; inside a body only
the declarations do, and statements and expressions are checked for their form alone.

Keywords are reserved only where they could come next, so a rule for a name lists the words
that are not names at that place. Operators all bind alike here: how an expression groups
makes no difference to whether it is one.
-/

namespace Conformance.Java

namespace Grammar

/-- The names of the rules that rules refer to. -/
inductive Symbol where
  | file | statement | block | member | interfaceMember | annotationMember
  | classBody | qualifiedName | annotationUse | elementValue | modifiers
  | classDecl | interfaceDecl | enumDecl | recordDecl | annotationDecl | methodDecl
  | type | plainType | simpleType | typeArguments | typeParams | dimensions | parameters
  | expression | lambda | ternary | binary | operand | chain | primary | suffix | creation
  | argumentList | arrayInitializer | declarators | switchExpression | recordPattern | tryStatement
  | forHeader
  deriving DecidableEq, Repr

open Rule

abbrev Form := Rule Symbol

/-- A word that has to come next. -/
def word (text : String) : Form := one (.word text)

/-- A symbol that has to come next. -/
def sym (text : String) : Form := one (.symbol text)

/-- A name that is none of the given words. -/
def nameBut (except : List String) : Form := one (.name except)

/-- A name where no word is reserved. -/
def anyName : Form := nameBut []

/-- One of some words. -/
def oneWord (words : List String) : Form := choice (words.map word)

/-- One of some symbols. -/
def oneSym (symbols : List String) : Form := choice (symbols.map sym)

/-- A rule one or more times, with commas between. -/
def commas (rule : Form) : Form := separated (sym ",") rule

/-- A list in commas that may be empty. -/
def commasOrNone (rule : Form) : Form := optional (commas rule)

def primitiveWords : List String :=
  ["byte", "short", "int", "long", "char", "float", "double", "boolean"]

def modifierWords : List String :=
  ["public", "protected", "private", "abstract", "static", "final", "strictfp", "default",
    "synchronized", "native", "transient", "volatile", "sealed", "non-sealed"]

/-- The words that begin the declaration of a type. -/
def declarationWords : List String := ["class", "interface", "enum", "record"]

/-- The words that begin a statement other than a declaration or an expression. -/
def statementWords : List String :=
  ["assert", "break", "case", "catch", "continue", "default", "do", "else", "finally", "for", "if",
    "import", "package", "return", "switch", "synchronized", "throw", "try", "while", "yield"]

/-- The words that are no names inside an expression. -/
def expressionWords : List String :=
  ["new", "this", "super", "true", "false", "null", "switch", "instanceof", "void"]
    ++ primitiveWords

/-- Takes nothing, where none of some words comes next. -/
def without (words : List String) : Form := absent (oneWord words)

/-- A variable: its name and its dimensions. -/
def variableName : Form := seq [nameBut ["this"], optional (call .dimensions)]

/-! ## Names, annotations and modifiers -/

def qualifiedName : Form :=
  node .qualifiedName (separated (sym ".") (nameBut ["static"]))

def elementValuePair : Form := seq [anyName, sym "=", call .elementValue]

def annotationUse : Form :=
  node .annotationUse (seq [
    sym "@", separated (sym ".") anyName,
    optional (seq [
      sym "(",
      choice [seq [commasOrNone elementValuePair, sym ")"], seq [call .elementValue, sym ")"]]])])

def elementValue : Form :=
  choice [
    seq [sym "\x7b", commasOrNone (call .elementValue), optional (sym ","), sym "\x7d"],
    call .annotationUse,
    call .expression]

def modifierList : Form :=
  optional (node .modifiers (atLeastOnce (choice [call .annotationUse, oneWord modifierWords])))

/-! ## Types -/

/-- A class type: names with dots between, any of them with type arguments. -/
def classType : Form :=
  node .classType (seq [
    nameBut ("void" :: primitiveWords), optional (call .typeArguments),
    many (seq [
      sym ".", many (call .annotationUse), nameBut ["class", "this", "super", "new"],
      optional (call .typeArguments)])])

def simpleType : Form :=
  choice [node .voidType (word "void"), node .primitiveType (oneWord primitiveWords), classType]

def dimensions : Form :=
  node .dimensions (atLeastOnce (seq [many (call .annotationUse), sym "[", sym "]"]))

/-- A type without annotations in front. -/
def plainType : Form := extended .arrayType (call .simpleType) (call .dimensions)

def type : Form :=
  choice [
    node .annotatedType (seq [atLeastOnce (call .annotationUse), call .plainType]),
    call .plainType]

def wildcard : Form :=
  node .wildcard (seq [
    many (call .annotationUse), sym "?",
    optional (seq [oneWord ["extends", "super"], call .type])])

def typeArguments : Form :=
  node .typeArguments (seq [
    sym "<", commasOrNone (choice [wildcard, call .type]), sym ">"])

def typeParam : Form :=
  node .typeParam (seq [
    many (call .annotationUse), anyName,
    optional (node .typeBound (seq [word "extends", separated (sym "&") (call .type)]))])

def typeParams : Form := node .typeParams (seq [sym "<", commas typeParam, sym ">"])

def typeList : Form := node .typeList (commas (call .type))

/-! ## Declarations -/

def superclass : Form := node .superclass (seq [word "extends", call .type])

def superInterfaces : Form := node .superInterfaces (seq [word "implements", typeList])

def extendsInterfaces : Form := node .extendsInterfaces (seq [word "extends", typeList])

def permits : Form := node .permits (seq [word "permits", typeList])

def receiver : Form :=
  node .receiver (seq [
    many (call .annotationUse), call .plainType, many (seq [nameBut ["this"], sym "."]), word "this"])

def parameter : Form :=
  choice [
    node .parameter (seq [modifierList, call .plainType, variableName]),
    node .spreadParameter (seq [
      modifierList, call .plainType, sym "...",
      node .declarator (seq [variableName, optional (seq [sym "=", call .expression])])])]

def parameters : Form :=
  node .parameters (seq [
    sym "(",
    choice [
      seq [receiver, many (seq [sym ",", parameter]), sym ")"],
      seq [commasOrNone parameter, sym ")"]]])

def throwsClause : Form := node .throwsClause (seq [word "throws", commas (call .type)])

/-- The words that are no types at the beginning of a member. -/
def memberWords : List String := declarationWords ++ modifierWords

def classDecl : Form :=
  node .classDecl (seq [
    modifierList, word "class", anyName, optional (call .typeParams), optional superclass,
    optional superInterfaces, optional permits, call .classBody])

def interfaceDecl : Form :=
  node .interfaceDecl (seq [
    modifierList, word "interface", anyName, optional (call .typeParams),
    optional extendsInterfaces, optional permits,
    node .body (seq [sym "\x7b", many (call .interfaceMember), sym "\x7d"])])

def enumConstant : Form :=
  node .code (seq [
    modifierList, anyName, optional (call .argumentList), optional (call .classBody)])

def enumDecl : Form :=
  node .enumDecl (seq [
    modifierList, word "enum", anyName, optional superInterfaces,
    node .body (seq [
      sym "\x7b", commasOrNone enumConstant, optional (sym ","),
      optional (node .enumMembers (seq [sym ";", many (call .member)])), sym "\x7d"])])

def recordDecl : Form :=
  node .recordDecl (seq [
    modifierList, word "record", anyName, optional (call .typeParams), call .parameters,
    optional superInterfaces, call .classBody])

def annotationDecl : Form :=
  node .annotationDecl (seq [
    modifierList, sym "@interface", anyName,
    node .body (seq [sym "\x7b", many (call .annotationMember), sym "\x7d"])])

def methodDecl : Form :=
  node .method (seq [
    modifierList, optional (seq [call .typeParams, many (call .annotationUse)]),
    without memberWords, call .plainType, nameBut [], call .parameters,
    optional (call .dimensions), optional throwsClause, choice [call .block, sym ";"]])

def fieldDecl : Form :=
  node .code (seq [
    modifierList, without memberWords, call .plainType, call .declarators, sym ";"])

/-- A call of another constructor, which may open the body of a constructor. -/
def constructorCall : Form :=
  seq [
    choice [
      seq [optional (call .typeArguments), oneWord ["this", "super"]],
      seq [
        separated (sym ".") (nameBut expressionWords), sym ".", optional (call .typeArguments),
        word "super"]],
    call .argumentList, sym ";"]

/-- The words that are no names of constructors. -/
def constructorWords : List String := memberWords ++ "void" :: primitiveWords

def constructorDecl : Form :=
  seq [
    modifierList, optional (call .typeParams), nameBut constructorWords, call .parameters,
    optional throwsClause,
    node .block (seq [
      sym "\x7b", optional constructorCall, many (call .statement), sym "\x7d"])]

/-- A constructor of a record that leaves the parameters out. -/
def compactConstructor : Form := seq [modifierList, nameBut constructorWords, call .block]

/-- The declarations of types that may be members. -/
def typeDecls : List Form :=
  [call .classDecl, call .interfaceDecl, call .enumDecl, call .recordDecl, call .annotationDecl]

def member : Form :=
  choice (sym ";" :: typeDecls ++ [
    seq [word "static", call .block], call .block, constructorDecl, compactConstructor,
    call .methodDecl, fieldDecl])

def interfaceMember : Form := choice (sym ";" :: typeDecls ++ [call .methodDecl, fieldDecl])

def annotationElement : Form :=
  node .code (seq [
    modifierList, without memberWords, call .plainType, anyName, sym "(", sym ")",
    optional (call .dimensions), optional (seq [word "default", call .elementValue]), sym ";"])

def annotationMember : Form :=
  choice [
    sym ";", call .classDecl, call .interfaceDecl, call .enumDecl, call .annotationDecl,
    annotationElement, fieldDecl]

def classBody : Form := node .body (seq [sym "\x7b", many (call .member), sym "\x7d"])

def declarators : Form :=
  commas (seq [
    variableName,
    optional (seq [sym "=", choice [call .arrayInitializer, call .expression]])])

def packageDecl : Form :=
  node .packageDecl (seq [many (call .annotationUse), word "package", call .qualifiedName, sym ";"])

def importDecl : Form :=
  node .importDecl (seq [
    word "import", optional (word "static"), call .qualifiedName,
    optional (seq [sym ".", node .asterisk (sym "*")]), sym ";"])

def moduleDirective : Form :=
  let names : Form := commas (call .qualifiedName)
  seq [
    choice [
      seq [
        word "requires", many (oneWord ["transitive", "static"]), call .qualifiedName],
      seq [
        oneWord ["exports", "opens"], call .qualifiedName, optional (seq [word "to", names])],
      seq [word "uses", call .qualifiedName],
      seq [word "provides", call .qualifiedName, word "with", names]],
    sym ";"]

def moduleDecl : Form :=
  seq [
    many (call .annotationUse), optional (word "open"), word "module", call .qualifiedName,
    sym "\x7b", many moduleDirective, sym "\x7d"]

/-! ## Statements -/

def condition : Form := seq [sym "(", call .expression, sym ")"]

/-- A declaration of variables in a block. A name before `instanceof` is an operand and no
type. -/
def localDecl : Form :=
  seq [
    modifierList, without (statementWords ++ declarationWords), without expressionOpeners,
    absent (seq [separated (sym ".") anyName, word "instanceof"]),
    call .plainType, call .declarators, sym ";"]
where
  /-- The words that begin an expression or the declaration of a module, and no type. -/
  expressionOpeners : List String :=
    ["new", "this", "super", "true", "false", "null", "switch", "module", "open", "with"]

def expressionStatement : Form :=
  seq [without (statementWords ++ ["class", "interface", "enum"]), call .expression, sym ";"]

def forHeader : Form :=
  choice [
    seq [modifierList, call .plainType, variableName, sym ":", call .expression],
    seq [
      choice [localDecl, seq [commasOrNone (call .expression), sym ";"]],
      optional (call .expression), sym ";", commasOrNone (call .expression)]]

def catchClause : Form :=
  seq [
    word "catch", sym "(", modifierList, separated (sym "|") (call .plainType), variableName,
    sym ")", call .block]

def resource : Form :=
  choice [
    seq [modifierList, call .plainType, variableName, sym "=", call .expression],
    call .chain]

def tryStatement : Form :=
  let finallyClause : Form := seq [word "finally", call .block]
  seq [
    word "try",
    choice [
      seq [
        sym "(", separated (sym ";") resource, optional (sym ";"), sym ")", call .block,
        many catchClause, optional finallyClause],
      seq [
        call .block,
        choice [seq [atLeastOnce catchClause, optional finallyClause], finallyClause]]]]

/-- The statements that declare nothing. -/
def plainStatement : Form :=
  choice [
    seq [
      word "if", condition, call .statement, optional (seq [word "else", call .statement])],
    seq [word "while", condition, call .statement],
    seq [word "for", sym "(", call .forHeader, sym ")", call .statement],
    seq [word "do", call .statement, word "while", condition, sym ";"],
    call .tryStatement,
    call .switchExpression,
    seq [word "return", optional (call .expression), sym ";"],
    seq [word "throw", call .expression, sym ";"],
    seq [oneWord ["break", "continue"], optional anyName, sym ";"],
    seq [word "yield", call .expression, sym ";"],
    seq [word "assert", call .expression, optional (seq [sym ":", call .expression]), sym ";"],
    seq [word "synchronized", condition, call .block],
    seq [nameBut statementWords, sym ":", call .statement],
    localDecl,
    expressionStatement]

def statement : Form :=
  choice ([sym ";", call .block, packageDecl, importDecl, node .code moduleDecl] ++ typeDecls
    ++ [node .code plainStatement])

def block : Form := node .block (seq [sym "\x7b", many (call .statement), sym "\x7d"])

/-- Files may have statements and methods beside their declarations. -/
def file : Form := many (choice [call .methodDecl, call .statement])

/-! ## Expressions -/

def lambda : Form :=
  seq [
    choice [
      nameBut expressionWords,
      seq [sym "(", commas (nameBut expressionWords), sym ")"],
      call .parameters],
    sym "->", choice [call .block, call .expression]]

def ternary : Form :=
  seq [
    call .binary,
    optional (seq [sym "?", call .expression, sym ":", call .expression])]

/-- An operator that starts with closing angle brackets, whose parts touch. -/
def angleOperator : Form :=
  seq [
    sym ">", optional (seq [joined, sym ">", optional (seq [joined, sym ">"])]),
    optional (seq [joined, sym "="])]

def assignmentOperator : Form :=
  choice [
    oneSym ["=", "+=", "-=", "*=", "/=", "&=", "|=", "^=", "%=", "<<="],
    seq [
      sym ">", joined, sym ">", optional (seq [joined, sym ">"]), joined, sym "="]]

def binaryOperator : Form :=
  choice [
    oneSym ["&&", "||", "==", "!=", "<=", "<<", "+", "-", "*", "/", "&", "|", "^", "%", "<"],
    angleOperator]

def recordPattern : Form :=
  seq [
    classType, sym "(",
    commasOrNone (choice [call .recordPattern, seq [call .plainType, anyName]]), sym ")"]

/-- An operator with what stands to its right. -/
def tail : Form :=
  choice [
    seq [
      word "instanceof", optional (word "final"),
      choice [call .recordPattern, seq [call .type, optional (nameBut ["instanceof", "when"])]]],
    seq [assignable, assignmentOperator, call .expression],
    seq [absent assignmentOperator, binaryOperator, call .operand]]

def binary : Form := seq [call .operand, many tail]

def cast : Form :=
  seq [
    sym "(", separated (sym "&") (call .type), sym ")", choice [call .lambda, call .operand]]

def operand : Form :=
  choice [
    seq [oneSym ["+", "-", "!", "~", "++", "--"], call .operand], cast, call .chain]

def chain : Form :=
  seq [call .primary, many (call .suffix), many (oneSym ["++", "--"])]

def argumentList : Form := seq [sym "(", commasOrNone (call .expression), sym ")"]

def methodReference : Form :=
  seq [sym "::", optional (call .typeArguments), anyName]

def literal : Form :=
  choice [
    one (.kind .number), one (.kind .string), one (.kind .character),
    oneWord ["true", "false", "null"]]

def primary : Form :=
  choice [
    literal,
    seq [call .plainType, choice [seq [sym ".", word "class"], methodReference]],
    condition,
    seq [word "new", call .creation],
    call .switchExpression,
    word "this",
    seq [word "super", absent (absent (oneSym [".", "::"]))],
    seq [nameBut expressionWords, optional (call .argumentList)]]

def suffix : Form :=
  choice [
    seq [sym ".", word "new", call .creation],
    seq [sym ".", word "super", absent (absent (oneSym [".", "::"]))],
    seq [sym ".", one (.kind .string)],
    seq [sym ".", word "this"],
    seq [sym ".", optional (call .typeArguments), anyName, optional (call .argumentList)],
    seq [sym "[", call .expression, sym "]"],
    methodReference]

/-- What follows `new`. -/
def creation : Form :=
  seq [
    many (call .annotationUse), optional (seq [call .typeArguments, many (call .annotationUse)]),
    call .simpleType,
    choice [
      seq [call .argumentList, optional (call .classBody)],
      seq [
        atLeastOnce (seq [many (call .annotationUse), sym "[", call .expression, sym "]"]),
        optional (call .dimensions)],
      seq [call .dimensions, call .arrayInitializer]]]

def arrayInitializer : Form :=
  seq [
    sym "\x7b", commasOrNone (choice [call .arrayInitializer, call .expression]),
    optional (sym ","), sym "\x7d"]

/-- A label of a switch; what it tests for cannot be a lambda, whose arrow it would take. -/
def switchLabel : Form :=
  choice [
    word "default",
    seq [
      word "case",
      choice [
        seq [choice [call .recordPattern, seq [call .plainType, nameBut ["when"]]], guard],
        seq [commas (call .ternary), guard]]]]
where
  guard : Form := optional (seq [word "when", call .ternary])

def switchExpression : Form :=
  let rule : Form :=
    seq [
      switchLabel, sym "->",
      choice [
        call .block, seq [word "throw", call .expression, sym ";"],
        seq [call .expression, sym ";"]]]
  let group : Form :=
    seq [atLeastOnce (seq [switchLabel, sym ":"]), many (call .statement)]
  seq [
    word "switch", condition, sym "\x7b",
    choice [seq [many rule, sym "\x7d"], seq [many group, sym "\x7d"]]]

/-- What the names of the rules stand for. -/
def rules : Symbol → Form
  | .file => file
  | .statement => statement
  | .block => block
  | .member => member
  | .interfaceMember => interfaceMember
  | .annotationMember => annotationMember
  | .classBody => classBody
  | .qualifiedName => qualifiedName
  | .annotationUse => annotationUse
  | .elementValue => elementValue
  | .modifiers => modifierList
  | .classDecl => classDecl
  | .interfaceDecl => interfaceDecl
  | .enumDecl => enumDecl
  | .recordDecl => recordDecl
  | .annotationDecl => annotationDecl
  | .methodDecl => methodDecl
  | .type => type
  | .plainType => plainType
  | .simpleType => simpleType
  | .typeArguments => typeArguments
  | .typeParams => typeParams
  | .dimensions => dimensions
  | .parameters => parameters
  | .expression => choice [call .lambda, call .ternary]
  | .lambda => lambda
  | .ternary => ternary
  | .binary => binary
  | .operand => operand
  | .chain => chain
  | .primary => primary
  | .suffix => suffix
  | .creation => creation
  | .argumentList => argumentList
  | .arrayInitializer => arrayInitializer
  | .declarators => declarators
  | .switchExpression => switchExpression
  | .recordPattern => recordPattern
  | .tryStatement => tryStatement
  | .forHeader => forHeader

end Grammar

/-- How deep rules nest at most for each token. -/
def nestingPerToken : Nat := 400

/-- The trees of a whole file, if its tokens follow the grammar. -/
def treesOf? (tokens : List Token) : Option (List Tree) :=
  let depth := nestingPerToken * (tokens.length + 1)
  match matchRule Grammar.rules depth (.call .file) ⟨none, tokens⟩ with
  | some (trees, place) =>
    if place.rest.all Token.isComment then some (trees ++ place.rest.map .leaf) else none
  | none => none

end Conformance.Java
