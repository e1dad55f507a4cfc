import Conformance.Settings.Basic
import Conformance.Text.Alphanumeric

/-!
# Which log messages are kept

A filter is a list of directives. Each one sets the level of a target, of a span, or of
everything, and the more specific one counts. Directives that make no sense are dropped, and
a filter without directives keeps what is important.
-/

namespace Conformance

inductive LogLevel where
  | off
  | error
  | warn
  | info
  | debug
  | trace
  deriving DecidableEq, Repr, Inhabited

namespace LogLevel

def name : LogLevel → String
  | off => "off"
  | error => "error"
  | warn => "warn"
  | info => "info"
  | debug => "debug"
  | trace => "trace"

/-- The levels; the place of a level is also its number. -/
def all : List LogLevel := [off, error, warn, info, debug, trace]

/-- Whether messages of a level are kept if a level is the last that is. -/
def includes (limit level : LogLevel) : Bool := all.idxOf level ≤ all.idxOf limit

/-- A number without a sign, or with a plus. -/
def number? (text : List Char) : Option Nat :=
  let digits :=
    match text with
    | '+' :: digits => digits
    | digits => digits
  if digits.isEmpty || !digits.all Char.isDigit then none
  else some (digits.foldl (fun n c => 10 * n + (c.toNat - '0'.toNat)) 0)

/-- The level that a text names or numbers. -/
def ofText? (text : List Char) : Option LogLevel :=
  ((number? text).bind (all[·]?)).or <|
    all.find? fun level => level.name.toList = text.map Char.toLower

end LogLevel

/-- The level of a target, of a span with certain fields, or of everything. -/
structure LogDirective where
  target : Option (List Char) := none
  span : Option (List Char) := none
  fields : List (List Char) := []
  level : LogLevel := .trace
  deriving DecidableEq, Repr, Inhabited

namespace LogDirective

/-! ## Reading

Where the parts of a directive begin and end is found without the blanks around it; they are
then cut out of the text with those blanks, so that blanks in front shift every part. -/

/-- The piece of a text between two places. -/
def cut (text : List Char) (start stop : Nat) : List Char := (text.drop start).take (stop - start)

/-- Reads what is left at a place after the span of a directive. -/
def afterSpan? (text trimmed : List Char) (directive : LogDirective) (place : Nat) :
    Option LogDirective :=
  match trimmed.drop place with
  | [] => some directive
  | '=' :: _ =>
    match text.drop (place + 1) with
    | [] => some directive
    | level => (LogLevel.ofText? level).map fun level => { directive with level := level }
  | _ => none

/-- Reads the field of a span. -/
def field? (text trimmed : List Char) (directive : LogDirective) (start : Nat) :
    Option LogDirective :=
  let stop := start + ((trimmed.drop start).takeWhile (· ≠ '\x7d')).length
  let name := cut text start stop
  match name, trimmed.drop stop with
  | _ :: _, '\x7d' :: ']' :: _ =>
    afterSpan? text trimmed { directive with fields := [name] } (stop + 2)
  | _, _ => none

/-- Reads the span of a directive. -/
def span? (text trimmed : List Char) (target : Option (List Char)) (start : Nat) :
    Option LogDirective :=
  let stop := start + ((trimmed.drop start).takeWhile fun c => c ≠ ']' && c ≠ '\x7b').length
  let name := cut text start stop
  match trimmed.drop stop with
  | ']' :: _ => afterSpan? text trimmed { target := target, span := some name } (stop + 1)
  | '\x7b' :: _ =>
    let span := if name.isEmpty then none else some name
    field? text trimmed { target := target, span := span } (stop + 1)
  | _ => none

/-- Whether a directive may begin with a character. -/
def isStart (c : Char) : Bool :=
  c = '[' || c = '-' || c = ':' || c = '_' || Text.isAlphanumeric c

/-- A text that is either a level or a target of which everything is kept. -/
def ofWord (text : List Char) : LogDirective :=
  match LogLevel.ofText? text with
  | some level => { level := level }
  | none => { target := some text }

/-- The directive that a text stands for. -/
def ofText? (text : List Char) : Option LogDirective :=
  match Text.trimChars text with
  | [] => none
  | '[' :: rest => span? text ('[' :: rest) none 1
  | c :: rest =>
    let trimmed := c :: rest
    let stop := (trimmed.takeWhile fun c => c ≠ '=' && c ≠ '[').length
    if !isStart c then none
    else
      match trimmed.drop stop with
      | '=' :: _ => afterSpan? text trimmed { target := some (text.take stop) } stop
      | '[' :: _ => span? text trimmed (some (text.take stop)) (stop + 1)
      | _ => some (ofWord text)

/-! ## Order -/

/-- The text before a level that says what the level is for. -/
def scope (directive : LogDirective) : List Char :=
  let fields :=
    match directive.fields with
    | [] => []
    | fields => ['\x7b'] ++ [','].intercalate fields ++ ['\x7d']
  let span :=
    if directive.span.isNone && fields.isEmpty then []
    else ['['] ++ directive.span.getD [] ++ fields ++ [']']
  directive.target.getD [] ++ span

/-- What is compared first to tell which of two directives is more specific: the length of
the target, whether there is a span, and the number of fields. -/
def rank (directive : LogDirective) : List Nat :=
  [ (directive.target.map fun t => (String.ofList t).utf8ByteSize + 1).getD 0,
    (if directive.span.isSome then 1 else 0),
    directive.fields.length ]

/-- What is compared if the ranks are the same. A field with a value comes after one
without. -/
def text (directive : LogDirective) : List (List Char) :=
  [directive.target.getD [], directive.span.getD []]
    ++ directive.fields.map fun field => (if field.contains '=' then '1' else '0') :: field

/-- Whether a directive is more specific than another one. -/
def isBefore (d e : LogDirective) : Bool :=
  e.rank < d.rank || (d.rank = e.rank && decide (e.text < d.text))

/-- Some directives, the most specific one first, with one more. It replaces one that is for
the same. -/
def insert (directive : LogDirective) : List LogDirective → List LogDirective
  | [] => [directive]
  | other :: rest =>
    if other.isBefore directive then other :: insert directive rest
    else if directive.isBefore other then directive :: other :: rest
    else directive :: rest

/-- Whether a directive holds for some spans only. -/
def isDynamic (directive : LogDirective) : Bool :=
  directive.span.isSome || !directive.fields.isEmpty

/-- Whether a directive can be decided without looking at spans and values. -/
def isStatic (directive : LogDirective) : Bool :=
  directive.span.isNone && directive.fields.all fun field => !field.contains '='

def toText (directive : LogDirective) : String :=
  let scope := directive.scope
  let sign := if directive.target.isSome || directive.isDynamic then ['='] else []
  String.ofList (scope ++ sign) ++ directive.level.name

end LogDirective

/-- Directives that can be decided at once, and those that hold for some spans only. Both are
in order, the most specific one first. -/
structure LogFilter where
  statics : List LogDirective
  dynamics : List LogDirective
  deriving DecidableEq, Repr, Inhabited

namespace LogFilter

/-- The filter of some directives, of which later ones win. -/
def ofDirectives (directives : List LogDirective) : LogFilter :=
  let (dynamics, others) := (if directives.isEmpty then [{ level := .info }] else directives).partition
    LogDirective.isDynamic
  let sort (directives : List LogDirective) : List LogDirective :=
    directives.foldl (fun sorted directive => directive.insert sorted) []
  ⟨sort (others ++ dynamics.filter LogDirective.isStatic), sort dynamics⟩

/-- Whether a message of a target is kept, when it is not in a span and has no fields. The
first directive for the target decides. -/
def keeps (filter : LogFilter) (target : String) (level : LogLevel) : Bool :=
  let isFor (directive : LogDirective) : Bool :=
    directive.fields.isEmpty && (directive.target.getD []).isPrefixOf target.toList
  match filter.statics.find? isFor with
  | some directive => directive.level.includes level
  | none => false

/-- The filter that some directives between commas stand for. -/
def ofText (text : String) : LogFilter :=
  let parts := (Text.splitOnChar ',' text.toList).filter (!·.isEmpty)
  ofDirectives (parts.filterMap LogDirective.ofText?)

def toText (filter : LogFilter) : String :=
  ",".intercalate ((filter.statics ++ filter.dynamics).map LogDirective.toText)

end LogFilter

namespace Logging

/-- The level as directives, followed by further ones that may refine it. -/
def directives (logging : Logging) (more? : Option String) : String :=
  let trimmed := Text.trim logging.level
  let level :=
    if trimmed.isEmpty then "info"
    else if trimmed.toLower = "warning" then "warn"
    else if trimmed.toList.any fun c => c = '=' || c = ',' then trimmed
    else trimmed.toLower
  match (more?.map Text.trim).filter (!·.isEmpty) with
  | some more => level ++ "," ++ more
  | none => level

/-- The filter that the settings ask for. -/
def filter (logging : Logging) (more? : Option String) : LogFilter :=
  .ofText (logging.directives more?)

end Logging

end Conformance
