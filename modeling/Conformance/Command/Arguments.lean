import Conformance.Project.Snapshot
import Conformance.Settings.Basic

/-!
# Command lines

A command line names a command, and then says what to work on. Options count more than the
settings of the workspace. The words are read from left to right and the first one that is
wrong counts, so help is given only if nothing before it is wrong.
-/

namespace Conformance

inductive Command where
  /-- Add interfaces to classes. -/
  | run
  /-- List the interfaces that classes are compared with. -/
  | catalog
  deriving DecidableEq, Repr, Inhabited

/-- What to do, and what to work on. -/
structure Arguments where
  command : Command
  workspace : Option String := none
  /-- The settings file to use in place of that of the workspace. -/
  config : Option String := none
  scanDir : Option String := none
  interfacesDir : Option String := none
  packages : List String := []
  classpath : List String := []
  maxPasses : Option Nat := none
  json : Bool := false
  deriving DecidableEq, Repr, Inhabited

/-- What a command line asks for. -/
inductive Request where
  | help
  | version
  | perform (arguments : Arguments)
  deriving DecidableEq, Repr, Inhabited

/-- What is wrong with a command line. -/
inductive UsageFault where
  | noCommand
  | unknownCommand (word : String)
  | unknownOption (word : String)
  | unexpectedWord (word : String)
  | missingValue (name : String)
  | needlessValue (name : String)
  | repeated (name : String)
  | noCount (name word : String)
  deriving DecidableEq, Repr, Inhabited

namespace UsageFault

def message : UsageFault → String
  | noCommand => "error: a command is needed"
  | unknownCommand word => "error: unrecognized command '" ++ word ++ "'"
  | unknownOption word => "error: unexpected option '" ++ word ++ "'"
  | unexpectedWord word => "error: unexpected argument '" ++ word ++ "'"
  | missingValue name => "error: a value is needed for '" ++ name ++ "'"
  | needlessValue name => "error: no value is needed for '" ++ name ++ "'"
  | repeated name => "error: '" ++ name ++ "' cannot be used more than once"
  | noCount name word => "error: '" ++ word ++ "' is no number for '" ++ name ++ "'"

end UsageFault

namespace Arguments

abbrev Read := Except UsageFault

/-! ## Values of options -/

/-- A path, which is not empty. -/
def readPath (name word : String) : Read String :=
  if word.isEmpty then .error (.missingValue name) else .ok word

/-- A number that fits into sixty-four bits. -/
def readCount (name word : String) : Read Nat :=
  let digits :=
    match word.toList with
    | '+' :: digits => digits
    | digits => digits
  let n := digits.foldl (fun n c => 10 * n + (c.toNat - '0'.toNat)) 0
  if digits.isEmpty || !digits.all Char.isDigit || 0x10000000000000000 ≤ n then .error (.noCount name word)
  else .ok n

/-- A value for an option that has none so far. -/
def once {α : Type} (name : String) (found : Option α) (new : Read α) : Read (Option α) := do
  let new ← new
  if found.isSome then .error (.repeated name) else .ok (some new)

/-- The options that take a value, with what the value does. -/
def valueOptions : List (String × (String → Arguments → Read Arguments)) :=
  [ ("config", fun word a => do
      return { a with config := ← once "config" a.config (readPath "config" word) }),
    ("scan-dir", fun word a => do
      return { a with scanDir := ← once "scan-dir" a.scanDir (readPath "scan-dir" word) }),
    ("interfaces-dir", fun word a => do
      let path := readPath "interfaces-dir" word
      return { a with interfacesDir := ← once "interfaces-dir" a.interfacesDir path }),
    ("package", fun word a => .ok { a with packages := a.packages ++ [word] }),
    ("classpath", fun word a => do
      return { a with classpath := a.classpath ++ [← readPath "classpath" word] }),
    ("max-passes", fun word a => do
      return { a with maxPasses := ← once "max-passes" a.maxPasses (readCount "max-passes" word) }) ]

/-! ## Words -/

/-- What a word of a command line may be. -/
inductive Word where
  | plain (word : String)
  /-- Every word after this one is plain. -/
  | dashes
  /-- A long option, with the value that is attached to it. -/
  | long (name : String) (value : Option String)
  /-- Short options, each of one letter. -/
  | short (letters : List Char)
  deriving DecidableEq, Repr, Inhabited

def Word.ofText (word : String) : Word :=
  match word.toList with
  | ['-', '-'] => .dashes
  | '-' :: '-' :: rest =>
    let name := rest.takeWhile (· ≠ '=')
    let value :=
      match rest.dropWhile (· ≠ '=') with
      | [] => none
      | _ :: value => some (String.ofList value)
    .long (String.ofList name) value
  | '-' :: c :: rest => .short (c :: rest)
  | _ => .plain word

/-- The only word that is not part of an option is the path of the workspace. -/
def addPlain (word : String) (a : Arguments) : Read Arguments := do
  if a.workspace.isSome then .error (.unexpectedWord word)
  else return { a with workspace := some (← readPath "path" word) }

def addJson (a : Arguments) : Read Arguments :=
  if a.json then .error (.repeated "json") else .ok { a with json := true }

/-- Reads the words after a command. -/
def readWords : List String → Arguments → Read Request
  | [], a => .ok (.perform a)
  | word :: rest, a =>
    match Word.ofText word with
    | .plain _ => do readWords rest (← addPlain word a)
    | .dashes => do return .perform (← rest.foldlM (fun a word => addPlain word a) a)
    | .short letters => if letters.head? = some 'h' then .ok .help else .error (.unknownOption word)
    | .long name value =>
      match valueOptions.lookup name, value with
      | some set, some value => do readWords rest (← set value a)
      | some set, none =>
        match rest with
        | [] => .error (.missingValue name)
        | next :: rest =>
          match Word.ofText next with
          | .plain value => do readWords rest (← set value a)
          | _ => .error (.missingValue name)
      | none, none =>
        if name = "json" then do readWords rest (← addJson a)
        else if name = "help" then .ok .help
        else .error (.unknownOption word)
      | none, some _ =>
        if name = "json" || name = "help" then .error (.needlessValue name)
        else .error (.unknownOption word)

end Arguments

namespace Request

def commandOf? : String → Option Command
  | "run" => some .run
  | "catalog" => some .catalog
  | _ => none

/-- Reads the words after a request for help. -/
def readHelp : List String → Arguments.Read Request
  | [] => .ok .help
  | [word] =>
    if (commandOf? word).isSome || word = "help" then .ok .help else .error (.unknownCommand word)
  | word :: next :: _ =>
    if (commandOf? word).isSome || word = "help" then .error (.unknownCommand next)
    else .error (.unknownCommand word)

/-- Reads a command line. -/
def ofWords : List String → Arguments.Read Request
  | [] => .error .noCommand
  | word :: rest =>
    match Arguments.Word.ofText word with
    | .plain "help" => readHelp rest
    | .plain name =>
      match commandOf? name with
      | some command => Arguments.readWords rest { command := command }
      | none => .error (.unknownCommand name)
    | .dashes =>
      match rest with
      | [] => .error .noCommand
      | next :: _ => .error (.unexpectedWord next)
    | .long "help" none | .short ('h' :: _) => .ok .help
    | .long "version" none | .short ('V' :: _) => .ok .version
    | .long "help" _ | .long "version" _ => .error (.needlessValue word)
    | _ => .error (.unknownOption word)

end Request

namespace Arguments

/-- The workspace; without one, the place where the program runs. -/
def root (a : Arguments) : String := a.workspace.getD "."

/-- What to work on. -/
def options (a : Arguments) (settings : Settings) : Options where
  scanDir := (a.scanDir.or settings.scanDir).getD a.root
  interfacesDir := a.interfacesDir.or settings.interfacesDir
  packages :=
    if a.packages.isEmpty then settings.packageFilter else Settings.splitPackages a.packages
  classpath :=
    (if a.classpath.isEmpty then settings.classpath else a.classpath).map ClasspathEntry.ofPath
  maxPasses := a.maxPasses.or settings.maxPasses

end Arguments

end Conformance
