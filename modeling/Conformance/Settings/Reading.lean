import Conformance.Decimal.Shortest
import Conformance.Settings.Basic
import Conformance.Text.Quoted
import Conformance.Toml.Document

/-!
# Reading settings

A settings file is a TOML document with one table for each group of settings. An array may
stand for a table; its items are then the fields of the group in order. Fields are read in
the order of the document, and the first fault counts.
-/

namespace Conformance

/-- Why settings cannot be read. -/
inductive SettingsFault where
  | unreadable (path : String)
  | notToml
  | unknownField (name : String) (fields : List String)
  | wrongType (found : Toml) (expected : String)
  | wrongValue (found : Int) (expected : String)
  | noPasses
  deriving Repr, Inhabited

namespace SettingsFault

/-- The names of which one was expected. -/
def choice (names : List String) : String :=
  match names.map fun name => "`" ++ name ++ "`" with
  | [] => ""
  | [name] => name
  | [first, second] => first ++ " or " ++ second
  | names => "one of " ++ ", ".intercalate names

/-- What kind of value was found. -/
def kind : Toml → String
  | .str s => "string " ++ Text.quote s
  | .int n => "integer `" ++ toString n ++ "`"
  | .float x => "floating point `" ++ x.text ++ "`"
  | .bool b => "boolean `" ++ (if b then "true" else "false") ++ "`"
  | .datetime _ | .table _ => "map"
  | .array _ => "sequence"

def message : SettingsFault → String
  | unreadable path => "failed to read config file " ++ path
  | notToml => "failed to parse toml config"
  | unknownField name fields =>
    "failed to parse toml config: unknown field `" ++ name ++ "`, expected " ++ choice fields
  | wrongType found expected =>
    "failed to parse toml config: invalid type: " ++ kind found ++ ", expected " ++ expected
  | wrongValue found expected =>
    "failed to parse toml config: invalid value: integer `" ++ toString found
      ++ "`, expected " ++ expected
  | noPasses => "invalid config: engine.max_passes must be at least 1"

end SettingsFault

namespace Settings

abbrev Read := Except SettingsFault

/-! ## Values -/

def readText (expected : String) : Toml → Read String
  | .str s => .ok s
  | found => .error (.wrongType found expected)

def readPath : Toml → Read String := readText "path string"

def readFlag : Toml → Read Bool
  | .bool b => .ok b
  | found => .error (.wrongType found "a boolean")

def readCount : Toml → Read Nat
  | .int n => if n < 0 then .error (.wrongValue n "usize") else .ok n.toNat
  | found => .error (.wrongType found "usize")

def readList (read : Toml → Read String) : Toml → Read (List String)
  | .array items => items.mapM read
  | found => .error (.wrongType found "a sequence")

/-! ## Groups -/

/-- A field with what its value does to the settings. -/
structure Field where
  name : String
  read : Settings → Toml → Read Settings

/-- Reads a field that a name stands for. -/
def readField (fields : List Field) (settings : Settings) (name : String) (v : Toml) :
    Read Settings :=
  match fields.find? (·.name = name) with
  | some field => field.read settings v
  | none => .error (.unknownField name (fields.map (·.name)))

/-- The name under which a date is found where a table is expected. -/
def datetimeField : String := "$__toml_private_datetime"

/-- Reads a group of settings, which faults call by a given name. -/
def readGroup (title : String) (fields : List Field) (settings : Settings) : Toml → Read Settings
  | .table entries => entries.foldlM (fun settings (name, v) => readField fields settings name v) settings
  | .array items => (fields.zip items).foldlM (fun settings (field, v) => field.read settings v) settings
  | .datetime text => readField fields settings datetimeField (.str text)
  | found => .error (.wrongType found title)

def interfaceFields : List Field :=
  [ ⟨"packages", fun settings v => do
      return { settings with packages := ← readList (readText "a string") v }⟩,
    ⟨"source_dir", fun settings v => do
      return { settings with interfacesDir := some (← readPath v) }⟩ ]

def scanFields : List Field :=
  [⟨"dir", fun settings v => do return { settings with scanDir := some (← readPath v) }⟩]

def classpathFields : List Field :=
  [⟨"entries", fun settings v => do
      return { settings with classpath := ← readList readPath v }⟩]

def engineFields : List Field :=
  [⟨"max_passes", fun settings v => do
      return { settings with maxPasses := some (← readCount v) }⟩]

def loggingFields : List Field :=
  [ ⟨"level", fun settings v => do
      return { settings with logging.level := ← readText "a string" v }⟩,
    ⟨"json", fun settings v => do return { settings with logging.json := ← readFlag v }⟩,
    ⟨"stderr", fun settings v => do return { settings with logging.stderr := ← readFlag v }⟩,
    ⟨"file", fun settings v => do
      return { settings with logging.file := some (← readPath v) }⟩ ]

/-- The groups of settings. -/
def groups : List Field :=
  [ ⟨"interfaces", readGroup "struct InterfacesConfig" interfaceFields⟩,
    ⟨"scan", readGroup "struct ScanConfig" scanFields⟩,
    ⟨"classpath", readGroup "struct ClasspathConfig" classpathFields⟩,
    ⟨"engine", readGroup "struct EngineConfig" engineFields⟩,
    ⟨"logging", readGroup "struct LoggingConfig" loggingFields⟩ ]

/-! ## Documents -/

/-- The settings that a text states. -/
def parse (text : String) : Read Settings := do
  match Toml.parse? text with
  | none => .error .notToml
  | some entries =>
    let settings ← entries.foldlM (fun settings (name, v) => readField groups settings name v) {}
    if settings.maxPasses = some 0 then .error .noPasses else .ok settings

end Settings

end Conformance
