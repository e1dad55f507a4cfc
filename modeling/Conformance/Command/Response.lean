import Conformance.Command.Arguments
import Conformance.Report.Catalog
import Conformance.Report.Log
import Conformance.Report.Run
import Conformance.Settings.Locate

/-!
# Responses to command lines

What the program writes, and the disk that it leaves behind. A run may end with a fault after
some of its passes have written files, so a response with a complaint may still change the
disk.
-/

namespace Conformance

/-- The text with a line end after every line. -/
def unlines (lines : List String) : String := String.join (lines.map (· ++ "\n"))

structure Response where
  disk : Disk
  output : String := ""
  /-- Why there is no answer. -/
  complaint : Option String := none
  diagnostics : List Diagnostic := []
  logging : Logging := {}
  deriving Inhabited

namespace Response

/-- The exit code: zero if there is an answer, and two if not. -/
def exitCode (r : Response) : Nat := if r.complaint.isSome then 2 else 0

/-- What is written to the log. -/
def log (r : Response) : String := unlines (r.logging.lines r.diagnostics)

end Response

def usage : String :=
  unlines
    [ "Declare interfaces on Java classes that already implement them structurally",
      "",
      "Usage: interfacer <run|catalog> [OPTIONS] [PATH]",
      "",
      "Commands:",
      "  run      Add interfaces until a pass changes nothing, rewriting sources in place",
      "  catalog  Print the interface catalog without modifying anything",
      "",
      "Arguments:",
      "  [PATH]  Workspace whose settings are used [default: .]",
      "",
      "Options:",
      "      --config <PATH>          Settings file to use instead",
      "      --scan-dir <PATH>        Folder with the classes (defaults to the workspace)",
      "      --interfaces-dir <PATH>  Folder with sources of interfaces",
      "      --package <PKG>          Packages of classpath interfaces (repeatable)",
      "      --classpath <ENTRY>      Folder or archive with class files (repeatable)",
      "      --max-passes <N>         Fail if more passes than this are needed",
      "      --json                   Write JSON",
      "  -h, --help                   Print help",
      "  -V, --version                Print version" ]

def versionLine : String := "interfacer 0.1.0\n"

namespace Arguments

/-- The paths where the settings that a command line asks for may be. -/
def settingsPaths (a : Arguments) (named : Option String) : List String :=
  match a.config with
  | some path => [path]
  | none => Disk.settingsPaths named a.root

/-- The settings that a command line asks for, or why there are none. -/
def settings (a : Arguments) (named : Option String) (disk : Disk) : Except String Settings :=
  match a.config with
  | some path =>
    (disk.settingsAt path).mapError fun fault => "loading " ++ path ++ ": " ++ fault.message
  | none =>
    match disk.settings named a.root with
    | .ok (settings, _) => .ok settings
    | .error fault => .error fault.message

/-- A value as JSON, or as lines of text. -/
def written (a : Arguments) (json : Json) (lines : List String) : String :=
  if a.json then json.pretty ++ "\n" else unlines lines

/-- What comes of a run. -/
def respondRun (a : Arguments) (options : Options) (disk : Disk) : Response :=
  let outcome := options.run disk
  match outcome.result with
  | .ok report =>
    { disk := outcome.disk, diagnostics := outcome.diagnostics
      output := a.written report.toJson report.lines }
  | .error fault =>
    { disk := outcome.disk, diagnostics := outcome.diagnostics, complaint := some fault.message }

/-- What comes of listing the catalog. -/
def respondCatalog (a : Arguments) (options : Options) (disk : Disk) : Response :=
  let (diagnostics, result) := options.catalog disk
  match result with
  | .ok catalog =>
    { disk := disk, diagnostics := diagnostics
      output := a.written catalog.toJson catalog.lines }
  | .error fault => { disk := disk, diagnostics := diagnostics, complaint := some fault.message }

/-- What comes of a command. -/
def respond (a : Arguments) (named : Option String) (disk : Disk) : Response :=
  match a.settings named disk with
  | .error complaint => { disk := disk, complaint := some complaint }
  | .ok settings =>
    let options := a.options settings
    let response :=
      match a.command with
      | .run => a.respondRun options disk
      | .catalog => a.respondCatalog options disk
    { response with logging := settings.logging }

end Arguments

/-- What the program does with a request, when the environment may name a settings file. -/
def Request.respond (named : Option String) (disk : Disk) : Request → Response
  | help => { disk := disk, output := usage }
  | version => { disk := disk, output := versionLine }
  | perform arguments => arguments.respond named disk

/-- What the program does with a command line. -/
def respond (words : List String) (named : Option String) (disk : Disk) : Response :=
  match Request.ofWords words with
  | .ok request => request.respond named disk
  | .error fault => { disk := disk, complaint := some fault.message }

end Conformance
