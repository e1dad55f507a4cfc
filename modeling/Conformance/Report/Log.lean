import Conformance.Project.Diagnostic
import Conformance.Settings.LogFilter
import Conformance.Text.Json

/-!
# Diagnostics in the log

Each diagnostic that the settings keep is a line of the log, as text or as JSON.
-/

namespace Conformance

/-- The level at which a diagnostic of a given severity is logged. -/
def Severity.level : Severity → LogLevel
  | info => .info
  | warning => .warn
  | error => .error

namespace Diagnostic

/-- The target of diagnostics in directives. -/
def target : String := "interfacer.diagnostics"

def toJson (d : Diagnostic) : Json :=
  .obj [("level", .str d.severity.level.name), ("target", .str target), ("code", .str d.code),
    ("path", .ofOption d.path), ("message", .str d.message)]

def line (d : Diagnostic) : String := s!"{d.severity.level.name} {target}: {d.message}"

end Diagnostic

/-- The lines that some diagnostics are in the log. -/
def Logging.lines (logging : Logging) (diagnostics : List Diagnostic) : List String :=
  let kept := diagnostics.filter fun d =>
    (logging.filter none).keeps Diagnostic.target d.severity.level
  kept.map fun d => if logging.json then d.toJson.compact else d.line

end Conformance
