/-!
# Diagnostics

What a run tells about a project while it works, beside its result.
-/

namespace Conformance

inductive Severity where
  | info | warning | error
  deriving DecidableEq, Repr, Inhabited

/-- The word for a severity. -/
def Severity.label : Severity → String
  | info => "info"
  | warning => "warning"
  | error => "error"

structure Diagnostic where
  severity : Severity
  code : String
  message : String
  path : Option String
  deriving DecidableEq, Repr, Inhabited

end Conformance
