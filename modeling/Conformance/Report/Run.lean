import Conformance.Project.Run
import Conformance.Text.Json

/-!
# Reports of runs

What a run did, for readers and for machines. Readers see every pass with the interfaces that
it added; machines also get the counts of each pass.
-/

namespace Conformance

def Addition.toJson (a : Addition) : Json :=
  .obj [("pass", .num a.pass), ("interface", .str a.interface), ("class", .str a.className),
    ("path", .str a.path), ("type_arguments", .arr (a.arguments.map fun t => .str t.text)),
    ("clause", .str a.clause.text)]

def PassSummary.toJson (p : PassSummary) : Json :=
  .obj [("pass", .num p.pass), ("classes", .num p.classes), ("interfaces", .num p.interfaces),
    ("modifications", .num p.additions), ("files_written", .num p.filesWritten)]

namespace RunReport

def toJson (r : RunReport) : Json :=
  .obj [("passes", .arr (r.passes.map PassSummary.toJson)),
    ("modifications", .arr (r.additions.map Addition.toJson)),
    ("parse_failures", .num r.parseFailures)]

/-- The lines about a pass. -/
def passLines (r : RunReport) (p : PassSummary) : List String :=
  s!"pass {p.pass}: {p.additions} modification(s)"
    :: (r.additions.filter (·.pass = p.pass)).map fun a =>
      s!"  {a.className} implements {a.clause.text} ({a.path})"

def lines (r : RunReport) : List String :=
  r.passes.flatMap r.passLines
    ++ [s!"converged after {r.passes.length} pass(es), {r.additions.length} interface(s) added"]
    ++ (if r.parseFailures = 0 then [] else [s!"skipped {r.parseFailures} unparseable file(s)"])

end RunReport

end Conformance
