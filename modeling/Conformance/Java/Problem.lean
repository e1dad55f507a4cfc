/-!
# Syntax problems

What a reader of source texts reports about one that it cannot read.
-/

namespace Conformance.Java

/-- A place in a source text and what is wrong there; lines and columns count from one. -/
structure Problem where
  line : Nat
  column : Nat
  message : String
  deriving DecidableEq, Repr

/-- A problem as one line of a report. -/
def Problem.text (p : Problem) : String := s!"{p.line}:{p.column}: " ++ p.message

end Conformance.Java
