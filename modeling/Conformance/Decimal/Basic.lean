/-!
# Decimal numbers

A number as a text spells it, before it is rounded to anything.
-/

namespace Conformance

inductive Decimal where
  | infinite (negative : Bool)
  | notANumber
  /-- An integer times a power of ten; zero has a sign too. -/
  | finite (negative : Bool) (digits : Nat) (exponent : Int)
  deriving DecidableEq, Repr, Inhabited

end Conformance
