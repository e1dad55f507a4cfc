import Conformance.Decimal.Basic

/-!
# TOML values

What a TOML document says, with the entries of a table in the order in which they were
first defined.
-/

namespace Conformance

inductive Toml where
  | str (s : String)
  | int (n : Int)
  | float (x : Decimal)
  | bool (b : Bool)
  /-- A date, a time, or both, as it is written. -/
  | datetime (text : String)
  | array (items : List Toml)
  | table (entries : List (String × Toml))
  deriving Repr, Inhabited

end Conformance
