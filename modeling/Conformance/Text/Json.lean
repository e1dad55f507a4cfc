/-!
# JSON values and their two layouts

Values with objects as lists of members, so that members are written in the order in which
they are given. `compact` writes a value without any blanks; `pretty` puts every member on a
line of its own, two blanks further in for each level.
-/

namespace Conformance

inductive Json where
  | null
  | bool (b : Bool)
  | num (n : Nat)
  | str (s : String)
  | arr (items : List Json)
  | obj (members : List (String × Json))
  deriving Repr, Inhabited

namespace Json

/-- A hexadecimal digit. -/
def hexDigit (n : Nat) : Char := (Nat.toDigits 16 (n % 16)).headD '0'

/-- How a character is written inside a string: quotes, backslashes and control characters
are escaped, everything else stands for itself. -/
def escapeChar (c : Char) : List Char :=
  match c with
  | '"' => ['\\', '"']
  | '\\' => ['\\', '\\']
  | '\n' => ['\\', 'n']
  | '\r' => ['\\', 'r']
  | '\t' => ['\\', 't']
  | '\x08' => ['\\', 'b']
  | '\x0c' => ['\\', 'f']
  | c =>
    if c.toNat < 0x20 then
      ['\\', 'u', '0', '0', hexDigit (c.toNat / 16), hexDigit c.toNat]
    else [c]

/-- A string with its quotes. -/
def quote (s : String) : String := "\"" ++ String.ofList (s.toList.flatMap escapeChar) ++ "\""

/-- A string, or null if there is none. -/
def ofOption (s : Option String) : Json := s.elim null str

mutual

def compact : Json → String
  | null => "null"
  | bool b => if b then "true" else "false"
  | num n => toString n
  | str s => quote s
  | arr items => "[" ++ ",".intercalate (compactItems items) ++ "]"
  | obj members => "\x7b" ++ ",".intercalate (compactMembers members) ++ "\x7d"

def compactItems : List Json → List String
  | [] => []
  | item :: items => item.compact :: compactItems items

def compactMembers : List (String × Json) → List String
  | [] => []
  | (key, value) :: members => (quote key ++ ":" ++ value.compact) :: compactMembers members

end

/-- Lines between brackets, one level further in than the brackets; without lines the
brackets stand together. -/
def block (indent : String) (opening closing : String) (lines : List String) : String :=
  if lines.isEmpty then opening ++ closing
  else
    let inner := "\n" ++ indent ++ "  "
    opening ++ inner ++ ("," ++ inner).intercalate lines ++ "\n" ++ indent ++ closing

mutual

/-- The layout with one member a line, when the value begins at a given indentation. -/
def prettyAt (indent : String) : Json → String
  | arr items => block indent "[" "]" (prettyItems (indent ++ "  ") items)
  | obj members => block indent "\x7b" "\x7d" (prettyMembers (indent ++ "  ") members)
  | null => "null"
  | bool b => if b then "true" else "false"
  | num n => toString n
  | str s => quote s

def prettyItems (indent : String) : List Json → List String
  | [] => []
  | item :: items => item.prettyAt indent :: prettyItems indent items

def prettyMembers (indent : String) : List (String × Json) → List String
  | [] => []
  | (key, value) :: members =>
    (quote key ++ ": " ++ value.prettyAt indent) :: prettyMembers indent members

end

def pretty (value : Json) : String := value.prettyAt ""

end Json

end Conformance
