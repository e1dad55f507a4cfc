import Conformance.Decimal.Shortest
import Conformance.Toml.Basic

/-!
# Strings, numbers and dates in TOML

Every reader takes its value off the front of a text and returns what follows. It does not
look at what follows, so whether the value ends there is left to whoever reads on.
-/

namespace Conformance.Toml

/-! ## Pieces -/

/-- The blanks inside a line. -/
def isBlank (c : Char) : Bool := c = ' ' || c = '\t'

def skipBlanks (text : List Char) : List Char := text.dropWhile isBlank

/-- What follows the end of a line. -/
def afterNewline? : List Char → Option (List Char)
  | '\n' :: rest | '\r' :: '\n' :: rest => some rest
  | _ => none

/-- Whether a character may stand in a comment, and in a string unless it means something
there. -/
def isPlain (c : Char) : Bool := c = '\t' || (0x20 ≤ c.toNat && c.toNat ≠ 0x7F)

/-- What follows a comment, if there is one. -/
def skipComment : List Char → List Char
  | '#' :: rest => rest.dropWhile isPlain
  | text => text

def isHexDigit (c : Char) : Bool := c.isDigit || ('a' ≤ c && c ≤ 'f') || ('A' ≤ c && c ≤ 'F')

/-- The value of a digit in bases up to sixteen. -/
def digitValue (c : Char) : Nat :=
  if c.isDigit then c.toNat - '0'.toNat else c.toLower.toNat - 'a'.toNat + 10

/-- The number that some digits spell. -/
def numberOf (base : Nat) (digits : List Char) : Nat :=
  digits.foldl (fun n c => base * n + digitValue c) 0

/-! ## Strings -/

/-- The character that some hexadecimal digits number, if all are digits and it is one. -/
def numbered? (digits : List Char) : Option Char :=
  let n := numberOf 16 digits
  if digits.all isHexDigit && (n < 0xD800 || (0xDFFF < n && n < 0x110000)) then some (Char.ofNat n)
  else none

/-- The character that an escape sequence stands for, read after its backslash. -/
def escape? : List Char → Option (Char × List Char)
  | 'b' :: rest => some ('\x08', rest)
  | 't' :: rest => some ('\t', rest)
  | 'n' :: rest => some ('\n', rest)
  | 'f' :: rest => some ('\x0c', rest)
  | 'r' :: rest => some ('\r', rest)
  | '"' :: rest => some ('"', rest)
  | '\\' :: rest => some ('\\', rest)
  | 'u' :: rest =>
    if 4 ≤ rest.length then (numbered? (rest.take 4)).map ((·, rest.drop 4)) else none
  | 'U' :: rest =>
    if 8 ≤ rest.length then (numbered? (rest.take 8)).map ((·, rest.drop 8)) else none
  | _ => none

/-- The rest of a string with escape sequences; `fuel` bounds its length. -/
def basic? : Nat → List Char → Option (List Char × List Char)
  | 0, _ => none
  | fuel + 1, text =>
    match text with
    | [] => none
    | '"' :: rest => some ([], rest)
    | '\\' :: rest => do
      let (c, rest) ← escape? rest
      let (others, rest) ← basic? fuel rest
      return (c :: others, rest)
    | c :: rest =>
      if isPlain c then (basic? fuel rest).map fun (others, rest) => (c :: others, rest) else none

/-- The rest of a string without escape sequences. -/
def literal? : List Char → Option (List Char × List Char)
  | [] => none
  | '\'' :: rest => some ([], rest)
  | c :: rest =>
    if isPlain c then (literal? rest).map fun (others, rest) => (c :: others, rest) else none

/-- What follows an ending of a string of several lines: up to two more quotes that belong to
the string, and the text after the three that close it. -/
def closing? (quote : Char) (text : List Char) : Option (List Char × List Char) :=
  let count := (text.takeWhile (· = quote)).length
  if count < 3 then none
  else
    let inside := min (count - 3) 2
    some (List.replicate inside quote, text.drop (inside + 3))

/-- What follows the blanks and line ends after a backslash at the end of a line. -/
def afterLineJoin? (text : List Char) : Option (List Char) :=
  match afterNewline? (skipBlanks text) with
  | none => none
  | some rest => some (go rest.length rest)
where
  go : Nat → List Char → List Char
    | 0, text => text
    | fuel + 1, text =>
      match afterNewline? (skipBlanks text) with
      | some rest => go fuel rest
      | none => skipBlanks text

/-- The rest of a string of several lines; `escapes` says whether backslashes mean something,
`fuel` bounds its length. -/
def multiline? (quote : Char) (escapes : Bool) : Nat → List Char → Option (List Char × List Char)
  | 0, _ => none
  | fuel + 1, text =>
    match closing? quote text with
    | some found => some found
    | none =>
      match afterNewline? text with
      | some rest => (multiline? quote escapes fuel rest).map fun (others, rest) => ('\n' :: others, rest)
      | none =>
        match text with
        | [] => none
        | c :: rest =>
          if escapes && c = '\\' then
            match afterLineJoin? rest with
            | some rest => multiline? quote escapes fuel rest
            | none => do
              let (c, rest) ← escape? rest
              let (others, rest) ← multiline? quote escapes fuel rest
              return (c :: others, rest)
          else if isPlain c then
            (multiline? quote escapes fuel rest).map fun (others, rest) => (c :: others, rest)
          else none

/-- A text without a line end at its front. -/
def skipNewline (text : List Char) : List Char := (afterNewline? text).getD text

/-- A string in any of its four forms. -/
def string? (text : List Char) : Option (String × List Char) :=
  let found :=
    match text with
    | '"' :: '"' :: '"' :: rest => multiline? '"' true (rest.length + 1) (skipNewline rest)
    | '\'' :: '\'' :: '\'' :: rest => multiline? '\'' false (rest.length + 1) (skipNewline rest)
    | '"' :: rest => basic? (rest.length + 1) rest
    | '\'' :: rest => literal? rest
    | _ => none
  found.map fun (chars, rest) => (String.ofList chars, rest)

/-! ## Numbers -/

/-- Digits that may be separated by underscores, which neither begin nor end them. -/
def digits? (isDigit : Char → Bool) : List Char → Option (List Char × List Char)
  | [] => none
  | [c] => if isDigit c then some ([c], []) else none
  | c :: d :: rest =>
    if !isDigit c then none
    else if d = '_' then (digits? isDigit rest).map fun (others, rest) => (c :: others, rest)
    else if isDigit d then
      (digits? isDigit (d :: rest)).map fun (others, rest) => (c :: others, rest)
    else some ([c], d :: rest)

/-- Whether a number is negative, and what follows its sign. -/
def sign : List Char → Bool × List Char
  | '-' :: rest => (true, rest)
  | '+' :: rest => (false, rest)
  | rest => (false, rest)

/-- The digits of a number that begins with zero only if it is zero. -/
def wholeDigits? : List Char → Option (List Char × List Char)
  | '0' :: rest => some (['0'], rest)
  | text => digits? Char.isDigit text

/-- Integers have to fit into sixty-four bits. -/
def fits (n : Int) : Bool := -0x8000000000000000 ≤ n && n < 0x8000000000000000

/-- An integer in a base that a letter after a zero announces. -/
def based? (base : Nat) (isDigit : Char → Bool) (text : List Char) : Option (Int × List Char) := do
  let (digits, rest) ← digits? isDigit text
  let n : Int := numberOf base digits
  if fits n then some (n, rest) else none

/-- An integer. -/
def integer? : List Char → Option (Int × List Char)
  | '0' :: 'x' :: rest => based? 16 isHexDigit rest
  | '0' :: 'o' :: rest => based? 8 (fun c => '0' ≤ c && c ≤ '7') rest
  | '0' :: 'b' :: rest => based? 2 (fun c => c = '0' || c = '1') rest
  | text => do
    let (negative, rest) := sign text
    let (digits, rest) ← wholeDigits? rest
    let n : Int := if negative then -(numberOf 10 digits : Int) else numberOf 10 digits
    if fits n then some (n, rest) else none

/-- The exponent of a number. -/
def exponent? : List Char → Option (Int × List Char)
  | c :: rest =>
    if c = 'e' || c = 'E' then do
      let (negative, rest) := sign rest
      let (digits, rest) ← digits? Char.isDigit rest
      let n : Int := numberOf 10 digits
      return (if negative then -n else n, rest)
    else none
  | [] => none

/-- Whether a number is not too large for a floating point number. Only numbers above zero
are refused if they are. -/
def isBounded : Decimal → Bool
  | .finite false digits exponent => (Decimal.binary? digits exponent).isSome
  | _ => true

/-- A number with a fraction or an exponent, however large it is. -/
def unbounded? (text : List Char) : Option (Decimal × List Char) := do
  let (negative, rest) := sign text
  let (whole, rest) ← wholeDigits? rest
  match rest with
  | '.' :: rest =>
    let (fraction, rest) ← digits? Char.isDigit rest
    let (exponent, rest) := (exponent? rest).getD (0, rest)
    return (.finite negative (numberOf 10 (whole ++ fraction)) (exponent - fraction.length), rest)
  | _ =>
    let (exponent, rest) ← exponent? rest
    return (.finite negative (numberOf 10 whole) exponent, rest)

/-- A number with a fraction or an exponent. -/
def fractional? (text : List Char) : Option (Decimal × List Char) :=
  (unbounded? text).filter fun (x, _) => isBounded x

/-- A number that is written as a word. -/
def named? (text : List Char) : Option (Decimal × List Char) :=
  let (negative, rest) := sign text
  match rest with
  | 'i' :: 'n' :: 'f' :: rest => some (.infinite negative, rest)
  | 'n' :: 'a' :: 'n' :: rest => some (.notANumber, rest)
  | _ => none

/-! ## Dates and times -/

/-- A number of exactly so many digits, within bounds. -/
def fixed? (count low high : Nat) (text : List Char) : Option (Nat × List Char) :=
  let digits := text.take count
  let n := numberOf 10 digits
  if digits.length = count && digits.all Char.isDigit && low ≤ n && n ≤ high then
    some (n, text.drop count)
  else none

/-- What follows a character that has to come next. -/
def after? (c : Char) : List Char → Option (List Char)
  | d :: rest => if c = d then some rest else none
  | [] => none

def isLeapYear (year : Nat) : Bool := year % 4 = 0 && (year % 100 ≠ 0 || year % 400 = 0)

def daysIn (year month : Nat) : Nat :=
  if month = 2 then (if isLeapYear year then 29 else 28)
  else if month = 4 || month = 6 || month = 9 || month = 11 then 30
  else 31

/-- What follows a date. -/
def afterDate? (text : List Char) : Option (List Char) := do
  let (year, rest) ← fixed? 4 0 9999 text
  let (month, rest) ← fixed? 2 1 12 (← after? '-' rest)
  let (_, rest) ← fixed? 2 1 (daysIn year month) (← after? '-' rest)
  return rest

/-- What follows a time of day. -/
def afterTime? (text : List Char) : Option (List Char) := do
  let (_, rest) ← fixed? 2 0 23 text
  let (_, rest) ← fixed? 2 0 59 (← after? ':' rest)
  let (_, rest) ← fixed? 2 0 60 (← after? ':' rest)
  match rest with
  | '.' :: fraction =>
    let after := fraction.dropWhile Char.isDigit
    if after.length < fraction.length then return after else return rest
  | _ => return rest

/-- What follows the distance of a time from universal time. -/
def afterOffset? : List Char → Option (List Char)
  | 'Z' :: rest | 'z' :: rest => some rest
  | c :: rest =>
    if c = '+' || c = '-' then do
      let (_, rest) ← fixed? 2 0 23 rest
      let (_, rest) ← fixed? 2 0 59 (← after? ':' rest)
      return rest
    else none
  | [] => none

/-- What follows the time that may come after a date. -/
def afterDateTime? : List Char → Option (List Char)
  | c :: rest =>
    if c = 'T' || c = 't' || c = ' ' then
      (afterTime? rest).map fun rest => (afterOffset? rest).getD rest
    else none
  | [] => none

/-- A date, a time, or both. -/
def datetime? (text : List Char) : Option (String × List Char) :=
  let after :=
    match afterDate? text with
    | some rest => some ((afterDateTime? rest).getD rest)
    | none => afterTime? text
  after.map fun rest => (String.ofList (text.take (text.length - rest.length)), rest)

/-! ## All of them -/

/-- A value that holds no other values. -/
def scalar? (text : List Char) : Option (Toml × List Char) :=
  match text with
  | '"' :: _ | '\'' :: _ => (string? text).map fun (s, rest) => (.str s, rest)
  | 't' :: 'r' :: 'u' :: 'e' :: rest => some (.bool true, rest)
  | 'f' :: 'a' :: 'l' :: 's' :: 'e' :: rest => some (.bool false, rest)
  | _ =>
    ((datetime? text).map fun (s, rest) => (Toml.datetime s, rest)).or <|
    ((fractional? text).map fun (x, rest) => (Toml.float x, rest)).or <|
    ((named? text).map fun (x, rest) => (Toml.float x, rest)).or <|
    (integer? text).map fun (n, rest) => (.int n, rest)

end Conformance.Toml
