import Conformance.Text.Edit
import Conformance.Text.Letter

/-!
# Tokens of a source file

A source file is read as a list of tokens, each with its place in the text. Every token is
as long as it can be, with one exception: a closing angle bracket is always a token of its
own, because two of them in a row may close two lists of type arguments. Comments are
tokens; blanks are not.

Each kind of token has a function that takes it off the front of a text and returns what
follows, so the token itself is what the two texts differ by.
-/

namespace Conformance.Java

inductive TokenKind where
  | word | number | string | character | symbol | comment
  deriving DecidableEq, Repr, Inhabited

/-- A token and the bytes of the source that it takes up. -/
structure Token where
  kind : TokenKind
  text : String
  start : Nat
  stop : Nat
  deriving DecidableEq, Repr, Inhabited

namespace Token

def isComment (t : Token) : Bool := t.kind = .comment

/-- Whether the token is a given symbol. -/
def isSymbol (symbol : String) (t : Token) : Bool := t.kind = .symbol && t.text = symbol

/-- Whether the token is a given word. -/
def isWord (word : String) (t : Token) : Bool := t.kind = .word && t.text = word

end Token

/-! ## What follows a token -/

/-- The blanks that separate tokens. -/
def isSeparator (c : Char) : Bool := c = ' ' || c = '\t' || c = '\r' || c = '\n'

/-- Whether a name may begin with the character. -/
def isNameStart (c : Char) : Bool := c = '_' || c = '$' || Text.isLetter c

/-- Whether a name may go on with the character. -/
def isNamePart (c : Char) : Bool := isNameStart c || Text.isDecimalDigit c

/-- What follows a text that has to come next. -/
def afterText? (text rest : List Char) : Option (List Char) :=
  match text, rest with
  | [], rest => some rest
  | _ :: _, [] => none
  | c :: text, d :: rest => if c = d then afterText? text rest else none

/-- What follows the first occurrence of a text. -/
def afterFirst? (text : List Char) : List Char → Option (List Char)
  | [] => if text.isEmpty then some [] else none
  | c :: rest =>
    match afterText? text (c :: rest) with
    | some after => some after
    | none => afterFirst? text rest

/-- What follows a character out of a set, if one comes next. -/
def afterOneOf (set : List Char) : List Char → List Char
  | [] => []
  | c :: rest => if set.contains c then rest else c :: rest

/-! ### Numbers -/

/-- What follows digits of a base, which may be separated by underscores but neither begin
nor end with one. -/
def afterDigits? (isDigit : Char → Bool) : List Char → Option (List Char)
  | [] => none
  | c :: rest =>
    if isDigit c then
      match afterDigits? isDigit (rest.dropWhile (· = '_')) with
      | some after => some after
      | none => some rest
    else none
termination_by text => text.length
decreasing_by
  have := (List.dropWhile_sublist (fun x : Char => x = '_') (l := rest)).length_le
  simp only [List.length_cons]
  omega

def isBinaryDigit (c : Char) : Bool := c = '0' || c = '1'
def isOctalDigit (c : Char) : Bool := '0' ≤ c && c ≤ '7'
def isHexDigit (c : Char) : Bool := c.isDigit || ('a' ≤ c && c ≤ 'f') || ('A' ≤ c && c ≤ 'F')

/-- What follows digits that may be left out. -/
def afterOptionalDigits (isDigit : Char → Bool) (text : List Char) : List Char :=
  (afterDigits? isDigit text).getD text

/-- What follows an exponent with one of the given letters, if one comes next. -/
def afterExponent? (letters : List Char) : List Char → Option (List Char)
  | c :: rest =>
    if letters.contains c then afterDigits? Char.isDigit (afterOneOf ['+', '-'] rest) else none
  | [] => none

def integerSuffix : List Char := ['l', 'L']
def floatSuffix : List Char := ['f', 'F', 'd', 'D']

/-- What follows the digits of a number in a base that a letter after the zero announces. -/
def afterBased? (isDigit : Char → Bool) (text : List Char) : Option (List Char) :=
  (afterDigits? isDigit text).map (afterOneOf integerSuffix)

/-- What follows a number in base sixteen, with or without a fraction. -/
def afterHex? (text : List Char) : Option (List Char) :=
  let exponent (rest : List Char) : List Char :=
    match afterExponent? ['e', 'E', 'p', 'P'] rest with
    | some after => afterOneOf floatSuffix after
    | none => rest
  match afterDigits? isHexDigit text with
  | some ('.' :: rest) => some (exponent (afterOptionalDigits isHexDigit rest))
  | some rest =>
    match afterExponent? ['e', 'E', 'p', 'P'] rest with
    | some after => some (afterOneOf floatSuffix after)
    | none => some (afterOneOf integerSuffix rest)
  | none =>
    match text with
    | '.' :: rest => (afterDigits? isHexDigit rest).map exponent
    | _ => none

/-- What follows a decimal number, with or without a fraction. -/
def afterDecimal? (text : List Char) : Option (List Char) :=
  let fraction (rest : List Char) : List Char :=
    afterOneOf floatSuffix ((afterExponent? ['e', 'E'] rest).getD rest)
  match afterDigits? Char.isDigit text with
  | some ('.' :: rest) => some (fraction (afterOptionalDigits Char.isDigit rest))
  | some rest =>
    match afterExponent? ['e', 'E', 'p', 'P'] rest with
    | some after => some (afterOneOf floatSuffix after)
    | none => some (afterOneOf (integerSuffix ++ floatSuffix) rest)
  | none =>
    match text with
    | '.' :: rest => (afterDigits? Char.isDigit rest).map fraction
    | _ => none

/-- What follows a number. -/
def afterNumber? : List Char → Option (List Char)
  | '0' :: c :: rest =>
    let based :=
      match c with
      | 'x' | 'X' => afterHex? rest
      | 'b' | 'B' => afterBased? isBinaryDigit rest
      | 'o' | 'O' => afterBased? isOctalDigit rest
      | _ => none
    based.orElse fun _ => afterDecimal? ('0' :: c :: rest)
  | text => afterDecimal? text

/-! ### Texts in quotes -/

/-- What follows the part of an escape sequence that comes after the backslash. -/
def afterEscape? : List Char → Option (List Char)
  | 'x' :: a :: b :: rest => if isHexDigit a && isHexDigit b then some rest else none
  | 'u' :: '{' :: rest =>
    match rest.dropWhile isHexDigit with
    | '}' :: after => if rest.head?.any isHexDigit then some after else none
    | _ => none
  | 'u' :: a :: b :: c :: d :: rest =>
    if [a, b, c, d].all isHexDigit then some rest else none
  | 'x' :: _ | 'u' :: _ | [] => none
  | _ :: rest => some rest

/-- What follows the rest of a string up to the closing text; `fuel` bounds the number of
characters and escape sequences. -/
def afterStringBody? (closing : List Char) : Nat → List Char → Option (List Char)
  | 0, _ => none
  | fuel + 1, text =>
    match afterText? closing text with
    | some rest => some rest
    | none =>
      match text with
      | [] => none
      | '\\' :: rest => (afterEscape? rest).bind (afterStringBody? closing fuel)
      | _ :: rest => afterStringBody? closing fuel rest

/-- What follows the rest of a character literal, which stays on its line. -/
def afterCharacterBody? : List Char → Option (List Char)
  | '\'' :: rest => some rest
  | '\\' :: _ :: rest => afterCharacterBody? rest
  | '\n' :: _ | [] | ['\\'] => none
  | _ :: rest => afterCharacterBody? rest

/-- What follows a character literal with at least one character in it. -/
def afterCharacter? : List Char → Option (List Char)
  | '\'' :: _ => none
  | rest => afterCharacterBody? rest

/-! ### Symbols -/

/-- The symbols of more than one character, the longer ones first. -/
def longSymbols : List String :=
  ["<<=", "...", "->", "::", "++", "--", "&&", "||", "==", "!=", "<=", "+=", "-=", "*=", "/=",
    "&=", "|=", "^=", "%=", "<<"]

/-- The symbols of one character. -/
def shortSymbols : List Char := "(){}[];,.<>=+-*/&|^%!~?:@".toList

/-- What follows a symbol. -/
def afterSymbol? (text : List Char) : Option (List Char) :=
  match longSymbols.findSome? fun symbol => afterText? symbol.toList text with
  | some rest => some rest
  | none =>
    match text with
    | c :: rest => if shortSymbols.contains c then some rest else none
    | [] => none

/-! ## Tokens -/

/-- The kind of the token at the front of a text, and what follows it. -/
def afterToken? : List Char → Option (TokenKind × List Char)
  | '/' :: '/' :: rest => some (.comment, rest.dropWhile (· ≠ '\n'))
  | '/' :: '*' :: rest => (afterFirst? ['*', '/'] rest).map ((.comment, ·))
  | '"' :: '"' :: '"' :: rest =>
    (afterStringBody? ['"', '"', '"'] (rest.length + 1) rest).map ((.string, ·))
  | '"' :: rest => (afterStringBody? ['"'] (rest.length + 1) rest).map ((.string, ·))
  | '\'' :: rest => (afterCharacter? rest).map ((.character, ·))
  | '@' :: rest =>
    match afterText? "interface".toList rest with
    | some after => some (.symbol, if after.head?.any isNamePart then rest else after)
    | none => some (.symbol, rest)
  | text =>
    match afterNumber? text with
    | some rest => some (.number, rest)
    | none =>
      if text.head?.any isNameStart then
        let rest := text.dropWhile isNamePart
        match afterText? "non-sealed".toList text with
        | some after => some (.word, if after.head?.any isNamePart then rest else after)
        | none => some (.word, rest)
      else (afterSymbol? text).map ((.symbol, ·))

/-- The tokens of a text that begins at a given offset; `fuel` bounds their number. -/
def tokensFrom? : Nat → Nat → List Char → Option (List Token)
  | fuel, start, text =>
    match text with
    | [] => some []
    | c :: _ =>
      match fuel with
      | 0 => none
      | fuel + 1 =>
        if isSeparator c then tokensFrom? fuel (start + c.utf8Size) text.tail
        else do
          let (kind, rest) ← afterToken? text
          let lexeme := text.take (text.length - rest.length)
          let stop := start + Text.byteSize lexeme
          let others ← tokensFrom? fuel stop rest
          return { kind, text := String.ofList lexeme, start, stop } :: others

/-- The tokens of a source file. A byte order mark at the beginning is passed over. -/
def tokens? (text : List Char) : Option (List Token) :=
  match text with
  | '\ufeff' :: rest => tokensFrom? rest.length ('\ufeff'.utf8Size) rest
  | _ => tokensFrom? text.length 0 text

end Conformance.Java
