/-!
# Blank space at the ends of a text

Which characters count as blank is the property `White_Space` of Unicode.
-/

namespace Conformance.Text

/-- The characters with the property `White_Space`. -/
def isBlank (c : Char) : Bool :=
  let n := c.toNat
  (0x09 ≤ n && n ≤ 0x0D) || n = 0x20 || n = 0x85 || n = 0xA0 || n = 0x1680
    || (0x2000 ≤ n && n ≤ 0x200A) || n = 0x2028 || n = 0x2029 || n = 0x202F || n = 0x205F
    || n = 0x3000

/-- A list without the elements at its end that satisfy a test. -/
def dropEndWhile {α : Type} (p : α → Bool) (l : List α) : List α := (l.reverse.dropWhile p).reverse

/-- A text without the blanks at both ends. -/
def trimChars (text : List Char) : List Char := dropEndWhile isBlank (text.dropWhile isBlank)

/-- A text without the blanks at both ends. -/
def trim (text : String) : String := String.ofList (trimChars text.toList)

end Conformance.Text
