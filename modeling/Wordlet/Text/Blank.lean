/-!
# White space

Two classes are in use. `isSpace` is the white space property of Unicode: it surrounds a numeral.
`isBlank` adds the four information separators of ASCII, which separate without being white
space: it surrounds a switch. `trim` removes the characters of a class from both ends of a text.
-/

namespace Wordlet.Text

/-- A white space character. -/
def isSpace (c : Char) : Bool :=
  let n := c.toNat
  (9 ≤ n && n ≤ 13) || n = 0x20 || n = 0x85 || n = 0xa0 || n = 0x1680 ||
    (0x2000 ≤ n && n ≤ 0x200a) || n = 0x2028 || n = 0x2029 || n = 0x202f || n = 0x205f ||
    n = 0x3000

/-- A white space character or an information separator. -/
def isBlank (c : Char) : Bool :=
  isSpace c || (0x1c ≤ c.toNat && c.toNat ≤ 0x1f)

/-- The text without the characters of the class `p` at its two ends. -/
def trim (p : Char → Bool) (cs : List Char) : List Char :=
  (cs.dropWhile p).reverse.dropWhile p |>.reverse

end Wordlet.Text
