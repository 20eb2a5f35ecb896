/-!
# Blank characters

The characters with the Unicode property `White_Space`: the controls from tab to carriage return,
space, next line, no-break space, the ogham space mark, the spaces from en quad to hair space, the
line and paragraph separators, the narrow no-break space, the medium mathematical space and the
ideographic space. Trimming removes them from both ends of a text.
-/

namespace RangeAdvisor.Text

/-- Whether `c` has the Unicode property `White_Space`. -/
def isBlank (c : Char) : Bool :=
  let n := c.toNat
  (0x09 ≤ n && n ≤ 0x0D) || n == 0x20 || n == 0x85 || n == 0xA0 || n == 0x1680 ||
  (0x2000 ≤ n && n ≤ 0x200A) || n == 0x2028 || n == 0x2029 || n == 0x202F || n == 0x205F ||
  n == 0x3000

/-- The text without blanks at either end. -/
def trim (s : String) : String :=
  String.ofList ((s.toList.dropWhile isBlank).reverse.dropWhile isBlank).reverse

/-- The text with `A`–`Z` turned into `a`–`z` and every other character kept. -/
def asciiLower (s : String) : String :=
  String.ofList (s.toList.map fun c => if 'A' ≤ c ∧ c ≤ 'Z' then Char.ofNat (c.toNat + 32) else c)

end RangeAdvisor.Text
