/-!
# Blank characters

The characters that separate the words of a line, and that make up a blank line: the Unicode
property `White_Space`, 25 characters in ten ranges.
-/

namespace ReversePolish.Text

/-- The first and the last code point of each range of blank characters. -/
def blankRanges : List (Nat × Nat) :=
  [(0x09, 0x0D), (0x20, 0x20), (0x85, 0x85), (0xA0, 0xA0), (0x1680, 0x1680), (0x2000, 0x200A),
    (0x2028, 0x2029), (0x202F, 0x202F), (0x205F, 0x205F), (0x3000, 0x3000)]

def isBlank (c : Char) : Bool :=
  blankRanges.any (fun range => range.1 ≤ c.toNat && c.toNat ≤ range.2)

end ReversePolish.Text
