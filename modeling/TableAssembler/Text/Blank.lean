/-!
# White space

* `isBlank`    the six blanks that may stand between the words of a program;
* `isSpace`    white space of any kind, which a shown line loses at its right end;
* `trimRight`  a text without the white space at its end.
-/

namespace TableAssembler.Text

/-- The blanks between words: space, tab, line feed, vertical tab, form feed, carriage return. -/
def isBlank (c : Char) : Bool :=
  c == ' ' || (0x09 ≤ c.toNat && c.toNat ≤ 0x0d)

/-- White space of any kind: the blanks, the four separators U+001C to U+001F, the next-line
control and every space, line or paragraph separator beyond ASCII. -/
def isSpace (c : Char) : Bool :=
  isBlank c || (0x1c ≤ c.toNat && c.toNat ≤ 0x1f) || c.toNat == 0x85 || c.toNat == 0xa0
    || c.toNat == 0x1680 || (0x2000 ≤ c.toNat && c.toNat ≤ 0x200a) || c.toNat == 0x2028
    || c.toNat == 0x2029 || c.toNat == 0x202f || c.toNat == 0x205f || c.toNat == 0x3000

def trimRight (s : List Char) : List Char :=
  (s.reverse.dropWhile isSpace).reverse

end TableAssembler.Text
