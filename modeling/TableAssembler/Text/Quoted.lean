import TableAssembler.Text.Printable

/-!
# Quoted text

A text inside a message stands between quotes on one line.  The quote is `'`, or `"` where the text
holds a `'` and no `"`.  A backslash, the quote itself and every character that is not printable are
escaped.

* `hexDigits`  a number in base sixteen with a least number of digits;
* `quoted`     the quoted form.
-/

namespace TableAssembler.Text

/-- A number in base sixteen, in lower case, filled up with zeros to `width` digits. -/
def hexDigits (width n : Nat) : String :=
  let digits := Nat.toDigits 16 n
  String.ofList (List.replicate (width - digits.length) '0' ++ digits)

/-- One character between quotes of the kind `quote`. -/
def quotedChar (quote c : Char) : String :=
  if c = quote ∨ c = '\\' then String.ofList ['\\', c]
  else if c = '\t' then "\\t"
  else if c = '\n' then "\\n"
  else if c = '\r' then "\\r"
  else if isPrintable c then String.ofList [c]
  else if c.toNat < 0x100 then "\\x" ++ hexDigits 2 c.toNat
  else if c.toNat < 0x10000 then "\\u" ++ hexDigits 4 c.toNat
  else "\\U" ++ hexDigits 8 c.toNat

/-- The quote that surrounds a text. -/
def quoteFor (s : String) : Char :=
  if s.toList.contains '\'' && !s.toList.contains '"' then '"' else '\''

/-- A text between quotes, on one line. -/
def quoted (s : String) : String :=
  let quote := quoteFor s
  String.singleton quote ++ String.join (s.toList.map (quotedChar quote)) ++ String.singleton quote

end TableAssembler.Text
