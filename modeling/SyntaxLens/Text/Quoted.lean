import SyntaxLens.Text.Numeral
/-!
# Quoted literals

A literal stands between apostrophes, or between quotation marks if it holds an apostrophe and
no quotation mark. Inside, the backslash and the chosen quote follow a backslash, and line feed,
carriage return, tab and the other control characters are written as escapes.
-/

namespace SyntaxLens.Text.Quoted

/-- The quote of most literals. -/
def apostrophe : Char := '\x27'

/-- The quote of literals that hold an apostrophe and no quotation mark. -/
def quotationMark : Char := '\x22'

/-- The control characters of Unicode. -/
def isControl (c : Char) : Bool :=
  c.toNat < 0x20 || (0x7F ≤ c.toNat && c.toNat ≤ 0x9F)

/-- The quote of a literal. -/
def quoteFor (cs : List Char) : Char :=
  if apostrophe ∈ cs ∧ quotationMark ∉ cs then quotationMark else apostrophe

/-- A character as it is written between the given quotes. -/
def escape (quote c : Char) : List Char :=
  if c = '\\' then ['\\', '\\']
  else if c = '\n' then ['\\', 'n']
  else if c = '\r' then ['\\', 'r']
  else if c = '\t' then ['\\', 't']
  else if c = quote then ['\\', quote]
  else if isControl c then '\\' :: 'x' :: Text.Numeral.hexByte c.toNat
  else [c]

/-- The literal of a sequence of characters. -/
def encode (cs : List Char) : List Char :=
  let quote := quoteFor cs
  quote :: cs.flatMap (escape quote) ++ [quote]

end SyntaxLens.Text.Quoted
