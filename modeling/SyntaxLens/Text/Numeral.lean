/-!
# Decimal and hexadecimal numerals

Numerals are ASCII digits, most significant first. `Numeral.read?` gives the number that a
non-empty run of digits denotes, and `Numeral.readBounded?` also takes a plus sign and refuses
numbers that reach a bound.
-/

namespace SyntaxLens.Text.Numeral

/-- The number denoted by decimal digits after a part that denotes `n`. -/
def valueFrom (n : Nat) (cs : List Char) : Nat :=
  cs.foldl (fun n c => 10 * n + (c.toNat - '0'.toNat)) n

/-- The number denoted by decimal digits. -/
def value (cs : List Char) : Nat :=
  valueFrom 0 cs

/-- Reads a non-empty run of decimal digits. -/
def read? (cs : List Char) : Option Nat :=
  if cs ≠ [] ∧ cs.all Char.isDigit then some (value cs) else none

/-- The text without one leading plus sign. -/
def dropPlus : List Char → List Char
  | '+' :: cs => cs
  | cs => cs

/-- Reads decimal digits after an optional plus sign, if their number is below `bound`. -/
def readBounded? (bound : Nat) (cs : List Char) : Option Nat :=
  (read? (dropPlus cs)).filter (· < bound)

/-- Reads a numeral with an optional plus sign into 32 bits. -/
def readWord? (cs : List Char) : Option UInt32 :=
  (readBounded? UInt32.size cs).map UInt32.ofNat

/-- The value of a hexadecimal digit. -/
def hexDigit? (c : Char) : Option Nat :=
  if c.isDigit then some (c.toNat - '0'.toNat)
  else if 'a' ≤ c ∧ c ≤ 'f' then some (c.toNat - 'a'.toNat + 10)
  else if 'A' ≤ c ∧ c ≤ 'F' then some (c.toNat - 'A'.toNat + 10)
  else none

/-- Reads hexadecimal digits of either case. -/
def readHex? (cs : List Char) : Option Nat :=
  cs.foldlM (fun n c => (hexDigit? c).map (16 * n + ·)) 0

/-- The lowercase hexadecimal digit of a number below sixteen. -/
def hexDigit (n : Nat) : Char :=
  Nat.digitChar (n % 16)

/-- The two lowercase hexadecimal digits of a byte. -/
def hexByte (n : Nat) : List Char :=
  [hexDigit (n / 16), hexDigit n]

end SyntaxLens.Text.Numeral
