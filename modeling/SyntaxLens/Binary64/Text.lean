import SyntaxLens.Binary64.Shortest
import SyntaxLens.Text.Numeral
/-!
# The text of floating-point numbers

Numbers from `10 ^ (-4)` up to `10 ^ 16` are written positionally with at least one digit after
the point, all others with an exponent. Reading takes a sign, digits with an optional point and
an optional exponent, and the words for infinity and not-a-number in either case.
-/

namespace SyntaxLens.Binary64

/-- Digits with a point after the first `place` of them, filled up with zeros. -/
def positional (digits : List Char) (place : Int) : List Char :=
  if place ≤ 0 then '0' :: '.' :: List.replicate (-place).toNat '0' ++ digits
  else if place.toNat < digits.length then
    digits.take place.toNat ++ '.' :: digits.drop place.toNat
  else digits ++ List.replicate (place.toNat - digits.length) '0' ++ ['.', '0']

/-- Digits with a point after the first one, if there are more, and an exponent of ten. -/
def scientific (digits : List Char) (place : Int) : List Char :=
  digits.take 1 ++ (if 1 < digits.length then '.' :: digits.drop 1 else []) ++
    'e' :: (toString (place - 1)).toList

/-- The text of a positive number from its shortest form `c * 10 ^ t`. -/
def decimalText (c : Nat) (t : Int) : List Char :=
  let digits := Nat.toDigits 10 c
  let place := t + digits.length
  if -4 < place ∧ place ≤ 16 then positional digits place else scientific digits place

def text : Binary64 → String
  | nan => "nan"
  | infinite negative => if negative then "-inf" else "inf"
  | finite negative m q =>
    (if negative then "-" else "") ++
      if m = 0 then "0.0" else String.ofList (decimalText (shortest m q).1 (shortest m q).2)

/-- Reads the exponent of a decimal, which may be left out. -/
def readExponent? : List Char → Option Int
  | [] => some 0
  | e :: cs =>
    if e = 'e' ∨ e = 'E' then
      match cs with
      | '-' :: digits => (Text.Numeral.read? digits).map fun n => -(n : Int)
      | cs => (Text.Numeral.read? (Text.Numeral.dropPlus cs)).map Int.ofNat
    else none

/-- The digits after a decimal point, if there is one, and the rest of the text. -/
def splitFraction : List Char → List Char × List Char
  | '.' :: cs => (cs.takeWhile Char.isDigit, cs.dropWhile Char.isDigit)
  | cs => ([], cs)

/-- Reads a number without its sign. -/
def readUnsigned? (negative : Bool) (cs : List Char) : Option Binary64 :=
  let word := cs.map Char.toLower
  if word = "nan".toList then some nan
  else if word = "inf".toList ∨ word = "infinity".toList then some (infinite negative)
  else
    let whole := cs.takeWhile Char.isDigit
    let (fraction, rest) := splitFraction (cs.dropWhile Char.isDigit)
    if whole = [] ∧ fraction = [] then none
    else (readExponent? rest).map fun e =>
      ofDecimal negative (Text.Numeral.value (whole ++ fraction)) (e - fraction.length)

def read? : List Char → Option Binary64
  | '-' :: cs => readUnsigned? true cs
  | cs => readUnsigned? false (Text.Numeral.dropPlus cs)

end SyntaxLens.Binary64
