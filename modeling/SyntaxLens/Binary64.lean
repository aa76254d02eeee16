/-!
# Binary floating-point numbers of 64 bits

A `Binary64` is not-a-number, an infinity or a signed number `significand * 2 ^ exponent`.
Significands stay below `2 ^ 53` and exponents between `-1074` and `971`; a number whose
exponent is not the least one has a significand of at least `2 ^ 52`, so its form is unique.

`Binary64.ofRatio` rounds a quotient of natural numbers to the nearest such number.
-/

namespace SyntaxLens

/-- A floating-point number of 64 bits. -/
inductive Binary64
  | nan
  | infinite (negative : Bool)
  /-- The number `significand * 2 ^ exponent`, or its negative. -/
  | finite (negative : Bool) (significand : Nat) (exponent : Int)
deriving DecidableEq

namespace Binary64

def leastExponent : Int := -1074

def greatestExponent : Int := 971

/-- The bound of significands, which is `2 ^ 53`. -/
def significandBound : Nat := 0x20000000000000

/-- The least significand above the least exponent, which is `2 ^ 52`. -/
def leastNormal : Nat := 0x10000000000000

/-- The quotient rounded to the nearest number, a tie to the even one. -/
def roundDiv (num den : Nat) : Nat :=
  let twice := 2 * (num % den)
  if den < twice ∨ den = twice ∧ num / den % 2 = 1 then num / den + 1 else num / den

/-- Numerator and denominator of the quotient `num / den` in units of `2 ^ q`. -/
def inUnits (num den : Nat) (q : Int) : Nat × Nat :=
  (num * Nat.pow 2 (-q).toNat, den * Nat.pow 2 q.toNat)

/-- The exponent at which the quotient has 53 bits, or the least one. -/
def ratioExponent (num den : Nat) : Int :=
  let q := max ((num.log2 : Int) - den.log2 - 53) leastExponent
  let (n, d) := inUnits num den q
  if n / d < significandBound then q else q + 1

/-- The number nearest to a quotient, a tie to the even significand. -/
def ofRatio (negative : Bool) (num den : Nat) : Binary64 :=
  if num = 0 then finite negative 0 leastExponent
  else
    let q := ratioExponent num den
    let (n, d) := inUnits num den q
    let m := roundDiv n d
    let (m, q) := if m = significandBound then (leastNormal, q + 1) else (m, q)
    if greatestExponent < q then infinite negative else finite negative m q

/-- The number of decimal digits of a natural number. -/
def digitCount (n : Nat) : Nat :=
  (Nat.toDigits 10 n).length

/-- The number nearest to `digits * 10 ^ exponent`. Values from `10 ^ 310` on are infinite and
values below `10 ^ (-325)` are zero, whatever their digits. -/
def ofDecimal (negative : Bool) (digits : Nat) (exponent : Int) : Binary64 :=
  if digits = 0 ∨ digitCount digits + exponent < -325 then finite negative 0 leastExponent
  else if 310 < digitCount digits + exponent then infinite negative
  else ofRatio negative (digits * Nat.pow 10 exponent.toNat) (Nat.pow 10 (-exponent).toNat)

end Binary64

end SyntaxLens
