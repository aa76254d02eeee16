import SyntaxLens.Binary64
/-!
# Shortest decimal digits

The decimal digits of a floating-point number are the fewest that read back as the number, and
of those the nearest to it. For each count of digits only the two neighbours of the number on
that decimal grid have to be tried: if any point of the grid reads back, one of them does.
-/

namespace SyntaxLens.Binary64

/-- The least `k` such that the quotient is below `10 ^ k`. -/
def decimalPlace (num den : Nat) : Int :=
  let k := (digitCount num : Int) - digitCount den
  if num * Nat.pow 10 (-k).toNat < den * Nat.pow 10 k.toNat then k else k + 1

/-- `c * 10 ^ t` in units that also measure multiples of `2 ^ p`. -/
def decimalUnits (t p : Int) (c : Nat) : Nat :=
  c * Nat.pow 10 t.toNat * Nat.pow 2 (-p).toNat

/-- `a * 2 ^ p` in the units of `decimalUnits t p`. -/
def binaryUnits (t p : Int) (a : Nat) : Nat :=
  a * Nat.pow 2 p.toNat * Nat.pow 10 (-t).toNat

/-- Whether `c * 10 ^ t` rounds to `m * 2 ^ q`: it lies within half a step of the neighbours,
and the bounds themselves round to an even significand. -/
def readsBack (m : Nat) (q t : Int) (c : Nat) : Bool :=
  let p := q - 2
  let low := binaryUnits t p (4 * m - if m = leastNormal ∧ leastExponent < q then 1 else 2)
  let high := binaryUnits t p (4 * m + 2)
  let x := decimalUnits t p c
  if m % 2 = 0 then low ≤ x ∧ x ≤ high else low < x ∧ x < high

/-- The neighbour of `m * 2 ^ q` on the grid of multiples of `10 ^ t` that reads back. Of two
such neighbours it is the nearer one, and of two equally near ones the greater. -/
def neighbour? (m : Nat) (q t : Int) : Option Nat :=
  let p := q - 2
  let x := binaryUnits t p (4 * m)
  let below := x / decimalUnits t p 1
  let above := below + 1
  match readsBack m q t below, readsBack m q t above with
  | false, false => none
  | true, false => some below
  | false, true => some above
  | true, true =>
    if x - decimalUnits t p below < decimalUnits t p above - x then some below else some above

/-- The shortest digits of `m * 2 ^ q` and the exponent of ten of the last one. -/
def shortestFrom (m : Nat) (q place : Int) : Nat → Nat → Nat × Int
  | _, 0 => (m, q)
  | count, more + 1 =>
    match neighbour? m q (place - count) with
    | some c => (c, place - count)
    | none => shortestFrom m q place (count + 1) more

/-- The digits without their trailing zeros, and the exponent of ten of the last one left. -/
def dropZeros (c : Nat) (t : Int) : Nat → Nat × Int
  | 0 => (c, t)
  | more + 1 => if c % 10 = 0 then dropZeros (c / 10) (t + 1) more else (c, t)

/-- The shortest decimal form `c * 10 ^ t` of `m * 2 ^ q`, for a positive `m`. Seventeen digits
always read back. -/
def shortest (m : Nat) (q : Int) : Nat × Int :=
  let place := decimalPlace (m * Nat.pow 2 q.toNat) (Nat.pow 2 (-q).toNat)
  let (c, t) := shortestFrom m q place 1 17
  dropZeros c t 17

end SyntaxLens.Binary64
