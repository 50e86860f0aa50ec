/-! A finite double is a sign, a natural number and a power of two. `Dyadic.ofFloat` reads the three
off the bits; comparisons are made on the exact values. -/

namespace Dialogue.Decimal

/-- The value of a double: `±m · 2^q`, an infinity, or no number. -/
inductive Dyadic where
  | finite (negative : Bool) (m : Nat) (q : Int)
  | infinite (negative : Bool)
  | notANumber
  deriving DecidableEq

namespace Dyadic

/-- The significand of a normal double is at least this. -/
def leadingBit : Nat := Nat.pow 2 52

/-- The least exponent of a double. -/
def leastExponent : Int := -1074

def ofFloat (x : Float) : Dyadic :=
  let bits := x.toBits.toNat
  let negative := decide (Nat.pow 2 63 ≤ bits)
  let exponent := bits / leadingBit % 2048
  let fraction := bits % leadingBit
  if exponent = 2047 then
    if fraction = 0 then .infinite negative else .notANumber
  else if exponent = 0 then .finite negative fraction leastExponent
  else .finite negative (leadingBit + fraction) (leastExponent + (exponent - 1))

def ofInt (n : Int) : Dyadic :=
  .finite (decide (n < 0)) n.natAbs 0

def toInt? : Dyadic → Option Int
  | .finite negative m q =>
    let size := if 0 ≤ q then some (m * Nat.pow 2 q.toNat)
      else if m % Nat.pow 2 (-q).toNat = 0 then some (m / Nat.pow 2 (-q).toNat) else none
    size.map fun n => if negative then -(n : Int) else n
  | _ => none

/-- The numerators of two finite values over one denominator. -/
def aligned (m : Nat) (q : Int) (n : Nat) (r : Int) : Nat × Nat :=
  let least := min q r
  (m * Nat.pow 2 (q - least).toNat, n * Nat.pow 2 (r - least).toNat)

def signed (negative : Bool) (n : Nat) : Int :=
  if negative then -(n : Int) else n

/-- The order of the values; nothing is less than or greater than what is not a number. -/
def lt : Dyadic → Dyadic → Bool
  | .notANumber, _ | _, .notANumber => false
  | .infinite s, .infinite t => s && !t
  | .infinite s, .finite .. => s
  | .finite .., .infinite t => !t
  | .finite s m q, .finite t n r =>
    let (a, b) := aligned m q n r
    decide (signed s a < signed t b)

/-- Equality of the values; what is not a number equals nothing. -/
def same : Dyadic → Dyadic → Bool
  | .notANumber, _ | _, .notANumber => false
  | .infinite s, .infinite t => s == t
  | .infinite _, .finite .. | .finite .., .infinite _ => false
  | .finite s m q, .finite t n r =>
    let (a, b) := aligned m q n r
    decide (signed s a = signed t b)

end Dyadic

/-- The double nearest to a whole number, ties to even; none when it lies beyond the largest. -/
def floatOfInt? (n : Int) : Option Float :=
  let size := Float.ofScientific n.natAbs false 0
  if size.isInf then none else some (if n < 0 then -size else size)

end Dialogue.Decimal
