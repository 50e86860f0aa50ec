import Dialogue.Decimal.Dyadic

/-! Among the decimals that read back as a given double, `shortest` chooses one with the fewest
digits, and among those the nearest to the double. `FloatLayout` holds the decisions on how the
digits are written, and `render` writes them. -/

namespace Dialogue.Decimal

structure Scientific where
  digits : Nat
  exponent : Int
  deriving DecidableEq

/-- A positive value and the bounds of the interval that rounds to it, over one denominator. -/
structure Interval where
  low : Nat
  value : Nat
  high : Nat
  denominator : Nat
  /-- Whether the bounds round to the value too. -/
  closed : Bool

/-- The reals that round to `m · 2^q`. Below a power of two the neighbour is half as far. -/
def Interval.ofDyadic (m : Nat) (q : Int) : Interval :=
  let below := if m = Dyadic.leadingBit ∧ Dyadic.leastExponent < q then 1 else 2
  let scale := Nat.pow 2 (q - 2).toNat
  { low := (4 * m - below) * scale
    value := 4 * m * scale
    high := (4 * m + 2) * scale
    denominator := Nat.pow 2 (2 - q).toNat
    closed := m % 2 == 0 }

/-- The least `k` for which the value is below `10^k`. -/
def Interval.magnitude (i : Interval) : Int :=
  if i.denominator ≤ i.value then (Nat.toDigits 10 (i.value / i.denominator)).length
  else
    let places := (Nat.toDigits 10 (i.denominator / i.value)).length
    if i.denominator ≤ Nat.pow 10 (places - 1) * i.value then 2 - places else 1 - places

/-- The point of the grid of step `10^step` in the interval that is nearest to the value, the even
one of two equally near. -/
def Interval.nearestOnGrid? (i : Interval) (step : Int) : Option Scientific :=
  let up := Nat.pow 10 (-step).toNat
  let unit := i.denominator * Nat.pow 10 step.toNat
  let inside (d : Nat) : Bool :=
    if i.closed then decide (i.low * up ≤ d * unit ∧ d * unit ≤ i.high * up)
    else decide (i.low * up < d * unit ∧ d * unit < i.high * up)
  let floor := i.value * up / unit
  let belowBy := i.value * up - floor * unit
  let aboveBy := (floor + 1) * unit - i.value * up
  match inside floor, inside (floor + 1) with
  | false, false => none
  | true, false => some ⟨floor, step⟩
  | false, true => some ⟨floor + 1, step⟩
  | true, true =>
    if belowBy < aboveBy ∨ (belowBy = aboveBy ∧ floor % 2 = 0) then some ⟨floor, step⟩
    else some ⟨floor + 1, step⟩

/-- Seventeen digits always suffice, so the last case is not met. -/
def shortest (m : Nat) (q : Int) : Scientific :=
  let i := Interval.ofDyadic m q
  let k := i.magnitude
  ((List.range' 1 17).findSome? fun (n : Nat) => i.nearestOnGrid? (k - n)).getD ⟨m, 0⟩

structure FloatLayout where
  /-- Positional notation is used when the point stands at one of these places: after the first
  digit is place one. -/
  leastPlace : Int
  greatestPlace : Int
  exponentDigits : Nat
  infinity : List Char
  notANumber : List Char

def zeros (n : Nat) : List Char := List.replicate n '0'

/-- The digits without the zeros at the end, and where the point stands. -/
def Scientific.placed (d : Scientific) : List Char × Int :=
  let digits := Nat.toDigits 10 d.digits
  let kept := (digits.reverse.dropWhile (· == '0')).reverse
  (kept, digits.length + d.exponent)

def FloatLayout.exponent (layout : FloatLayout) (e : Int) : List Char :=
  let digits := Nat.toDigits 10 e.natAbs
  'e' :: (if e < 0 then '-' else '+') :: (zeros (layout.exponentDigits - digits.length) ++ digits)

def FloatLayout.digits (layout : FloatLayout) (d : Scientific) : List Char :=
  let (digits, place) := d.placed
  if layout.leastPlace ≤ place ∧ place ≤ layout.greatestPlace then
    if place ≤ 0 then '0' :: '.' :: (zeros (-place).toNat ++ digits)
    else if digits.length ≤ place.toNat then
      digits ++ zeros (place.toNat - digits.length) ++ ['.', '0']
    else digits.take place.toNat ++ '.' :: digits.drop place.toNat
  else
    let mantissa := match digits with
      | first :: rest => if rest.isEmpty then [first] else first :: '.' :: rest
      | [] => []
    mantissa ++ layout.exponent (place - 1)

def FloatLayout.render (layout : FloatLayout) (x : Float) : List Char :=
  let sign (negative : Bool) (text : List Char) := if negative then '-' :: text else text
  match Dyadic.ofFloat x with
  | .notANumber => layout.notANumber
  | .infinite negative => sign negative layout.infinity
  | .finite negative m q =>
    sign negative (if m = 0 then ['0', '.', '0'] else layout.digits (shortest m q))

end Dialogue.Decimal
