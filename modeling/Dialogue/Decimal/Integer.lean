import Dialogue.Decimal.Numeral
import Dialogue.Text.Hexadecimal

/-! The spellings of a whole number in base 2, 8, 10 or 16: an optional sign and digits, which may
be introduced by the letter of their base. The digits of all scripts count, and blanks around the
number do not. -/

namespace Dialogue.Decimal

def baseLetters (base : Nat) : List Char :=
  if base = 2 then ['b', 'B']
  else if base = 8 then ['o', 'O']
  else if base = 16 then ['x', 'X']
  else []

def digitsOf? (base : Nat) (digits : List Char) : Option Nat :=
  if digits.isEmpty then none
  else digits.foldlM (fun n c =>
    match Text.hexValue? c with
    | some d => if d < base then some (base * n + d) else none
    | none => none) 0

def naturalOf? (base : Nat) : List Char → Option Nat
  | '0' :: letter :: digits =>
    if (baseLetters base).contains letter then digitsOf? base digits
    else digitsOf? base ('0' :: letter :: digits)
  | digits => digitsOf? base digits

def integerOf? (base : Nat) (text : List Char) : Option Int :=
  match Text.stripBy isPadding (asciiForm text) with
  | '-' :: rest => (naturalOf? base rest).map fun n => -(n : Int)
  | '+' :: rest => (naturalOf? base rest).map fun n => (n : Int)
  | rest => (naturalOf? base rest).map fun n => (n : Int)

end Dialogue.Decimal
