import Dialogue.Text.Hexadecimal
import Dialogue.Text.Loose
import Dialogue.Text.Unprintable

/-! The quoted form of a text in messages. Single quotes stand around it, double quotes when it
holds single ones only; the quote, the backslash, and what cannot be printed are escaped. -/

namespace Dialogue.Text

/-- A code point as an escape of the shortest of three lengths. -/
def escapeCode (n : Nat) : List Char :=
  if n < 0x100 then '\\' :: 'x' :: hexDigits 2 n
  else if n < 0x10000 then '\\' :: 'u' :: hexDigits 4 n
  else '\\' :: 'U' :: hexDigits 8 n

def quoteChar (quote c : Char) : List Char :=
  if c = quote ∨ c = '\\' then ['\\', c]
  else if c = '\n' then ['\\', 'n']
  else if c = '\r' then ['\\', 'r']
  else if c = '\t' then ['\\', 't']
  else if isPrintable c then [c]
  else escapeCode c.toNat

def quoteFor (text : List Char) : Char :=
  if text.contains '\'' && !text.contains '"' then '"' else '\''

def quoted (text : List Char) : List Char :=
  let quote := quoteFor text
  quote :: text.flatMap (quoteChar quote) ++ [quote]

def quotePoint (quote : Char) : CodePoint → List Char
  | .char c => quoteChar quote c
  | .surrogate s => escapeCode s.code

/-- The quoted form of a text. Lone surrogates cannot be printed. -/
def Loose.quoted (t : Loose) : List Char :=
  let quote := quoteFor (t.points.filterMap CodePoint.char?)
  quote :: t.points.flatMap (quotePoint quote) ++ [quote]

end Dialogue.Text
