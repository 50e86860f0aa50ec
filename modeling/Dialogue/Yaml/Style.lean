import Dialogue.Value.Display
import Dialogue.Yaml.Page
import Dialogue.Yaml.Tag

/-! How a scalar is written: plain where that reads back as the same scalar, between single quotes
where it holds no character that has to be escaped, and between double quotes else. -/

namespace Dialogue.Yaml

inductive Style where
  | plain
  | singleQuoted
  | doubleQuoted
  deriving DecidableEq

namespace Style

/-- Whether a character stands in a text only as an escape. -/
def isSpecial (c : Char) : Bool :=
  !(c == '\n' || decide (' ' ≤ c ∧ c ≤ '~') || c == '\x85'
    || (decide ('\xa0' ≤ c) && !(['\ufeff', '\ufffe', '\uffff', Char.ofNat 0x10ffff].contains c)))

/-- Whether a text has two characters in a row of two classes. -/
def hasPair (p q : Char → Bool) : List Char → Bool
  | a :: b :: rest => (p a && q b) || hasPair p q (b :: rest)
  | _ => false

def leadingMarks : List Char :=
  "#,[]\x7b\x7d&*!|>'\"%@\x60".toList

/-- Whether a text begins with something that would not be read as text. -/
def beginsWithMark (text : List Char) : Bool :=
  ['-', '-', '-'].isPrefixOf text || ['.', '.', '.'].isPrefixOf text
    || match text with
      | c :: rest =>
        leadingMarks.contains c || (['?', ':', '-'].contains c && stopsAt isGap rest)
      | [] => false

/-- Whether a text has a colon in front of a gap or a comment behind one. -/
def hasMark (text : List Char) : Bool :=
  hasPair (· == ':') isGap text || text.getLast? == some ':' || hasPair isGap (· == '#') text

def isSpaceOrBreak (c : Char) : Bool :=
  c == ' ' || Page.isWrittenBreak c

/-- Whether a text may stand between single quotes. Spaces next to a line end would be lost. -/
def allowsSingleQuotes (text : List Char) : Bool :=
  !text.any isSpecial && !hasPair (· == ' ') Page.isWrittenBreak text
    && !hasPair Page.isWrittenBreak (· == ' ') text

def allowsPlain (text : List Char) : Bool :=
  allowsSingleQuotes text && !text.any Page.isWrittenBreak && !text.head?.any isSpaceOrBreak
    && !text.getLast?.any isSpaceOrBreak && !beginsWithMark text && !hasMark text

def of (tag : Tag) (text : List Char) : Style :=
  if Tag.ofPlain text = tag && allowsPlain text then .plain
  else if allowsSingleQuotes text then .singleQuoted
  else .doubleQuoted

end Style

namespace Page

/-- Puts a scalar in its style. Lines are broken if that is asked for, and go on at a column. -/
def putScalar (p : Page) (broken : Bool) (indent : Nat) (tag : Tag) (text : List Char) : Page :=
  match Style.of tag text with
  | .plain => p.putPlain broken indent text
  | .singleQuoted => p.putSingleQuoted broken indent text
  | .doubleQuoted => p.putDoubleQuoted broken indent text

end Page

/-! ## The texts of scalars -/

/-- Doubles as in messages, but for the words and a point in front of every exponent. -/
def floatWords : Decimal.FloatLayout :=
  { floatText with infinity := ".inf".toList, notANumber := ".nan".toList }

def pointed (text : List Char) : List Char :=
  if text.contains '.' then text
  else match text.span (· != 'e') with
    | (digits, 'e' :: exponent) => digits ++ ['.', '0', 'e'] ++ exponent
    | _ => text

/-- The tag and the text of a scalar. Bytes, assets and lone surrogates have none. -/
def written? : Scalar → Option (Tag × List Char)
  | .null => some (.null, "null".toList)
  | .bool b => some (.bool, if b then "true".toList else "false".toList)
  | .int n => some (.int, (toString n).toList)
  | .float x => some (.float, pointed (floatWords.render x))
  | .text ⟨s, []⟩ => some (.text, s.toList)
  | .text _ | .bytes _ | .asset .. => none

end Dialogue.Yaml
