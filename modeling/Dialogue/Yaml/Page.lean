import Dialogue.Text.Hexadecimal
import Dialogue.Yaml.Cursor

/-! A `Page` is a text in the making. Scalars are put on it in three styles; their lines are broken
at spaces, or between double quotes behind a backslash, once they are wider than the page. -/

namespace Dialogue.Yaml

/-- Lines that are longer are broken at their next space. -/
def pageWidth : Nat := 80

/-- A text in the making, and the place in its last line. -/
structure Page where
  /-- The characters so far, last one first. -/
  written : List Char := []
  column : Nat := 0
  /-- Whether the next word needs no space in front. -/
  afterGap : Bool := true
  /-- Whether there is nothing in the line but indentation and the marks of items and keys. -/
  inMargin : Bool := true

namespace Page

def text (p : Page) : List Char :=
  p.written.reverse

def put (p : Page) (s : List Char) : Page :=
  { p with written := s.reverse ++ p.written, column := p.column + s.length }

def breakLine (p : Page) (c : Char) : Page :=
  { written := c :: p.written }

def beforeWord (p : Page) : Page :=
  { p with afterGap := false, inMargin := false }

/-- Goes to a column: of the same line if that holds nothing but indentation and has not come to
the column yet, and of the next line if not. -/
def indentTo (p : Page) (n : Nat) : Page :=
  let p :=
    if !p.inMargin || decide (n < p.column) || (p.column == n && !p.afterGap) then p.breakLine '\n'
    else p
  if p.column < n then { p.put (List.replicate (n - p.column) ' ') with afterGap := true } else p

/-- Puts a mark behind a gap. Marks of items and keys belong to the indentation. -/
def mark (p : Page) (c : Char) (ofMargin : Bool) : Page :=
  let p := p.put (if p.afterGap then [c] else [' ', c])
  { p with afterGap := false, inMargin := p.inMargin && ofMargin }

def closing (p : Page) (s : List Char) : Page :=
  (p.put s).beforeWord

/-! ## Plain texts -/

def runs {α : Type} [BEq α] (cls : Char → α) (text : List Char) : List (List Char) :=
  text.splitBy fun a b => cls a == cls b

/-- Whether a line is to be broken at a run: it is a single space on a line that is too long. -/
def breaksAt (p : Page) (run : List Char) : Bool :=
  run == [' '] && decide (pageWidth < p.column)

/-- Puts a plain text. Lines are broken if that is asked for, and go on at a column. -/
def putPlain (p : Page) (broken : Bool) (indent : Nat) (text : List Char) : Page :=
  let start := (if p.afterGap then p else p.put [' ']).beforeWord
  (runs (· == ' ') text).foldl
    (fun p run => if broken && p.breaksAt run then (p.indentTo indent).beforeWord else p.put run)
    start

/-! ## Single quotes -/

inductive CharClass where
  | space
  | lineEnd
  | other
  deriving DecidableEq

def isWrittenBreak (c : Char) : Bool :=
  c == '\n' || c == '\x85' || c == '\u2028' || c == '\u2029'

def classOf (c : Char) : CharClass :=
  if c == ' ' then .space else if isWrittenBreak c then .lineEnd else .other

def doubleQuote (c : Char) : List Char :=
  if c == '\'' then ['\'', '\''] else [c]

/-- Line ends of a text in quotes. One more line feed stands in front of line feeds, because
reading drops the first one. -/
def putBreaks (p : Page) (indent : Nat) (breaks : List Char) : Page :=
  let p := if breaks.head? == some '\n' then p.breakLine '\n' else p
  (breaks.foldl breakLine p).indentTo indent

def putRuns (broken : Bool) (indent : Nat) (first : Bool) : List (List Char) → Page → Page
  | [], p => p
  | run :: rest, p =>
    let p := match run.head?.map classOf with
      | some .space =>
        if broken && !first && !rest.isEmpty && p.breaksAt run then p.indentTo indent else p.put run
      | some .lineEnd => p.putBreaks indent run
      | _ => p.put (run.flatMap doubleQuote)
    putRuns broken indent false rest p

def putSingleQuoted (p : Page) (broken : Bool) (indent : Nat) (text : List Char) : Page :=
  (putRuns broken indent true (runs classOf text) (p.mark '\'' false)).closing ['\'']

/-! ## Double quotes -/

def escapeLetters : List (Char × Char) :=
  [('\x00', '0'), ('\x07', 'a'), ('\x08', 'b'), ('\t', 't'), ('\n', 'n'), ('\x0b', 'v'),
   ('\x0c', 'f'), ('\r', 'r'), ('\x1b', 'e'), ('"', '"'), ('\\', '\\'), ('\x85', 'N'),
   ('\u2028', 'L'), ('\u2029', 'P')]

def standsInDouble (c : Char) : Bool :=
  (decide (' ' ≤ c ∧ c ≤ '~') || decide ('\xa0' ≤ c ∧ c.toNat ≤ 0xfffd))
    && !(['"', '\\', '\u2028', '\u2029', '\ufeff'].contains c)

def upperHex (count n : Nat) : List Char :=
  (Text.hexDigits count n).map Char.toUpper

def escape (c : Char) : List Char :=
  match escapeLetters.lookup c with
  | some letter => ['\\', letter]
  | none =>
    if c.toNat ≤ 0xff then '\\' :: 'x' :: upperHex 2 c.toNat
    else if c.toNat ≤ 0xffff then '\\' :: 'u' :: upperHex 4 c.toNat
    else '\\' :: 'U' :: upperHex 8 c.toNat

/-- Breaks a line between double quotes in front of `rest`. A space at the beginning of the next
line would be lost without a backslash. -/
def foldLine (p : Page) (indent : Nat) (rest : List Char) : Page :=
  let p := ((p.put ['\\']).indentTo indent).beforeWord
  if rest.head? == some ' ' then p.put ['\\'] else p

/-- Puts a text in double quotes behind its first character. A long line is broken in front of a
space, in front of a character behind an escape or the beginning of a line (`fresh`), and behind an
escape; the last character stays with its neighbour. -/
def putChars (broken : Bool) (indent : Nat) (first fresh : Bool) : List Char → Page → Page
  | [], p => p
  | c :: rest, p =>
    let inside := broken && !first && !rest.isEmpty
    if standsInDouble c then
      let p := if inside && (c == ' ' || fresh) && decide (pageWidth < p.column)
        then p.foldLine indent (c :: rest) else p
      putChars broken indent false false rest (p.put [c])
    else
      let p := p.put (escape c)
      let p := if inside && decide (pageWidth + 1 < p.column) then p.foldLine indent rest else p
      putChars broken indent false true rest p

def putDoubleQuoted (p : Page) (broken : Bool) (indent : Nat) (text : List Char) : Page :=
  (putChars broken indent true true text (p.mark '"' false)).closing ['"']

end Page

end Dialogue.Yaml
