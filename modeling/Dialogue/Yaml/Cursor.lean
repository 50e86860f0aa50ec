import Dialogue.Fault

/-! A `Cursor` is what is left of a text together with the place that reading has come to. The
column counts from the last line end; a byte order mark takes no column. -/

namespace Dialogue.Yaml

/-! ## Classes of characters -/

def isBreak (c : Char) : Bool :=
  c == '\n' || c == '\r' || c == '\x85' || c == '\u2028' || c == '\u2029'

def isSpaceOrTab (c : Char) : Bool :=
  c == ' ' || c == '\t'

def isGap (c : Char) : Bool :=
  isSpaceOrTab c || isBreak c

def isWordChar (c : Char) : Bool :=
  c.isAlphanum || c == '-' || c == '_'

/-- Whether a text is empty or begins with a character that satisfies `p`. -/
def stopsAt (p : Char → Bool) : List Char → Bool
  | [] => true
  | c :: _ => p c

def atDocumentMark (mark : Char) : List Char → Bool
  | a :: b :: c :: rest => a == mark && b == mark && c == mark && stopsAt isGap rest
  | _ => false

def atAnyDocumentMark (text : List Char) : Bool :=
  atDocumentMark '-' text || atDocumentMark '.' text

/-- Whether a line ends behind a character that is followed by `rest`. A carriage return in front
of a line feed leaves that to the line feed. -/
def endsLine (c : Char) (rest : List Char) : Bool :=
  isBreak c && !(c == '\r' && rest.head? == some '\n')

/-- What a line end counts as: the two separators of Unicode stay, all others are line feeds. -/
def breakChar (c : Char) : Char :=
  if c == '\u2028' || c == '\u2029' then c else '\n'

/-- What line ends in a row count as inside a text: a single line feed is a space, and the first of
several is dropped. -/
def foldBreaks (first : Char) (more : List Char) : List Char :=
  if first ≠ '\n' then first :: more else if more.isEmpty then [' '] else more

/-! ## Places -/

structure Spot where
  index : Nat := 0
  line : Nat := 0
  column : Nat := 0
  deriving DecidableEq

def Spot.step (s : Spot) (c : Char) (rest : List Char) : Spot :=
  if endsLine c rest then ⟨s.index + 1, s.line + 1, 0⟩
  else if c == '\ufeff' then { s with index := s.index + 1 }
  else { s with index := s.index + 1, column := s.column + 1 }

def Spot.along (s : Spot) (n : Nat) : Spot :=
  { s with index := s.index + n, column := s.column + n }

structure Cursor where
  spot : Spot
  rest : List Char

namespace Cursor

def ofText (text : List Char) : Cursor := ⟨{}, text⟩

def column (c : Cursor) : Nat := c.spot.column

def head? (c : Cursor) : Option Char := c.rest.head?

def next : Cursor → Cursor
  | ⟨s, []⟩ => ⟨s, []⟩
  | ⟨s, c :: rest⟩ => ⟨s.step c rest, rest⟩

def skip (c : Cursor) : Nat → Cursor
  | 0 => c
  | n + 1 => c.next.skip n

/-- The longest front whose characters satisfy `p`, and the cursor behind it. -/
def takeWhile (p : Char → Bool) (c : Cursor) : List Char × Cursor :=
  let front := c.rest.takeWhile p
  (front, c.skip front.length)

def dropWhile (p : Char → Bool) (c : Cursor) : Cursor :=
  (c.takeWhile p).2

def skipSpaces (c : Cursor) : Cursor :=
  c.dropWhile (· == ' ')

/-- The next line end as what it counts as, or nothing. -/
def lineBreak (c : Cursor) : Option Char × Cursor :=
  match c.rest with
  | '\r' :: '\n' :: _ => (some '\n', c.skip 2)
  | ch :: _ => if isBreak ch then (some (breakChar ch), c.next) else (none, c)
  | [] => (none, c)

/-- The cursor behind a line whose rest holds nothing but spaces and a comment. -/
def endLine (c : Cursor) : Except Fault Cursor :=
  let c := c.skipSpaces
  let c := if c.head? == some '#' then c.dropWhile (!isBreak ·) else c
  if stopsAt isBreak c.rest then .ok c.lineBreak.2 else .error .yaml

end Cursor

end Dialogue.Yaml
