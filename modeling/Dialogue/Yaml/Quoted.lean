import Dialogue.Fault
import Dialogue.Text.Hexadecimal
import Dialogue.Yaml.Cursor

/-! Between single quotes a quote is written twice and all else stands for itself; between double
quotes a backslash begins an escape. In both, a line end counts as a space. -/

namespace Dialogue.Yaml.Quoted

/-! ## Gaps -/

/-- The gap that reading has come through since the last other character. -/
inductive Gap where
  /-- Spaces and tabs, last first. -/
  | blanks (text : List Char)
  /-- The first line end and the others, last first. An escaped first one counts for nothing. -/
  | lines (first : Option Char) (more : List Char)

namespace Gap

def none : Gap := .blanks []

def blank (c : Char) : Gap → Gap
  | .blanks text => .blanks (c :: text)
  | g => g

def line (c : Char) : Gap → Gap
  | .blanks _ => .lines (some (breakChar c)) []
  | .lines first more => .lines first (breakChar c :: more)

def text : Gap → List Char
  | .blanks text => text.reverse
  | .lines (some first) more => foldBreaks first more.reverse
  | .lines .none more => more.reverse

end Gap

/-- What a text has in front of what is read behind it. -/
def prepend (front : List Char) :
    Except Fault (List Char × Cursor) → Except Fault (List Char × Cursor)
  | .ok (text, behind) => .ok (front ++ text, behind)
  | .error e => .error e

/-! ## Single quotes -/

def readSingle (gap : Gap) (s : Spot) : List Char → Except Fault (List Char × Cursor)
  | [] => .error .yaml
  | '\'' :: '\'' :: rest =>
    prepend (gap.text ++ ['\'']) (readSingle .none ((s.step '\'' rest).step '\'' rest) rest)
  | c :: rest =>
    let s := s.step c rest
    if c == '\'' then .ok (gap.text, ⟨s, rest⟩)
    else if isSpaceOrTab c then readSingle (gap.blank c) s rest
    else if endsLine c rest then
      if atAnyDocumentMark rest then .error .yaml else readSingle (gap.line c) s rest
    else if isBreak c then readSingle gap s rest
    else prepend (gap.text ++ [c]) (readSingle .none s rest)

/-! ## Double quotes -/

def letters : List (Char × Char) :=
  [('0', '\x00'), ('a', '\x07'), ('b', '\x08'), ('t', '\t'), ('\t', '\t'), ('n', '\n'),
   ('v', '\x0b'), ('f', '\x0c'), ('r', '\r'), ('e', '\x1b'), (' ', ' '), ('"', '"'), ('\\', '\\'),
   ('/', '/'), ('N', '\x85'), ('_', '\xa0'), ('L', '\u2028'), ('P', '\u2029')]

def charOfCode (n : Nat) : Except Fault Char :=
  if n < 0x110000 then .ok (Char.ofNat n)
  else if n < 0x80000000 then .error .noCharacter
  else .error .overflow

def charOfDigits (digits : List Char) : Except Fault Char :=
  match Text.hexNumber? digits with
  | some n => charOfCode n
  | none => .error .yaml

def readDouble (gap : Gap) (s : Spot) : List Char → Except Fault (List Char × Cursor)
  | [] => .error .yaml
  | '\\' :: 'x' :: a :: b :: rest =>
    match charOfDigits [a, b] with
    | .ok c => prepend (gap.text ++ [c]) (readDouble .none (s.along 4) rest)
    | .error e => .error e
  | '\\' :: 'u' :: a :: b :: c :: d :: rest =>
    match charOfDigits [a, b, c, d] with
    | .ok c => prepend (gap.text ++ [c]) (readDouble .none (s.along 6) rest)
    | .error e => .error e
  | '\\' :: 'U' :: a :: b :: c :: d :: e :: f :: g :: h :: rest =>
    match charOfDigits [a, b, c, d, e, f, g, h] with
    | .ok c => prepend (gap.text ++ [c]) (readDouble .none (s.along 10) rest)
    | .error e => .error e
  | '\\' :: '\r' :: '\n' :: rest =>
    if atAnyDocumentMark rest then .error .yaml
    else prepend gap.text
      (readDouble (.lines .none []) (((s.along 1).step '\r' ('\n' :: rest)).step '\n' rest) rest)
  | '\\' :: c :: rest =>
    let s := (s.along 1).step c rest
    match letters.lookup c with
    | some c => prepend (gap.text ++ [c]) (readDouble .none s rest)
    | none =>
      if !isBreak c || atAnyDocumentMark rest then .error .yaml
      else prepend gap.text (readDouble (.lines .none []) s rest)
  | c :: rest =>
    let s := s.step c rest
    if c == '"' then .ok (gap.text, ⟨s, rest⟩)
    else if c == '\\' then .error .yaml
    else if isSpaceOrTab c then readDouble (gap.blank c) s rest
    else if endsLine c rest then
      if atAnyDocumentMark rest then .error .yaml else readDouble (gap.line c) s rest
    else if isBreak c then readDouble gap s rest
    else prepend (gap.text ++ [c]) (readDouble .none s rest)

def read (c : Cursor) : Except Fault (List Char × Cursor) :=
  let inside := c.next
  if c.head? == some '"' then readDouble .none inside.spot inside.rest
  else readSingle .none inside.spot inside.rest

end Dialogue.Yaml.Quoted
