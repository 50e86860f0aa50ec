import Dialogue.Fault
import Dialogue.Yaml.Cursor

/-! A block text is made of the lines below its indicator that are indented far enough. `|` keeps
the line ends, `>` folds them between lines that do not begin with a blank. -/

namespace Dialogue.Yaml.Block

/-- What becomes of the line ends behind the last line. -/
inductive Chomping where
  | strip
  | clip
  | keep
  deriving DecidableEq

structure Header where
  folded : Bool
  chomping : Chomping := .clip
  /-- The indentation of the lines relative to their surroundings, where it is given. -/
  indentation : Option Nat := none

def chomping? (c : Char) : Option Chomping :=
  if c = '+' then some .keep else if c = '-' then some .strip else none

def digit? (c : Char) : Option Nat :=
  if c.isDigit then some (c.toNat - 48) else none

/-- The chomping and the indentation behind an indicator, in either order, and how many
characters they take. -/
def Header.ofText (folded : Bool) (text : List Char) : Header × Nat :=
  match text with
  | a :: rest =>
    let b := rest.head?
    match chomping? a, digit? a with
    | some chomping, _ =>
      match b.bind digit? with
      | some n => (⟨folded, chomping, some n⟩, 2)
      | none => (⟨folded, chomping, none⟩, 1)
    | none, some n =>
      match b.bind chomping? with
      | some chomping => (⟨folded, chomping, some n⟩, 2)
      | none => (⟨folded, .clip, some n⟩, 1)
    | none, none => (⟨folded, .clip, none⟩, 0)
  | [] => (⟨folded, .clip, none⟩, 0)

/-- Empty lines, the widest indentation among them and the first other line, and that line from
its text on. -/
def leadingBreaks (s : Spot) : List Char → List Char × Nat × Cursor
  | [] => ([], 0, ⟨s, []⟩)
  | c :: rest =>
    if c == ' ' then
      let (breaks, widest, behind) := leadingBreaks (s.step c rest) rest
      (breaks, max (s.column + 1) widest, behind)
    else if isBreak c then
      let (breaks, widest, behind) := leadingBreaks (s.step c rest) rest
      (if endsLine c rest then breakChar c :: breaks else breaks, widest, behind)
    else ([], 0, ⟨s, c :: rest⟩)

/-- Empty lines and the indentation of the line behind them, which is at most `indent`. -/
def moreBreaks (indent : Nat) (s : Spot) : List Char → List Char × Cursor
  | [] => ([], ⟨s, []⟩)
  | c :: rest =>
    if (c == ' ' && decide (s.column < indent)) || isBreak c then
      let (breaks, behind) := moreBreaks indent (s.step c rest) rest
      (if endsLine c rest then breakChar c :: breaks else breaks, behind)
    else ([], ⟨s, c :: rest⟩)

/-- What is between two lines: the end of the first one and the empty lines behind it. -/
def separator (folded : Bool) (line : List Char) (lineBreak : Option Char)
    (breaks next : List Char) : List Char :=
  if folded && lineBreak == some '\n' && !stopsAt isSpaceOrTab line
      && !stopsAt isSpaceOrTab next then
    if breaks.isEmpty then [' '] else breaks
  else lineBreak.toList ++ breaks

/-- The lines of a block: their text, the end of the last one, and the empty lines behind it.
There are no more lines than `fuel`. -/
def readLines (folded : Bool) (indent : Nat) :
    Nat → Cursor → List Char × Option Char × List Char × Cursor
  | 0, c => ([], none, [], c)
  | fuel + 1, c =>
    let (line, c) := c.takeWhile (!isBreak ·)
    let (lineBreak, c) := c.lineBreak
    let (breaks, c) := moreBreaks indent c.spot c.rest
    if c.column == indent && !c.rest.isEmpty then
      let (more, last) := readLines folded indent fuel c
      (line ++ separator folded line lineBreak breaks c.rest ++ more, last)
    else (line, lineBreak, breaks, c)

/-- The block text whose indicator is at the cursor. Its lines begin at the margin or behind. -/
def read (margin : Nat) (c : Cursor) : Except Fault (List Char × Cursor) := do
  let inside := c.next
  let (header, width) := Header.ofText (c.head? == some '>') inside.rest
  if header.indentation = some 0 then throw .yaml
  let c := inside.skip width
  if !stopsAt (fun c => c == ' ' || isBreak c) c.rest then throw .yaml
  let c ← c.endLine
  let least := max 1 margin
  let (breaks, indent, c) := match header.indentation with
    | none =>
      let (breaks, widest, c) := leadingBreaks c.spot c.rest
      (breaks, max least widest, c)
    | some n =>
      let indent := least + n - 1
      let (breaks, c) := moreBreaks indent c.spot c.rest
      (breaks, indent, c)
  let (text, lineBreak, tail, c) :=
    if c.column == indent && !c.rest.isEmpty then
      let (text, last) := readLines header.folded indent c.rest.length c
      (breaks ++ text, last)
    else ([], none, breaks, c)
  let last := match header.chomping with
    | .strip => []
    | .clip => lineBreak.toList
    | .keep => lineBreak.toList ++ tail
  return (text ++ last, c)

end Dialogue.Yaml.Block
