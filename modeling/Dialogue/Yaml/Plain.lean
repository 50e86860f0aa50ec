import Dialogue.Yaml.Cursor

/-! A plain text stands without quotes. It is made of words; the spaces and line ends between them
belong to it, those behind the last one do not. -/

namespace Dialogue.Yaml.Plain

/-- The marks that end a plain text inside brackets. -/
def flowMarks : List Char := [',', '?', '[', ']', '{', '}']

/-- Whether a word ends in front of a text. A colon ends it if it is followed by a gap. -/
def endsWord (inFlow : Bool) : List Char → Bool
  | [] => true
  | c :: rest =>
    isGap c || (inFlow && flowMarks.contains c)
      || (c == ':' && stopsAt (fun d => isGap d || (inFlow && d != '?' && flowMarks.contains d))
        rest)

def takeWord (inFlow : Bool) : List Char → List Char
  | [] => []
  | c :: rest => if endsWord inFlow (c :: rest) then [] else c :: takeWord inFlow rest

/-- The line ends behind the first one of a gap; none where a document ends there. -/
def moreBreaks (s : Spot) : List Char → Option (List Char) × Cursor
  | [] => (some [], ⟨s, []⟩)
  | c :: rest =>
    if !(c == ' ' || isBreak c) then (some [], ⟨s, c :: rest⟩)
    else if !endsLine c rest then moreBreaks (s.step c rest) rest
    else if atAnyDocumentMark rest then (none, ⟨s.step c rest, rest⟩)
    else
      let (more, behind) := moreBreaks (s.step c rest) rest
      (more.map (breakChar c :: ·), behind)

structure Gap where
  /-- What it counts as; nothing where the plain text has to end. -/
  text : List Char
  crossesLine : Bool
  behind : Cursor

def takeGap (c : Cursor) : Gap :=
  let (spaces, c) := c.takeWhile (· == ' ')
  match c.lineBreak with
  | (none, _) => ⟨spaces, false, c⟩
  | (some first, c) =>
    if atAnyDocumentMark c.rest then ⟨[], true, c⟩
    else match moreBreaks c.spot c.rest with
      | (none, c) => ⟨[], true, c⟩
      | (some more, c) => ⟨foldBreaks first more, true, c⟩

/-- Whether a plain text ends with a gap: no word comes behind it, or a comment, or a line that
does not reach the margin. -/
def endsAt (inFlow : Bool) (margin : Nat) (gap : Gap) : Bool :=
  gap.text.isEmpty || gap.behind.head? == some '#'
    || (!inFlow && decide (gap.behind.column < margin)) || endsWord inFlow gap.behind.rest

/-- The plain text at a cursor, and the gap behind it. There are no more words than `fuel`. -/
def readWords (inFlow : Bool) (margin : Nat) : Nat → Cursor → List Char × Gap
  | 0, c => ([], ⟨[], false, c⟩)
  | fuel + 1, c =>
    let word := takeWord inFlow c.rest
    let gap := takeGap (c.skip word.length)
    if endsAt inFlow margin gap then (word, gap)
    else
      let (more, last) := readWords inFlow margin fuel gap.behind
      (word ++ gap.text ++ more, last)

def read (inFlow : Bool) (margin : Nat) (c : Cursor) : List Char × Gap :=
  readWords inFlow margin c.rest.length c

/-- Whether a plain text may begin here. Most marks cannot begin one; three of them can if they
are followed by a word. -/
def beginsAt (inFlow : Bool) : List Char → Bool
  | [] => false
  | c :: rest =>
    if isGap c then false
    else if c == '-' || (!inFlow && (c == '?' || c == ':')) then !stopsAt isGap rest
    else !("-?:,[]\x7b\x7d#&*!|>'\"%@\x60".toList.contains c)

end Dialogue.Yaml.Plain
