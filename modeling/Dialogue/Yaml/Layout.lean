import Dialogue.Yaml.Block
import Dialogue.Yaml.Plain
import Dialogue.Yaml.Quoted
import Dialogue.Yaml.Token

/-! `Layout.tokens` reads a text as tokens, among them the starts and ends of blocks, which show in
the indentation alone. That something is a key shows only in the colon behind it, which has to come
on the same line and within 1024 characters; the marks in front of the key are put in then. -/

namespace Dialogue.Yaml

/-- Something that is a key if a colon follows. -/
structure PossibleKey where
  place : Nat
  /-- Whether it cannot be anything but a key. -/
  required : Bool
  spot : Spot

def keyReach : Nat := 1024

def PossibleKey.outOfReach (now : Spot) (k : PossibleKey) : Bool :=
  k.spot.line ≠ now.line || decide (keyReach < now.index - k.spot.index)

structure Layout where
  cursor : Cursor
  tokens : List Token := []
  /-- The first column inside the block at hand; zero outside of all blocks. -/
  margin : Nat := 0
  outerMargins : List Nat := []
  keyAllowed : Bool := true
  key : Option PossibleKey := none
  /-- The possible keys in front of the brackets that are open, innermost first. -/
  outerKeys : List (Option PossibleKey) := []

namespace Layout

def inFlow (l : Layout) : Bool :=
  !l.outerKeys.isEmpty

def emit (l : Layout) (t : Token) : Layout :=
  { l with tokens := t :: l.tokens }

/-- Puts tokens, last first, behind the first `place` ones. -/
def insert (l : Layout) (place : Nat) (new : List Token) : Layout :=
  let later := l.tokens.length - place
  { l with tokens := l.tokens.take later ++ new ++ l.tokens.drop later }

def advance (l : Layout) (n : Nat) : Layout :=
  { l with cursor := l.cursor.skip n }

/-! ## Keys -/

def allowKey (l : Layout) (allowed : Bool) : Layout :=
  { l with keyAllowed := allowed }

def dropKey (l : Layout) : Except Fault Layout :=
  if l.key.any (·.required) then .error .yaml else .ok { l with key := none }

def noteKey (l : Layout) : Except Fault Layout :=
  if l.keyAllowed then
    let required := !l.inFlow && l.margin == l.cursor.column + 1
    l.dropKey.map fun l => { l with key := some ⟨l.tokens.length, required, l.cursor.spot⟩ }
  else .ok l

def dropLateKeys (l : Layout) : Except Fault Layout :=
  let late (k : Option PossibleKey) : Bool := k.any (·.outOfReach l.cursor.spot)
  if (l.key :: l.outerKeys).any fun k => late k && k.any (·.required) then .error .yaml
  else
    let keep (k : Option PossibleKey) : Option PossibleKey := if late k then none else k
    .ok { l with key := keep l.key, outerKeys := l.outerKeys.map keep }

/-! ## Blocks -/

def closeBlocks (limit : Nat) (l : Layout) : Layout :=
  if l.inFlow then l else close l.margin l.outerMargins l.tokens
where
  close (margin : Nat) (outer : List Nat) (tokens : List Token) : Layout :=
    if margin ≤ limit then { l with margin := margin, outerMargins := outer, tokens := tokens }
    else match outer with
      | [] => { l with margin := 0, outerMargins := [], tokens := .blockEnd :: tokens }
      | m :: outer => close m outer (.blockEnd :: tokens)

/-- Begins a block at a column unless there is one. The token goes behind the first `place` ones. -/
def openBlock (l : Layout) (column place : Nat) (start : Token) : Layout :=
  if l.margin ≤ column then
    { l.insert place [start] with margin := column + 1, outerMargins := l.margin :: l.outerMargins }
  else l

/-- Begins a block at the cursor, which has to be at the beginning of its line or behind the mark
of an item. Between brackets there are no blocks. -/
def openBlockHere (l : Layout) (start : Token) : Except Fault Layout :=
  if l.inFlow then .ok l
  else if l.keyAllowed then .ok (l.openBlock l.cursor.column l.tokens.length start)
  else .error .yaml

/-! ## Marks -/

def endDocument (l : Layout) : Except Fault Layout := do
  return (← (l.closeBlocks 0).dropKey).allowKey false

def readDirective (l : Layout) : Except Fault Layout := do
  let l ← l.endDocument
  let (directive, cursor) ← Token.readDirective l.cursor
  return { l.emit (.directive directive) with cursor := cursor }

def readDocumentMark (l : Layout) (mark : Token) : Except Fault Layout := do
  return ((← l.endDocument).advance 3).emit mark

def openBracket (l : Layout) (mark : Token) : Except Fault Layout := do
  let l ← l.noteKey
  let inside := { l with outerKeys := l.key :: l.outerKeys, key := none }
  return ((inside.allowKey true).advance 1).emit mark

def closeBracket (l : Layout) (mark : Token) : Except Fault Layout := do
  let l ← l.dropKey
  match l.outerKeys with
  | [] => throw .yaml
  | key :: outer =>
    let outside := { l with outerKeys := outer, key := key }
    return ((outside.allowKey false).advance 1).emit mark

def readComma (l : Layout) : Except Fault Layout := do
  return (((← l.dropKey).allowKey true).advance 1).emit .comma

def readItem (l : Layout) : Except Fault Layout := do
  let l ← l.openBlockHere .blockSequence
  return (((← l.dropKey).allowKey true).advance 1).emit .item

def readKey (l : Layout) : Except Fault Layout := do
  let l ← l.openBlockHere .blockMapping
  return (((← l.dropKey).allowKey !l.inFlow).advance 1).emit .key

/-- A colon makes the possible key a key. Without one, the key is empty. -/
def readColon (l : Layout) : Except Fault Layout := do
  match l.key with
  | some k =>
    let l := { l with key := none }.insert k.place [.key]
    let l := if l.inFlow then l else l.openBlock k.spot.column k.place .blockMapping
    return ((l.allowKey false).advance 1).emit .value
  | none =>
    let l ← l.openBlockHere .blockMapping
    return ((l.allowKey !l.inFlow).advance 1).emit .value

/-! ## Content -/

def readContent {α : Type} (l : Layout) (read : Cursor → Except Fault (α × Cursor))
    (token : α → Token) : Except Fault Layout := do
  let l ← l.noteKey
  let (content, cursor) ← read l.cursor
  return { (l.allowKey false).emit (token content) with cursor := cursor }

def readBlock (l : Layout) : Except Fault Layout := do
  let l ← (l.allowKey true).dropKey
  let (text, cursor) ← Block.read l.margin l.cursor
  return { l.emit (.scalar false text) with cursor := cursor }

def readPlain (l : Layout) : Except Fault Layout := do
  let l ← l.noteKey
  let (text, gap) := Plain.read l.inFlow l.margin l.cursor
  return { (l.allowKey gap.crossesLine).emit (.scalar true text) with cursor := gap.behind }

def readToken (l : Layout) : Except Fault Layout :=
  match l.cursor.rest with
  | [] => .ok l
  | c :: rest =>
    let atStart := l.cursor.column == 0
    if atStart && c == '%' then l.readDirective
    else if atStart && atDocumentMark '-' (c :: rest) then l.readDocumentMark .documentStart
    else if atStart && atDocumentMark '.' (c :: rest) then l.readDocumentMark .documentEnd
    else if c == '[' then l.openBracket .flowSequence
    else if c == '{' then l.openBracket .flowMapping
    else if c == ']' then l.closeBracket .flowSequenceEnd
    else if c == '}' then l.closeBracket .flowMappingEnd
    else if c == ',' then l.readComma
    else if c == '-' && stopsAt isGap rest then l.readItem
    else if c == '?' && (l.inFlow || stopsAt isGap rest) then l.readKey
    else if c == ':' && (l.inFlow || stopsAt isGap rest) then l.readColon
    else if c == '*' then l.readContent Token.readName .alias
    else if c == '&' then l.readContent Token.readName .anchor
    else if c == '!' then l.readContent Token.readTag .tag
    else if (c == '|' || c == '>') && !l.inFlow then l.readBlock
    else if c == '\'' || c == '"' then l.readContent Quoted.read (.scalar false)
    else if Plain.beginsAt l.inFlow (c :: rest) then l.readPlain
    else .error .yaml

/-! ## Whole texts -/

/-- Whether a line end comes before the next token, and where that token begins. -/
def toToken (inComment crossed : Bool) (s : Spot) : List Char → Bool × Cursor
  | [] => (crossed, ⟨s, []⟩)
  | c :: rest =>
    if isBreak c then toToken false true (s.step c rest) rest
    else if inComment || c == ' ' then toToken inComment crossed (s.step c rest) rest
    else if c == '#' then toToken true crossed (s.step c rest) rest
    else (crossed, ⟨s, c :: rest⟩)

/-- Moves to the next token. A key may begin on every new line outside of brackets. -/
def skipGap (l : Layout) : Layout :=
  let (crossed, cursor) := toToken false false l.cursor.spot l.cursor.rest
  { l with cursor := cursor, keyAllowed := l.keyAllowed || (crossed && !l.inFlow) }

def toNext (l : Layout) : Except Fault Layout := do
  let l ← l.skipGap.dropLateKeys
  return l.closeBlocks (l.cursor.column + 1)

/-- The number of tokens that stay as they are: nothing is put in front of them any more. -/
def settled (l : Layout) : Nat :=
  let keys := (l.key :: l.outerKeys).filterMap id
  let alive := keys.filter fun k => !k.outOfReach l.cursor.spot
  alive.foldl (fun n k => min n k.place) l.tokens.length

/-- The settled tokens of a text that cannot be read any further. -/
def breakOff (l : Layout) (f : Fault) : List Token :=
  l.tokens.reverse.take l.settled ++ [.broken f]

/-- The tokens up to the end of the text. There are no more than `fuel` to come. -/
def readAll (fuel : Nat) (l : Layout) : List Token :=
  match l.toNext with
  | .error f => l.breakOff f
  | .ok next =>
    match next.cursor.rest, fuel with
    | [], _ | _, 0 =>
      match next.endDocument with
      | .ok last => last.tokens.reverse
      | .error f => l.breakOff f
    | _, fuel + 1 =>
      match next.readToken with
      | .ok next => readAll fuel next
      | .error f => l.breakOff f

def withoutMark (c : Cursor) : Cursor :=
  if c.head? == some '\ufeff' then c.next else c

def isReadable (c : Char) : Bool :=
  c == '\t' || c == '\n' || c == '\r' || c == '\x85'
    || [(0x20, 0x7e), (0xa0, 0xd7ff), (0xe000, 0xfffd), (0x10000, 0x10ffff)].any fun (low, high) =>
      decide (low ≤ c.toNat ∧ c.toNat ≤ high)

def tokensOf (text : List Char) : List Token :=
  if !text.all isReadable then [.broken .yaml]
  else readAll text.length { cursor := withoutMark (.ofText text) }

end Layout

end Dialogue.Yaml
