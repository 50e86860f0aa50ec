import Dialogue.Fault
import Dialogue.Yaml.Style

/-! A value becomes nested blocks with their entries in order. Lists below a key are not
indented. -/

namespace Dialogue.Yaml

def indentation : Nat := 2

/-- The name of a tag on a scalar, by which the length of a key is reckoned. -/
def Tag.shorthand : Tag → List Char
  | .null => "!!null".toList
  | .bool => "!!bool".toList
  | .int => "!!int".toList
  | .float => "!!float".toList
  | _ => "!!str".toList

/-- Keys of this length with their tag are written behind a question mark. -/
def longKey : Nat := 128

def isSimpleKey (tag : Tag) (text : List Char) : Bool :=
  decide (tag.shorthand.length + text.length < longKey) && !text.isEmpty
    && !text.any Page.isWrittenBreak

namespace Page

/-- Puts the mark of an item, or that in front of a long key or its value. -/
def putMark (p : Page) (c : Char) : Page :=
  p.mark c true

def putKey (p : Page) (indent : Nat) (tag : Tag) (text : List Char) : Page :=
  let p := p.indentTo indent
  if isSimpleKey tag text then (p.putScalar false (indent + indentation) tag text).closing [':']
  else
    let p := (p.putMark '?').putScalar true (indent + indentation) tag text
    (p.indentTo indent).putMark ':'

def blockColumn : Option Nat → Nat
  | none => 0
  | some outer => outer + indentation

/-- The column of a list. Below a key on the same line it is that of the mapping. -/
def listColumn (p : Page) (outer : Option Nat) (belowKey : Bool) : Nat :=
  if belowKey && !p.inMargin then outer.getD 0 else blockColumn outer

end Page

mutual

def putValue (outer : Option Nat) (belowKey : Bool) : Value → Page → Option Page
  | .scalar s, p =>
    (written? s).map fun (tag, text) => p.putScalar true (outer.getD 0 + indentation) tag text
  | .list [], p => some ((p.mark '[' false).closing [']'])
  | .list (v :: rest), p => putItems (p.listColumn outer belowKey) (v :: rest) p
  | .mapping [], p => some ((p.mark '{' false).closing ['}'])
  | .mapping (e :: rest), p => putEntries (Page.blockColumn outer) (e :: rest) p
termination_by structural v => v

def putItems (indent : Nat) : List Value → Page → Option Page
  | [], p => some p
  | v :: rest, p =>
    match putValue (some indent) false v ((p.indentTo indent).putMark '-') with
    | some p => putItems indent rest p
    | none => none
termination_by structural v => v

def putEntries (indent : Nat) : List (Scalar × Value) → Page → Option Page
  | [], p => some p
  | (k, v) :: rest, p =>
    match written? k with
    | some (tag, text) =>
      match putValue (some indent) true v (p.putKey indent tag text) with
      | some p => putEntries indent rest p
      | none => none
    | none => none
termination_by structural v => v

end

/-- Whether a document is a plain scalar, which needs a mark behind it. -/
def isOpenEnded : Value → Bool
  | .scalar s => (written? s).any fun (tag, text) => Style.of tag text = .plain
  | _ => false

def render (v : Value) : Except Fault String :=
  match putValue none false v {} with
  | some p =>
    let p := p.indentTo 0
    .ok (String.ofList ((if isOpenEnded v then p.put "...\n".toList else p).text))
  | none => .error .yaml

end Dialogue.Yaml
