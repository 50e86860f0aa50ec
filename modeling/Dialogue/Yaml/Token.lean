import Dialogue.Fault
import Dialogue.Text.Hexadecimal
import Dialogue.Text.Utf8
import Dialogue.Yaml.Cursor

/-! The parts that a text is made of, and the reading of those that are single words: anchors, tags
and directives. -/

namespace Dialogue.Yaml

/-- A tag as it is written: a full name, or a name under a handle. -/
structure TagName where
  handle : Option (List Char)
  suffix : List Char

inductive Directive where
  | version (major minor : Nat)
  /-- What a handle stands for. -/
  | handle (name stands : List Char)
  | other

inductive Token where
  | directive (d : Directive)
  | documentStart
  | documentEnd
  | blockSequence
  | blockMapping
  | blockEnd
  | flowSequence
  | flowSequenceEnd
  | flowMapping
  | flowMappingEnd
  | item
  | comma
  | key
  | value
  | alias (name : List Char)
  | anchor (name : List Char)
  | tag (name : TagName)
  | scalar (plain : Bool) (text : List Char)
  /-- What cannot be read, and why. Nothing comes behind it. -/
  | broken (fault : Fault)

namespace Token

/-! ## Anchors -/

def readName (c : Cursor) : Except Fault (List Char × Cursor) :=
  let (name, c) := c.next.takeWhile isWordChar
  if name.isEmpty || !stopsAt (fun d => isGap d || "?:,]\x7d%@\x60".toList.contains d) c.rest then
    .error .yaml
  else .ok (name, c)

/-! ## Tags -/

def isUriChar (c : Char) : Bool :=
  c.isAlphanum || "-;/?:@&=+$,_.!~*'()[]%".toList.contains c

/-- The characters of a tag. An escape is a percent sign with two hexadecimal digits; escapes in a
row are the UTF-8 bytes of characters. -/
def unescapeUri (escaped : List UInt8) : List Char → Except Fault (List Char)
  | '%' :: a :: b :: rest =>
    match Text.hexNumber? [a, b] with
    | some n => unescapeUri (UInt8.ofNat n :: escaped) rest
    | none => .error .yaml
  | c :: rest => do
    if c == '%' then throw .yaml
    let front ← flush escaped
    return front ++ c :: (← unescapeUri [] rest)
  | [] => flush escaped
where
  flush (escaped : List UInt8) : Except Fault (List Char) :=
    (Text.Utf8.decode escaped.reverse).mapError fun _ => .yaml

def readUri (c : Cursor) : Except Fault (List Char × Cursor) := do
  let (uri, c) := c.takeWhile isUriChar
  if uri.isEmpty then throw .yaml
  return (← unescapeUri [] uri, c)

/-- A handle: two exclamation marks with a word between them that may be empty, or a single mark
in front of a space. -/
def readHandle (c : Cursor) : Except Fault (List Char × Cursor) :=
  match c.rest with
  | '!' :: ' ' :: _ => .ok (['!'], c.next)
  | '!' :: _ =>
    let (word, behind) := c.next.takeWhile isWordChar
    if behind.head? == some '!' then .ok ('!' :: word ++ ['!'], behind.next) else .error .yaml
  | _ => .error .yaml

def hasMark (text : List Char) : Bool :=
  (text.takeWhile fun c => !(c == ' ' || isBreak c)).contains '!'

def endsWithSpace (text : List Char) : Bool :=
  stopsAt (fun c => c == ' ' || isBreak c) text

def readTag (c : Cursor) : Except Fault (TagName × Cursor) := do
  let (name, c) ←
    match c.rest.tail with
    | '<' :: _ =>
      let (suffix, c) ← readUri (c.skip 2)
      if c.head? != some '>' then throw .yaml
      pure (TagName.mk none suffix, c.next)
    | rest =>
      if stopsAt isGap rest then pure (TagName.mk none ['!'], c.next)
      else if hasMark rest then
        let (handle, c) ← readHandle c
        let (suffix, c) ← readUri c
        pure (TagName.mk (some handle) suffix, c)
      else
        let (suffix, c) ← readUri c.next
        pure (TagName.mk (some ['!']) suffix, c)
  if !endsWithSpace c.rest then throw .yaml
  return (name, c)

/-! ## Directives -/

def readNumber (c : Cursor) : Except Fault (Nat × Cursor) :=
  let (digits, c) := c.takeWhile Char.isDigit
  if digits.isEmpty then .error .yaml
  else .ok (digits.foldl (fun n d => 10 * n + (d.toNat - 48)) 0, c)

def readVersion (c : Cursor) : Except Fault (Directive × Cursor) := do
  let (major, c) ← readNumber c.skipSpaces
  if c.head? != some '.' then throw .yaml
  let (minor, c) ← readNumber c.next
  if !endsWithSpace c.rest then throw .yaml
  return (.version major minor, c)

def readHandleDirective (c : Cursor) : Except Fault (Directive × Cursor) := do
  let (name, c) ← readHandle c.skipSpaces
  if c.head? != some ' ' then throw .yaml
  let (stands, c) ← readUri c.skipSpaces
  if !endsWithSpace c.rest then throw .yaml
  return (.handle name stands, c)

def readDirective (c : Cursor) : Except Fault (Directive × Cursor) := do
  let (name, c) := c.next.takeWhile isWordChar
  if name.isEmpty || !endsWithSpace c.rest then throw .yaml
  let (result, c) ←
    if name = "YAML".toList then readVersion c
    else if name = "TAG".toList then readHandleDirective c
    else pure (Directive.other, c.dropWhile (!isBreak ·))
  return (result, ← c.endLine)

end Token

end Dialogue.Yaml
