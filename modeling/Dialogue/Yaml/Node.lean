import Dialogue.Yaml.Layout
import Dialogue.Yaml.Tag

/-! `Node.ofTokens` builds the tree of the single document that a text may hold. An alias stands for
the whole node that its anchor names; an anchor names one node, and no node holds itself. -/

namespace Dialogue.Yaml

/-- A tree of tagged scalars, lists and mappings. -/
inductive Node where
  | scalar (tag : Tag) (text : List Char)
  | list (tag : Tag) (items : List Node)
  | mapping (tag : Tag) (entries : List (Node × Node))

namespace Node

def empty : Node := .scalar .null []

/-- What the handles of tags stand for unless a directive says otherwise. -/
def defaultHandles : List (List Char × List Char) :=
  [(['!'], ['!']), (['!', '!'], Tag.namespacePrefix.toList)]

/-- The tokens to come, and the nodes that anchors name. A node that has no end yet is not there,
but its anchor is taken. -/
structure Parse where
  tokens : List Token
  handles : List (List Char × List Char) := defaultHandles
  anchors : List (List Char × Option Node) := []

abbrev Parser := StateT Parse (Except Fault)

def next? : Parser (Option Token) := do
  match (← get).tokens with
  | .broken f :: _ => throw f
  | tokens => return tokens.head?

def consume : Parser Unit :=
  modify fun p => { p with tokens := p.tokens.tail }

/-- The next token if it is what is looked for. -/
def accept? {α : Type} (select : Token → Option α) : Parser (Option α) := do
  match (← next?).bind select with
  | some found =>
    consume
    return some found
  | none => return none

/-- Whether the next token is one of those that leave a node empty. -/
def nextIs (p : Token → Bool) : Parser Bool := do
  return (← next?).any p

/-! ## Properties -/

structure Properties where
  anchor : Option (List Char) := none
  tag : Option (List Char) := none

def anchorOf? : Token → Option (List Char)
  | .anchor name => some name
  | _ => none

def tagOf? : Token → Option TagName
  | .tag name => some name
  | _ => none

def fullName (name : TagName) : Parser (List Char) := do
  match name.handle with
  | none => return name.suffix
  | some handle =>
    match (← get).handles.lookup handle with
    | some stands => return stands ++ name.suffix
    | none => throw .yaml

def properties : Parser Properties := do
  let anchor ← accept? anchorOf?
  let tag ← accept? tagOf?
  let anchor ← if anchor.isNone && tag.isSome then accept? anchorOf? else pure anchor
  match tag with
  | none => return { anchor := anchor }
  | some name => return { anchor := anchor, tag := some (← fullName name) }

def Properties.isOpen (p : Properties) : Bool :=
  p.tag == none || p.tag == some ['!']

def Properties.tagOr (p : Properties) (fallback : Tag) : Tag :=
  if p.isOpen then fallback else (p.tag.map Tag.ofName).getD fallback

/-- The tag of a scalar. Quotes around it make it a text, unless it has the tag of a lone mark. -/
def Properties.scalarTag (p : Properties) (plain : Bool) (text : List Char) : Tag :=
  p.tagOr (if plain || p.tag.isSome then Tag.ofPlain text else .text)

def begin (p : Properties) : Parser Unit := do
  match p.anchor with
  | none => return
  | some name =>
    if ((← get).anchors.lookup name).isSome then throw .yaml
    modify fun s => { s with anchors := (name, none) :: s.anchors }

def name (p : Properties) (n : Node) : Parser Node := do
  match p.anchor with
  | none => return n
  | some name =>
    modify fun s => { s with anchors := (name, some n) :: s.anchors }
    return n

def named (name : List Char) : Parser Node := do
  match (← get).anchors.lookup name with
  | some (some n) => return n
  | _ => throw .yaml

/-! ## Contents -/

def endsItem : Token → Bool
  | .item | .blockEnd => true
  | _ => false

def endsEntry : Token → Bool
  | .key | .value | .blockEnd => true
  | _ => false

def endsLooseItem (t : Token) : Bool :=
  endsItem t || endsEntry t

def endsFlowItem : Token → Bool
  | .comma | .flowSequenceEnd => true
  | _ => false

def endsFlowEntry : Token → Bool
  | .comma | .flowMappingEnd => true
  | _ => false

def isValue : Token → Bool
  | .value => true
  | _ => false

/-- Goes on behind a comma, which the first of several things does not need. -/
def separator (first : Bool) : Parser Unit := do
  if !first then
    match ← next? with
    | some .comma => consume
    | _ => throw .yaml

mutual

/-- A node. Every step of the descent uses up some fuel, of which four for every token are
enough. Inside a block a node may be a block; the items of a list may stand without a block of
their own (`loose`) right below the key of a mapping. -/
def readNode (inBlock loose : Bool) : Nat → Parser Node
  | 0 => throw .yaml
  | fuel + 1 => do
    match ← next? with
    | some (.alias anchor) =>
      consume
      named anchor
    | _ =>
      let p ← properties
      begin p
      name p (← readContent inBlock loose p fuel)

def readContent (inBlock loose : Bool) (p : Properties) : Nat → Parser Node
  | 0 => throw .yaml
  | fuel + 1 => do
    match ← next? with
    | some (.scalar plain text) =>
      consume
      return .scalar (p.scalarTag plain text) text
    | some .flowSequence =>
      consume
      return .list (p.tagOr .list) (← readFlowItems true fuel)
    | some .flowMapping =>
      consume
      return .mapping (p.tagOr .mapping) (← readFlowEntries true fuel)
    | token =>
      match token, inBlock, loose with
      | some .item, _, true => return .list (p.tagOr .list) (← readLooseItems fuel)
      | some .blockSequence, true, _ =>
        consume
        return .list (p.tagOr .list) (← readItems fuel)
      | some .blockMapping, true, _ =>
        consume
        return .mapping (p.tagOr .mapping) (← readEntries fuel)
      | _, _, _ =>
        if p.anchor.isNone && p.tag.isNone then throw .yaml
        return .scalar (p.tagOr .null) []

/-- A node that may be missing in front of certain tokens. -/
def readOptional (ends : Token → Bool) (inBlock loose : Bool) : Nat → Parser Node
  | 0 => throw .yaml
  | fuel + 1 => do
    if ← nextIs ends then return empty
    readNode inBlock loose fuel

/-- A node behind the mark of a value. Without the mark it is missing. -/
def readValue (ends : Token → Bool) (inBlock : Bool) : Nat → Parser Node
  | 0 => throw .yaml
  | fuel + 1 => do
    if !(← nextIs isValue) then return empty
    consume
    readOptional ends inBlock inBlock fuel

def readItems : Nat → Parser (List Node)
  | 0 => throw .yaml
  | fuel + 1 => do
    match ← next? with
    | some .item =>
      consume
      let item ← readOptional endsItem true false fuel
      return item :: (← readItems fuel)
    | some .blockEnd =>
      consume
      return []
    | _ => throw .yaml

def readLooseItems : Nat → Parser (List Node)
  | 0 => throw .yaml
  | fuel + 1 => do
    match ← next? with
    | some .item =>
      consume
      let item ← readOptional endsLooseItem true false fuel
      return item :: (← readLooseItems fuel)
    | _ => return []

def readEntries : Nat → Parser (List (Node × Node))
  | 0 => throw .yaml
  | fuel + 1 => do
    match ← next? with
    | some .key =>
      consume
      let key ← readOptional endsEntry true true fuel
      let value ← readValue endsEntry true fuel
      return (key, value) :: (← readEntries fuel)
    | some .blockEnd =>
      consume
      return []
    | _ => throw .yaml

/-- The items of a list in brackets. An item may be a mapping of one entry. -/
def readFlowItems (first : Bool) : Nat → Parser (List Node)
  | 0 => throw .yaml
  | fuel + 1 => do
    if let some .flowSequenceEnd ← next? then
      consume
      return []
    separator first
    match ← next? with
    | some .flowSequenceEnd =>
      consume
      return []
    | some .key =>
      consume
      let key ← readOptional (fun t => isValue t || endsFlowItem t) false false fuel
      let value ← readValue endsFlowItem false fuel
      return .mapping .mapping [(key, value)] :: (← readFlowItems false fuel)
    | _ =>
      let item ← readNode false false fuel
      return item :: (← readFlowItems false fuel)

/-- The entries of a mapping in braces. An entry may be a key alone. -/
def readFlowEntries (first : Bool) : Nat → Parser (List (Node × Node))
  | 0 => throw .yaml
  | fuel + 1 => do
    if let some .flowMappingEnd ← next? then
      consume
      return []
    separator first
    match ← next? with
    | some .flowMappingEnd =>
      consume
      return []
    | some .key =>
      consume
      let key ← readOptional (fun t => isValue t || endsFlowEntry t) false false fuel
      let value ← readValue endsFlowEntry false fuel
      return (key, value) :: (← readFlowEntries false fuel)
    | _ =>
      let key ← readNode false false fuel
      return (key, empty) :: (← readFlowEntries false fuel)

end

/-! ## Documents -/

structure Directives where
  hasVersion : Bool := false
  handles : List (List Char × List Char) := []

/-- Reads the directives in front of a document. There is one version of the format, given once;
no handle is given twice. -/
def readDirectives (seen : Directives) : List Token → Except Fault (Directives × List Token)
  | .directive (.version major _) :: rest =>
    if seen.hasVersion || major != 1 then .error .yaml
    else readDirectives { seen with hasVersion := true } rest
  | .directive (.handle name stands) :: rest =>
    if (seen.handles.lookup name).isSome then .error .yaml
    else readDirectives { seen with handles := (name, stands) :: seen.handles } rest
  | .directive .other :: rest => readDirectives seen rest
  | rest => .ok (seen, rest)

def endsDocument : Token → Bool
  | .directive _ | .documentStart | .documentEnd => true
  | _ => false

/-- The node of a document whose directives and start are read, and the tokens behind it. -/
def readDocument (p : Parse) : Except Fault (Node × List Token) := do
  let fuel := 4 * p.tokens.length + 4
  let (n, p) ← (readNode true false fuel).run p
  return (n, p.tokens)

def finish : List Token → Except Fault Unit
  | [] => .ok ()
  | .documentEnd :: rest => finish rest
  | .broken f :: _ => .error f
  | _ => .error .yaml

/-- The node of the only document; none if there is no document. -/
def ofTokens (tokens : List Token) : Except Fault (Option Node) := do
  match tokens with
  | [] => return none
  | .directive _ :: _ | .documentStart :: _ =>
    let (directives, rest) ← readDirectives {} tokens
    match rest with
    | .documentStart :: rest =>
      let (n, rest) ←
        if rest.head?.all endsDocument then pure (empty, rest)
        else readDocument { tokens := rest, handles := directives.handles ++ defaultHandles }
      finish rest
      return some n
    | .broken f :: _ => throw f
    | _ => throw .yaml
  | tokens =>
    let (n, rest) ← readDocument { tokens := tokens }
    finish rest
    return some n

end Node

end Dialogue.Yaml
