import Dialogue.Decimal.Shortest
import Dialogue.Text.Quoted
import Dialogue.Value.Basic

/-! Messages show values in two ways: `display` shows a text as it is, and `quoted` shows it in
quotes. Inside lists and mappings all texts are quoted. -/

namespace Dialogue

/-- Doubles are positional from 0.0001 up to sixteen digits before the point, and show a point or
an exponent of two digits at least. -/
def floatText : Decimal.FloatLayout :=
  { leastPlace := -3
    greatestPlace := 16
    exponentDigits := 2
    infinity := ['i', 'n', 'f']
    notANumber := ['n', 'a', 'n'] }

def quotedText (s : String) : String :=
  String.ofList (Text.quoted s.toList)

def AssetClass.name : AssetClass → String
  | .asset => "Asset"
  | .clip => "Clip"
  | .portrait => "Portrait"
  | .voiceClip => "VoiceClip"

/-- Bytes between quotes, all but the printable ones of ASCII escaped. -/
def quotedBytes (content : List UInt8) : String :=
  let chars := content.map fun b => Char.ofNat b.toNat
  let quote := Text.quoteFor chars
  let one (c : Char) : List Char :=
    if c = quote ∨ c = '\\' then ['\\', c]
    else if c = '\n' then ['\\', 'n']
    else if c = '\r' then ['\\', 'r']
    else if c = '\t' then ['\\', 't']
    else if ' ' ≤ c ∧ c ≤ '~' then [c]
    else Text.escapeCode c.toNat
  String.ofList ('b' :: quote :: chars.flatMap one ++ [quote])

namespace Scalar

def quoted : Scalar → String
  | .null => "None"
  | .bool b => if b then "True" else "False"
  | .int n => toString n
  | .float x => String.ofList (floatText.render x)
  | .text t => String.ofList t.quoted
  | .bytes content => quotedBytes content
  | .asset c number => c.name ++ "(" ++ toString number ++ ")"

def display : Scalar → String
  | .text t => t.shown
  | s => s.quoted

def kindName : Scalar → String
  | .null => "NoneType"
  | .bool _ => "bool"
  | .int _ => "int"
  | .float _ => "float"
  | .text _ => "str"
  | .bytes _ => "bytes"
  | .asset c _ => c.name

end Scalar

namespace Value

mutual

def quoted : Value → String
  | .scalar s => s.quoted
  | .list items => "[" ++ ", ".intercalate (quotedItems items) ++ "]"
  | .mapping entries => "\x7b" ++ ", ".intercalate (quotedEntries entries) ++ "\x7d"
termination_by structural v => v

def quotedItems : List Value → List String
  | [] => []
  | v :: rest => v.quoted :: quotedItems rest
termination_by structural v => v

def quotedEntries : List (Scalar × Value) → List String
  | [] => []
  | (k, v) :: rest => (k.quoted ++ ": " ++ v.quoted) :: quotedEntries rest
termination_by structural v => v

end

def display : Value → String
  | .scalar s => s.display
  | v => v.quoted

def toText : Value → Scalar
  | .scalar (.text t) => .text t
  | v => .text v.display

def kindName : Value → String
  | .scalar s => s.kindName
  | .list _ => "list"
  | .mapping _ => "dict"

end Value

end Dialogue
