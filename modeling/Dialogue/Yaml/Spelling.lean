/-! The spellings by which a plain text is a truth value, a number, nothing, or a time. -/

namespace Dialogue.Yaml.Spelling

def isDigitOrLine (c : Char) : Bool :=
  c.isDigit || c == '_'

def dropSign : List Char → List Char
  | c :: rest => if c == '-' || c == '+' then rest else c :: rest
  | [] => []

def isTruthWord (text : List Char) : Bool :=
  ["yes", "Yes", "YES", "no", "No", "NO", "true", "True", "TRUE", "false", "False", "FALSE",
   "on", "On", "ON", "off", "Off", "OFF"].any fun word => text == word.toList

def isNullWord (text : List Char) : Bool :=
  ["~", "null", "Null", "NULL", ""].any fun word => text == word.toList

/-- Whether a text is a digit with further digits and underscores behind it. -/
def isNumeral : List Char → Bool
  | c :: rest => c.isDigit && rest.all isDigitOrLine
  | [] => false

/-- Whether a text is the number of a place in base sixty: one digit, or two of which the first is
less than six. -/
def isSixtieth : List Char → Bool
  | [a] => a.isDigit
  | [a, b] => a.isDigit && decide (a ≤ '5') && b.isDigit
  | _ => false

def splitAt (separator : Char) (text : List Char) : List (List Char) :=
  text.splitOn separator

/-- Whether a text is a numeral in base sixty of two places at least. -/
def isSexagesimal (text : List Char) : Bool :=
  match splitAt ':' text with
  | first :: second :: more => isNumeral first && (second :: more).all isSixtieth
  | _ => false

/-- Whether a text is empty or an exponent with its sign. -/
def isExponent : List Char → Bool
  | [] => true
  | mark :: sign :: digit :: digits =>
    (mark == 'e' || mark == 'E') && (sign == '-' || sign == '+')
      && (digit :: digits).all Char.isDigit
  | _ => false

/-- Whether a text is digits and underscores with an exponent that may be missing. -/
def isFraction (text : List Char) : Bool :=
  isExponent (text.dropWhile isDigitOrLine)

def atPoint (text : List Char) : Option (List Char × List Char) :=
  match text.span (· != '.') with
  | (whole, _ :: part) => some (whole, part)
  | _ => none

def isFloatWord (text : List Char) : Bool :=
  [".inf", ".Inf", ".INF"].any (fun word => dropSign text == word.toList)
    || [".nan", ".NaN", ".NAN"].any fun word => text == word.toList

def isFloat (text : List Char) : Bool :=
  isFloatWord text ||
    match atPoint text with
    | some ([], digit :: part) => digit.isDigit && isFraction part
    | some (whole, part) =>
      (isNumeral (dropSign whole) && isFraction part)
        || (isSexagesimal (dropSign whole) && part.all isDigitOrLine)
    | none => false

def isInt (text : List Char) : Bool :=
  match dropSign text with
  | ['0'] => true
  | '0' :: 'b' :: digit :: digits =>
    (digit :: digits).all fun c => c == '0' || c == '1' || c == '_'
  | '0' :: 'x' :: digit :: digits =>
    (digit :: digits).all fun c =>
      isDigitOrLine c || ('a' ≤ c && c ≤ 'f') || ('A' ≤ c && c ≤ 'F')
  | '0' :: digits => digits.all fun c => ('0' ≤ c && c ≤ '7') || c == '_'
  | text => isNumeral text || isSexagesimal text

/-! ## Times -/

/-- A text behind at least `least` and at most `most` digits. -/
def dropDigits? (least most : Nat) (text : List Char) : Option (List Char) :=
  let count := ((text.take most).takeWhile Char.isDigit).length
  if least ≤ count then some (text.drop count) else none

def dropChar? (char : Char) : List Char → Option (List Char)
  | c :: rest => if c == char then some rest else none
  | [] => none

def isBlankOrTab (c : Char) : Bool :=
  c == ' ' || c == '\t'

def isDate (text : List Char) : Bool :=
  let behind? := do
    let text ← dropDigits? 4 4 text
    let text ← dropChar? '-' text
    let text ← dropDigits? 2 2 text
    let text ← dropChar? '-' text
    dropDigits? 2 2 text
  behind? == some []

def isZone (text : List Char) : Bool :=
  match text.dropWhile isBlankOrTab with
  | [] => text.isEmpty
  | ['Z'] => true
  | sign :: offset =>
    (sign == '-' || sign == '+') &&
      match dropDigits? 1 2 offset with
      | some [] => true
      | some (':' :: minutes) => dropDigits? 2 2 minutes == some []
      | _ => false

def dropPart : List Char → List Char
  | '.' :: rest => rest.dropWhile Char.isDigit
  | text => text

def isMoment (text : List Char) : Bool :=
  let behind? := do
    let text ← dropDigits? 4 4 text
    let text ← dropChar? '-' text
    let text ← dropDigits? 1 2 text
    let text ← dropChar? '-' text
    let text ← dropDigits? 1 2 text
    let text ← match text with
      | [] => none
      | c :: rest =>
        if c == 'T' || c == 't' then some rest
        else if isBlankOrTab c then some (rest.dropWhile isBlankOrTab) else none
    let text ← dropDigits? 1 2 text
    let text ← dropChar? ':' text
    let text ← dropDigits? 2 2 text
    let text ← dropChar? ':' text
    dropDigits? 2 2 text
  match behind? with
  | some rest => isZone (dropPart rest)
  | none => false

end Dialogue.Yaml.Spelling
