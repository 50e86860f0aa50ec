import Dialogue.Yaml.Spelling

/-! The kind of a node. A plain text without a tag gets its kind from how it is spelled. -/

namespace Dialogue.Yaml

inductive Tag where
  | null
  | bool
  | int
  | float
  | text
  | list
  | mapping
  /-- The key of a mapping to be merged into its own. -/
  | merge
  /-- The key of the value that stands for its mapping. -/
  | default
  | timestamp
  | other
  deriving DecidableEq

namespace Tag

def namespacePrefix : String := "tag:yaml.org,2002:"

def named : List (String × Tag) :=
  [("null", .null), ("bool", .bool), ("int", .int), ("float", .float), ("str", .text),
   ("seq", .list), ("map", .mapping), ("merge", .merge), ("value", .default),
   ("timestamp", .timestamp)]

def ofName (name : List Char) : Tag :=
  let found := named.find? fun (suffix, _) => name == (namespacePrefix ++ suffix).toList
  (found.map (·.2)).getD .other

/-- A text without a line feed at its end, unless that is all of it. -/
def dropLastFeed (text : List Char) : List Char :=
  if text ≠ ['\n'] && text.getLast? == some '\n' then text.dropLast else text

def ofPlain (text : List Char) : Tag :=
  let text := dropLastFeed text
  if Spelling.isTruthWord text then .bool
  else if Spelling.isFloat text then .float
  else if Spelling.isInt text then .int
  else if text == ['<', '<'] then .merge
  else if Spelling.isNullWord text then .null
  else if Spelling.isDate text || Spelling.isMoment text then .timestamp
  else if text == ['='] then .default
  else if text == ['!'] || text == ['&'] || text == ['*'] then .other
  else .text

end Tag

end Dialogue.Yaml
