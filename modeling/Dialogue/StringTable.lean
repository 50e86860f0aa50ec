import Dialogue.Csv
import Dialogue.Text.Blank
import Dialogue.Value.Display

/-! A string table is a text with a header and one record per line of dialogue. It is written with
the columns in a fixed order and read with them in any order, with further columns allowed. A table
is read as a whole or not at all. -/

namespace Dialogue

namespace StringTable

structure Entry where
  id : String
  language : String
  text : String
  file : String := ""
  node : String := ""
  lineNumber : String := ""
  lock : String := ""
  comment : String := ""
  deriving DecidableEq

def Entry.withLanguage (e : Entry) (language : String) : Entry :=
  { e with language := language }

/-- The columns in the order in which they are written. -/
inductive Column where
  | language
  | id
  | text
  | file
  | node
  | lineNumber
  | lock
  | comment
  deriving DecidableEq

def Column.all : List Column :=
  [.language, .id, .text, .file, .node, .lineNumber, .lock, .comment]

theorem Column.mem_all (c : Column) : c ∈ Column.all := by
  cases c <;> decide

def Column.name : Column → String
  | .language => "language"
  | .id => "id"
  | .text => "text"
  | .file => "file"
  | .node => "node"
  | .lineNumber => "lineNumber"
  | .lock => "lock"
  | .comment => "comment"

def Entry.field (e : Entry) : Column → String
  | .language => e.language
  | .id => e.id
  | .text => e.text
  | .file => e.file
  | .node => e.node
  | .lineNumber => e.lineNumber
  | .lock => e.lock
  | .comment => e.comment

/-- The entry that has `field c` in each column `c`. -/
def Entry.ofFields (field : Column → String) : Entry :=
  { id := field .id
    language := field .language
    text := field .text
    file := field .file
    node := field .node
    lineNumber := field .lineNumber
    lock := field .lock
    comment := field .comment }

theorem Entry.ofFields_field (e : Entry) : Entry.ofFields e.field = e := rfl

inductive Fault where
  | empty
  | unreadableHeader (fault : Csv.Fault)
  | missingColumns (names : List String)
  | duplicateColumns (header : List String)
  | fieldCount (line found expected : Nat)
  | unreadableRecord (line : Nat) (fault : Csv.Fault)
  deriving DecidableEq

def quotedNames (names : List String) : String :=
  "[" ++ ", ".intercalate (names.map quotedText) ++ "]"

def Fault.message : Fault → String
  | .empty => "String table is empty"
  | .unreadableHeader f => "Unreadable string table header: " ++ f.message
  | .missingColumns names => "Missing required columns: " ++ quotedNames names
  | .duplicateColumns header => "Duplicate columns in header: " ++ quotedNames header
  | .fieldCount line found expected =>
    "Row " ++ toString line ++ " has " ++ toString found ++ " fields, expected "
      ++ toString expected
  | .unreadableRecord line f => "Error parsing row " ++ toString line ++ ": " ++ f.message

/-! ## Writing -/

def header : List (List Char) :=
  Column.all.map fun c => c.name.toList

def Entry.fields (e : Entry) : List (List Char) :=
  Column.all.map fun c => (e.field c).toList

def encodeChars (entries : List Entry) : List Char :=
  Csv.writeRecord header ++ entries.flatMap fun e => Csv.writeRecord e.fields

def encode (entries : List Entry) : String :=
  String.ofList (encodeChars entries)

/-! ## Reading -/

def fieldUnder (header : List String) (fields : List (List Char)) (c : Column) : String :=
  ((header.zip fields).lookup c.name).elim "" String.ofList

def entryOf (header : List String) (record : Csv.Record) : Except Fault Entry :=
  if record.fields.length = header.length then
    .ok (.ofFields (fieldUnder header record.fields))
  else .error (.fieldCount record.line record.fields.length header.length)

/-- The names in a header without surrounding blanks, with every column there and none twice. -/
def checkHeader (fields : List (List Char)) : Except Fault (List String) :=
  let names := fields.map fun f => String.ofList (Text.strip f)
  let missing := (Column.all.map Column.name).filter fun name => !names.contains name
  if missing ≠ [] then .error (.missingColumns missing)
  else if names.Nodup then .ok names
  else .error (.duplicateColumns names)

/-- The entries of a reading. Blank lines do not count. -/
def ofReading (reading : Csv.Reading) : Except Fault (List Entry) :=
  match reading.records.filter fun r => !r.fields.isEmpty with
  | [] =>
    match reading.fault with
    | some f => .error (.unreadableHeader f)
    | none => .error .empty
  | first :: rest =>
    match checkHeader first.fields with
    | .error e => .error e
    | .ok names =>
      match rest.mapM (entryOf names) with
      | .error e => .error e
      | .ok entries =>
        match reading.fault with
        | some f => .error (.unreadableRecord reading.line f)
        | none => .ok entries

def decodeChars (text : List Char) : Except Fault (List Entry) :=
  ofReading (Csv.read text)

def decode (text : String) : Except Fault (List Entry) :=
  decodeChars text.toList

end StringTable

end Dialogue
