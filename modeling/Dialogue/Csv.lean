/-! A record is a list of fields between commas, ended by a line end. A field may stand between
double quotes, and may then hold commas and line ends; a quote inside it is written twice.
`Writer.record` quotes a field only when it has to. `Reader` takes a text one character at a time,
so that reading a text is a left fold. -/

namespace Dialogue.Csv

inductive Fault where
  /-- Text follows a carriage return that ended a record. -/
  | textAfterReturn
  | fieldTooLong
  deriving DecidableEq

def fieldLimit : Nat := 131072

def Fault.message : Fault → String
  | .textAfterReturn => "new-line character seen in unquoted field - do you need to open the file "
    ++ "in universal-newline mode?"
  | .fieldTooLong => "field larger than field limit (" ++ toString fieldLimit ++ ")"

/-! ## Writing -/

/-- Whether a field can be misread unless it is quoted. -/
def needsQuotes (field : List Char) : Bool :=
  field.any fun c => c == ',' || c == '"' || c == '\n'

def doubleQuotes (field : List Char) : List Char :=
  field.flatMap fun c => if c = '"' then ['"', '"'] else [c]

def writeField (field : List Char) : List Char :=
  if needsQuotes field then '"' :: doubleQuotes field ++ ['"'] else field

def writeRecord (fields : List (List Char)) : List Char :=
  [','].intercalate (fields.map writeField) ++ ['\n']

/-! ## Reading -/

inductive Mode where
  | record
  /-- At the start of a field that is not the first of its record. -/
  | field
  | bare
  | quoted
  /-- Behind a quote that closes a field, or is the first of two. -/
  | closed
  /-- Behind a carriage return that ended the record. -/
  | returned
  deriving DecidableEq

/-- A record and the number of the line that it ends on, counted from one. -/
structure Record where
  line : Nat
  fields : List (List Char)
  deriving DecidableEq

structure Reader where
  mode : Mode := .record
  line : Nat := 0
  /-- Whether the next character begins a line. -/
  atLineStart : Bool := true
  /-- The characters of the field so far, last one first, and their number. -/
  field : List Char := []
  size : Nat := 0
  fields : List (List Char) := []
  records : List Record := []
  fault : Option Fault := none
  deriving DecidableEq

namespace Reader

def add (r : Reader) (c : Char) (mode : Mode) : Reader :=
  if r.size < fieldLimit then
    { r with field := c :: r.field, size := r.size + 1, mode := mode }
  else { r with fault := some .fieldTooLong }

def save (r : Reader) (mode : Mode) : Reader :=
  { r with field := [], size := 0, fields := r.field.reverse :: r.fields, mode := mode }

def finish (r : Reader) : Reader :=
  { r with
    mode := .record, field := [], size := 0, fields := []
    records := ⟨r.line, r.fields.reverse⟩ :: r.records }

/-- A character where a field may begin. -/
def begin (r : Reader) (c : Char) : Reader :=
  if c = '"' then { r with mode := .quoted }
  else if c = ',' then r.save .field
  else r.add c .bare

/-- A character behind which the field has ended, unless it goes on without quotes. -/
def proceed (r : Reader) (c : Char) : Reader :=
  if c = '\n' then (r.save .record).finish
  else if c = '\r' then r.save .returned
  else if c = ',' then r.save .field
  else r.add c .bare

def take (r : Reader) (c : Char) : Reader :=
  match r.mode with
  | .record =>
    if c = '\n' then r.finish
    else if c = '\r' then { r with mode := .returned }
    else r.begin c
  | .field =>
    if c = '\n' ∨ c = '\r' then r.proceed c else r.begin c
  | .bare => r.proceed c
  | .quoted => if c = '"' then { r with mode := .closed } else r.add c .quoted
  | .closed => if c = '"' then r.add c .quoted else r.proceed c
  | .returned =>
    if c = '\n' then r.finish
    else if c = '\r' then r
    else { r with fault := some .textAfterReturn }

def step (r : Reader) (c : Char) : Reader :=
  if r.fault.isSome then r
  else
    let r := if r.atLineStart then { r with line := r.line + 1 } else r
    { r.take c with atLineStart := c = '\n' }

/-- The end of the text ends the record and the field that are open. -/
def close (r : Reader) : Reader :=
  if r.fault.isSome then r
  else match r.mode with
    | .record => r
    | .returned => r.finish
    | .field | .bare | .quoted | .closed => (r.save .record).finish

end Reader

/-- The records of a text up to the first fault, the line of the fault, and the fault. -/
structure Reading where
  records : List Record
  line : Nat
  fault : Option Fault
  deriving DecidableEq

def read (text : List Char) : Reading :=
  let r := (text.foldl Reader.step {}).close
  ⟨r.records.reverse, r.line, r.fault⟩

end Dialogue.Csv
