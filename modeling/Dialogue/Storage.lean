import Dialogue.Config
import Dialogue.Document
import Dialogue.Yaml.Reader
import Dialogue.Yaml.Writer

/-! Projects as JSON and YAML texts, and as YAML files. A file is written next to its target first
and then renamed, so that the target changes in one step or not at all. -/

namespace Dialogue

/-! ## Texts -/

inductive DocumentFormat where
  | mapping
  | json
  | yaml
  deriving DecidableEq

namespace Draft

def ofJson (text : String) (path : Value) : Except Fault Draft := do
  ofValue (← (Json.parse text).mapError Fault.json) path

/-- An empty YAML document stands for an empty mapping. -/
def ofYaml (text : String) (path : Value) : Except Fault Draft := do
  let v ← Yaml.parse text
  ofValue (if v.truthy then v else .mapping []) path

def toJson (d : Draft) : Except Fault String := do
  (Json.render (← d.toValue)).mapError fun f => .mismatch (.unwritable f)

def toYaml (d : Draft) : Except Fault String := do
  Yaml.render (← d.toValue)

/-- A draft written and read again. The path is no part of the document. -/
def roundTrip (d : Draft) : DocumentFormat → Except Fault Draft
  | .mapping => do ofValue (← d.toValue) .null
  | .json => do ofJson (← d.toJson) d.project.path
  | .yaml => do ofYaml (← d.toYaml) d.project.path

end Draft

def Config.ofYaml (text : String) : Except Fault Config := do
  ofDocument (← Yaml.parse text)

/-! ## Files -/

inductive SaveStep where
  | create
  | write
  | rename
  deriving DecidableEq

namespace DirectoryTree

/-- The name of a file that is not there yet, ending in a given name. -/
def freshName (t : DirectoryTree) (directory : List Path.Name) (ending : Path.Name) : Path.Name :=
  let candidate (n : Nat) : Path.Name :=
    let digits := (toString n).toList
    ".tmp-".toList ++ List.replicate (8 - digits.length) '0' ++ digits ++ ending
  let free := (List.range (t.files.length + 1)).find? fun n =>
    (t.file? (directory ++ [candidate n])).isNone
  candidate (free.getD 0)

def directoryFault? (t : DirectoryTree) (path : Value) (directory : List Path.Name) :
    Option FileFault :=
  match t.walk path [] directory with
  | .error e => some e
  | .ok (.directory _) => none
  | .ok (.entry place _) =>
    some (if (t.file? place).isSome then .notDirectory path else .notFound path)

def rename (t : DirectoryTree) (source : List Path.Name) (path : String) :
    Except Fault DirectoryTree :=
  match t.locate path with
  | .error e => .error e
  | .ok (.directory _) => .error (.file (.isDirectory (.text path)))
  | .ok (.entry _ true) => .error (.file (.notDirectory (.text path)))
  | .ok (.entry place false) =>
    .ok ((t.erase source).put place ((t.file? source).getD []))

/-- Writes a new file next to the target and renames it. If a step fails, or is made to fail, the
new file is removed. -/
def replace (t : DirectoryTree) (path : String) (content : Bytes)
    (trouble : Option (SaveStep × FileFault) := none) : Except Fault Unit × DirectoryTree :=
  let chars := path.toList
  if chars.contains '\x00' then (.error .embeddedNull, t)
  else
    let directory := (Path.normalNames (Path.fromRoot chars)).dropLast
    let name := t.freshName directory (Path.baseName chars)
    match t.directoryFault? (.text path) directory with
    | some f => (.error (.file f), t)
    | none =>
      if nameLimit < byteLength name then (.error (.file (.nameTooLong (.text path))), t)
      else
        let source := directory ++ [name]
        match trouble with
        | some (.create, f) => (.error (.file f), t)
        | some (.write, f) => (.error (.file f), (t.put source []).erase source)
        | some (.rename, f) => (.error (.file f), (t.put source content).erase source)
        | none =>
          match (t.put source content).rename source path with
          | .ok t => (.ok (), t)
          | .error e => (.error e, (t.put source content).erase source)

end DirectoryTree

def plainLines : List Char → List Char
  | '\r' :: '\n' :: rest => '\n' :: plainLines rest
  | '\r' :: rest => '\n' :: plainLines rest
  | c :: rest => c :: plainLines rest
  | [] => []

namespace FileSystem

def replace (fs : FileSystem) (path : String) (content : Bytes)
    (trouble : Option (SaveStep × FileFault) := none) : Except Fault Unit × FileSystem :=
  match fs with
  | .memory _ | .volume _ => (.error .noOperation, fs)
  | .directory t =>
    let (result, t) := t.replace path content trouble
    (result, .directory t)

def readDocument (fs : FileSystem) (path : String) : Except Fault String :=
  match fs with
  | .memory _ | .volume _ => .error .noOperation
  | .directory t => do
    let content ← t.read path
    let text ← (Text.Encoding.decodeUtf8 content).mapError Fault.encoding
    return String.ofList (plainLines text)

end FileSystem

/-- Where a project is saved: at the path given, or else at its own. -/
def saveTarget (p : Project) (path : Value) : Except Fault Value :=
  if path.truthy then .ok path
  else if p.path.truthy then .ok p.path
  else .error (.noTarget p.name)

/-- Saves a project as YAML, and remembers where. -/
def saveProject (id : ProjectId) (path : Value)
    (trouble : Option (SaveStep × FileFault) := none) : Action Value := do
  let w ← get
  let p := w.project id
  let target ← Action.ofExcept (saveTarget p path)
  let draft ← Action.ofExcept (Draft.ofProject w p)
  let text ← Action.ofExcept draft.toYaml
  match target with
  | .text file =>
    let (result, files) := w.files.replace file (Text.Utf8.encode text.toList) trouble
    modify fun w => { w with files := files }
    Action.ofExcept result
    Action.updateProject id fun p => { p with path := target }
    return target
  | _ => throw (.mismatch .other)

def loadProject (path : String) : Action ProjectId := do
  let text ← Action.ofExcept ((← get).files.readDocument path)
  (← Action.ofExcept (Draft.ofYaml text (.text path))).install

def loadConfig (path : String) : Action Config := do
  let text ← Action.ofExcept ((← get).files.readDocument path)
  Action.ofExcept (Config.ofYaml text)

end Dialogue
