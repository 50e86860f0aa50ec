import Dialogue.Files.Directory
import Dialogue.Files.Memory
import Dialogue.Files.Volume
import Dialogue.Value.Access

/-! The files that a build reads and writes are kept in memory, in a directory tree or on a volume
of any other kind. In memory a text is encoded before it is stored; in a tree the file is emptied
first, so that a text that cannot be encoded leaves it empty. A volume answers for itself. -/

namespace Dialogue

inductive FileSystem where
  | memory (files : MemoryFiles)
  | directory (tree : DirectoryTree)
  | volume (volume : Volume)

namespace FileSystem

def encodingOf (v : Value) : Except Fault Text.Encoding :=
  match v with
  | .text name =>
    match Text.Encoding.ofName? name with
    | some encoding => .ok encoding
    | none => .error (.encoding (.unknown name))
  | _ => .error (.mismatch .other)

/-- Whether a value can be meant as the name of an encoding of an open file. Without a name the
encoding is UTF-8. -/
def openEncoding (v : Value) : Except Fault (Except Fault Text.Encoding) :=
  match v with
  | .null => .ok (.ok .utf8)
  | .text _ => .ok (encodingOf v)
  | _ => .error (.mismatch .other)

def existsAt (fs : FileSystem) (path : Value) : Except Fault Bool :=
  match fs with
  | .memory m =>
    match path with
    | .text p => .ok (m.find? p).isSome
    | .scalar _ => .ok false
    | _ => path.asKey.map fun _ => false
  | .directory t =>
    match path with
    | .text p => .ok (t.isFile p)
    | .int _ | .bool _ => .ok false
    | _ => .error (.mismatch .other)
  | .volume v =>
    match path with
    | .text p => .ok (v.existsAt v.store p)
    | _ => .error (.mismatch .other)

/-- The text of bytes. There is no need to know the encoding of no bytes. -/
def decodeBytes (content : Bytes) (encoding : Value) : Except Fault String :=
  match encoding with
  | .text _ =>
    if content.isEmpty then .ok ""
    else match encodingOf encoding with
      | .error e => .error e
      | .ok e => ((e.decode content).mapError Fault.encoding).map String.ofList
  | _ => .error (.mismatch .other)

def readText (fs : FileSystem) (path encoding : Value) : Except Fault String :=
  match fs with
  | .memory m =>
    match path with
    | .text p =>
      match m.find? p with
      | none => .error (.file (.notFound path))
      | some (.broken text) => .error (.file (.medium text))
      | some (.bytes content) => decodeBytes content encoding
    | .scalar _ => .error (.file (.notFound path))
    | _ => .error (.mismatch (.unhashable path.kindName))
  | .directory t =>
    match openEncoding encoding with
    | .error e => .error e
    | .ok encoding =>
      match path with
      | .text p =>
        match t.read p with
        | .error e => .error e
        | .ok content =>
          match encoding with
          | .error e => .error e
          | .ok e => ((e.decodeStream content).mapError Fault.encoding).map String.ofList
      | .int _ | .bool _ => .error (.file .badDescriptor)
      | _ => .error (.mismatch .other)
  | .volume v =>
    match path with
    | .text p => v.readText v.store p encoding
    | _ => .error (.mismatch .other)

/-- Stores a text. The second part is the file system afterwards, which may have changed also when
the text was refused. -/
def writeText (fs : FileSystem) (path : String) (text : String) (encoding : Value) :
    Except Fault Unit × FileSystem :=
  match fs with
  | .memory m =>
    match m.refusal? path with
    | some refusal => (.error (.file (.medium refusal)), fs)
    | none =>
      match encodingOf encoding with
      | .error e => (.error e, fs)
      | .ok e =>
        match e.encode text.toList with
        | .error f => (.error (.encoding f), fs)
        | .ok content => (.ok (), .memory (m.put path (.bytes content)))
  | .directory t =>
    match openEncoding encoding with
    | .error e => (.error e, fs)
    | .ok encoding =>
      match t.writable path with
      | .error e => (.error e, fs)
      | .ok place =>
        match encoding with
        | .error e => (.error e, .directory (t.put place []))
        | .ok e =>
          match e.encode text.toList with
          | .error f => (.error (.encoding f), .directory (t.put place []))
          | .ok content => (.ok (), .directory (t.put place content))
  | .volume v =>
    let (result, store) := v.writeText v.store path text encoding
    (result, .volume { v with store })

/-- The absolute path that a path stands for. In memory all paths are absolute. -/
def absolute (fs : FileSystem) (path : Value) : Except Fault Value :=
  match fs with
  | .memory _ => .ok path
  | .directory _ =>
    match path with
    | .text p => .ok (.text (String.ofList (Path.absolute p.toList)))
    | _ => .error (.mismatch .other)
  | .volume v =>
    match path with
    | .text p => .ok (.text (v.absolute p))
    | _ => .error (.mismatch .other)

/-- All readable files by path. A volume does not list its files. -/
def contents : FileSystem → List (String × Bytes)
  | .memory m => m.contents
  | .directory t => t.contents
  | .volume _ => []

end FileSystem

end Dialogue
