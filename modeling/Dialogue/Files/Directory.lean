import Dialogue.Bytes
import Dialogue.Fault
import Dialogue.Files.Path

/-! A tree of directories with files in them. A path is walked name by name from the root or from
the working directory; all names but the last have to be directories. -/

namespace Dialogue

/-- A directory tree. Places are the names on the way from the root. -/
structure DirectoryTree where
  directories : List (List Path.Name) := [[], [Path.workingDirectory]]
  files : List (List Path.Name × Bytes) := []
  deriving DecidableEq

namespace DirectoryTree

inductive Target where
  | directory (place : List Path.Name)
  /-- A place in a directory at which there may be something; `slash` tells whether the path goes on
  with a slash. -/
  | entry (place : List Path.Name) (slash : Bool)

def isDirectory (t : DirectoryTree) (place : List Path.Name) : Bool :=
  t.directories.contains place

def file? (t : DirectoryTree) (place : List Path.Name) : Option Bytes :=
  t.files.lookup place

def nameLimit : Nat := 255

def pathLimit : Nat := 4095

def byteLength (text : List Char) : Nat :=
  (String.ofList text).utf8ByteSize

def walk (t : DirectoryTree) (path : Value) (place : List Path.Name) :
    List Path.Name → Except FileFault Target
  | [] => .ok (.directory place)
  | name :: rest =>
    if Path.isIdle name then walk t path place rest
    else if name = ['.', '.'] then walk t path place.dropLast rest
    else if nameLimit < byteLength name then .error (.nameTooLong path)
    else
      let next := place ++ [name]
      if rest.all fun n => n = [] then
        if t.isDirectory next then .ok (.directory next) else .ok (.entry next (rest ≠ []))
      else if t.isDirectory next then walk t path next rest
      else if (t.file? next).isSome then .error (.notDirectory path)
      else .error (.notFound path)

/-- What a path leads to. A character that ends texts early is in no path. -/
def locate (t : DirectoryTree) (path : String) : Except Fault Target :=
  let chars := path.toList
  if chars.contains '\x00' then .error .embeddedNull
  else if path = "" then .error (.file (.notFound (.text path)))
  else if pathLimit < byteLength chars then .error (.file (.nameTooLong (.text path)))
  else (t.walk (.text path) [] (Path.fromRoot chars)).mapError Fault.file

def isFile (t : DirectoryTree) (path : String) : Bool :=
  match t.locate path with
  | .ok (.entry place slash) => (t.file? place).isSome && !slash
  | _ => false

def read (t : DirectoryTree) (path : String) : Except Fault Bytes :=
  match t.locate path with
  | .error e => .error e
  | .ok (.directory _) => .error (.file (.isDirectory (.text path)))
  | .ok (.entry place slash) =>
    match t.file? place with
    | none => .error (.file (.notFound (.text path)))
    | some content =>
      if slash then .error (.file (.notDirectory (.text path))) else .ok content

def put (t : DirectoryTree) (place : List Path.Name) (content : Bytes) : DirectoryTree :=
  { t with files := insert t.files }
where
  insert : List (List Path.Name × Bytes) → List (List Path.Name × Bytes)
    | [] => [(place, content)]
    | (p, c) :: rest => if p = place then (p, content) :: rest else (p, c) :: insert rest

def erase (t : DirectoryTree) (place : List Path.Name) : DirectoryTree :=
  { t with files := t.files.filter fun e => e.1 ≠ place }

/-- The place of the file that opening a path for writing makes or empties. -/
def writable (t : DirectoryTree) (path : String) : Except Fault (List Path.Name) :=
  match t.locate path with
  | .error e => .error e
  | .ok (.directory _) | .ok (.entry _ true) => .error (.file (.isDirectory (.text path)))
  | .ok (.entry place false) => .ok place

def makeWay (t : DirectoryTree) (place : List Path.Name) : DirectoryTree :=
  { t with directories := (List.range place.length).foldl (fun ds n =>
      if ds.contains (place.take n) then ds else ds ++ [place.take n]) t.directories }

def makeDirectory (t : DirectoryTree) (place : List Path.Name) : DirectoryTree :=
  let t := t.makeWay place
  if t.isDirectory place then t else { t with directories := t.directories ++ [place] }

/-- The files below the working directory by their path from there. -/
def contents (t : DirectoryTree) : List (String × Bytes) :=
  t.files.filterMap fun (place, content) =>
    match place with
    | root :: rest =>
      if root = Path.workingDirectory then some (String.ofList (Path.join rest), content) else none
    | [] => none

end DirectoryTree

end Dialogue
