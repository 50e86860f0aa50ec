import Dialogue.Bytes

/-! Files by path, without directories. Different paths are different files. A file may be broken,
and a path may be barred from writing; the medium then answers in its own words. -/

namespace Dialogue

inductive StoredFile where
  | bytes (content : Bytes)
  /-- The file is there, but can be neither read nor written. -/
  | broken (text : String)
  deriving DecidableEq

structure MemoryFiles where
  /-- Each path once. -/
  files : List (String × StoredFile) := []
  /-- Paths that refuse to be written, though they may be read. -/
  barred : List (String × String) := []
  deriving DecidableEq

namespace MemoryFiles

def find? (m : MemoryFiles) (path : String) : Option StoredFile :=
  m.files.lookup path

/-- What the medium answers to writing at a path, if it refuses. -/
def refusal? (m : MemoryFiles) (path : String) : Option String :=
  match m.find? path with
  | some (.broken text) => some text
  | _ => m.barred.lookup path

/-- Puts a file in place of the one at its path, or behind all others. -/
def put (m : MemoryFiles) (path : String) (file : StoredFile) : MemoryFiles :=
  { m with files := insert m.files }
where
  insert : List (String × StoredFile) → List (String × StoredFile)
    | [] => [(path, file)]
    | (p, f) :: rest => if p = path then (p, file) :: rest else (p, f) :: insert rest

def erase (m : MemoryFiles) (path : String) : MemoryFiles :=
  { m with files := m.files.filter fun e => e.1 ≠ path }

def contents (m : MemoryFiles) : List (String × Bytes) :=
  m.files.filterMap fun (path, file) =>
    match file with
    | .bytes content => some (path, content)
    | .broken _ => none

end MemoryFiles

end Dialogue
