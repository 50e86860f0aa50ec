/-! A path is a text with slashes between its names. The working directory goes by a name of its
own, which stands for its absolute path. -/

namespace Dialogue.Path

abbrev Name := List Char

def workingDirectory : Name := "$ROOT".toList

def names (path : List Char) : List Name :=
  path.foldr (fun c names =>
    if c = '/' then [] :: names
    else match names with
      | name :: rest => (c :: name) :: rest
      | [] => [[c]]) [[]]

def join (names : List Name) : List Char :=
  ['/'].intercalate names

/-- Whether a path begins at the working directory by its name. -/
def isNamed (path : List Char) : Bool :=
  workingDirectory.isPrefixOf path

def isAbsolute (path : List Char) : Bool :=
  path.head? = some '/' || isNamed path

/-- Names that stay where they are. -/
def isIdle (name : Name) : Bool :=
  name = [] || name = ['.']

/-- The names of a path without idle ones. A double dot takes away the name before it, if there is
one. -/
def normalNames (names : List Name) : List Name :=
  (names.foldl (fun done name =>
    if isIdle name then done
    else if name = ['.', '.'] then done.drop 1
    else name :: done) []).reverse

/-- The slashes in front of a normal absolute path: two stay two, any other number becomes one. -/
def leadingSlashes (path : List Char) : List Char :=
  if (path.takeWhile (· = '/')).length = 2 then ['/', '/'] else ['/']

/-- The names of a path from the root on, not yet normal. -/
def fromRoot (path : List Char) : List Name :=
  if isAbsolute path then names path else workingDirectory :: names path

def absolute (path : List Char) : List Char :=
  let normal := normalNames (fromRoot path)
  if normal.head? = some workingDirectory then join normal
  else leadingSlashes path ++ join normal

def baseName (path : List Char) : Name :=
  (path.reverse.takeWhile (· ≠ '/')).reverse

end Dialogue.Path
