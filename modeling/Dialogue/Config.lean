import Dialogue.Value.Access
import Dialogue.Value.Order

/-! Settings come as a mapping with up to four known keys. They are taken as they are, but for the
length of locks and the suffix of project files. -/

namespace Dialogue

structure Config where
  canWriteTables : Value := .bool true
  /-- The number of characters kept of a line lock. -/
  lockLength : Value := .int 8
  projectSuffix : Value := .text ".tres"
  encoding : Value := .text "utf-8"

namespace Config

def fields (c : Config) : List (String × Value) :=
  [("can_write_localization_assets", c.canWriteTables), ("lock_length", c.lockLength),
   ("project_suffix", c.projectSuffix), ("encoding", c.encoding)]

def keys : List String :=
  (fields {}).map (·.1)

def toValue (c : Config) : Value :=
  .mapping (c.fields.map fun (key, v) => (.text key, v))

def ofEntries (entries : List (Scalar × Value)) : Config :=
  let get (key : String) (default : Value) : Value :=
    (Table.lookup entries (.text key)).getD default
  { canWriteTables := get "can_write_localization_assets" (.bool true)
    lockLength := get "lock_length" (.int 8)
    projectSuffix := get "project_suffix" (.text ".tres")
    encoding := get "encoding" (.text "utf-8") }

def isLockLength (v : Value) : Bool :=
  match v.int? with
  | some n => decide (1 ≤ n)
  | none => false

def isKnown (key : Scalar) : Bool :=
  keys.any fun name => (Scalar.text name).sameKey key

/-- The keys among some values that are not known, sorted and each one once. -/
def unknownKeys (values : List Value) : Except Fault (List Scalar) := do
  let found ← values.mapM Value.asKey
  let unknown := Table.keys (Table.ofEntries (found.map fun key => (key, ()))) |>.filter
    fun key => !isKnown key
  match Scalar.sortedBy id unknown with
  | .ok sorted => return sorted
  | .error _ => throw (.mismatch .other)

/-- The settings of a document. A document that counts as false stands for the defaults. -/
def ofValue (v : Value) : Except Fault Config :=
  if !v.truthy then .ok {}
  else do
    let unknown ← unknownKeys (← v.items)
    if unknown ≠ [] then throw (.config (.unknownKeys unknown))
    match v with
    | .mapping entries =>
      let c := ofEntries entries
      if !isLockLength c.lockLength then throw (.config (.badLockLength c.lockLength))
      if !c.projectSuffix.truthy then throw (.config .emptySuffix)
      return c
    | _ => throw (.mismatch .other)

/-- The settings of a document that has to be a mapping or empty. -/
def ofDocument (v : Value) : Except Fault Config :=
  match v with
  | .null | .mapping _ => ofValue v
  | _ => .error (.config .notMapping)

end Config

end Dialogue
