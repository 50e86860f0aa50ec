import Dialogue.Session.Script
import Dialogue.Storage

/-! The requests that can be made of a world, and the answers to them. Requests name localizations
by the number that an observer knows them by. -/

namespace Dialogue

/-- The number that an observer knows a localization by. -/
abbrev ObjectNumber := Nat

structure LocalizationSpec where
  localeCode : Value := .text ""
  stringFile : Value := .null
  containsAssets : Value := .bool false
  addressableAssets : Value := .bool false
  texts : List (Value × Value) := []
  runtime : List (Value × Value) := []
  assets : List (Value × Value) := []

inductive BaseSpec where
  | fresh
  | absent
  | object (number : ObjectNumber)

structure ProjectSpec where
  name : Value := .text ""
  path : Value := .null
  sources : List Value := []
  declarations : List Declaration := []
  baseLanguage : Value := .text "en"
  searchAssemblies : List Value := []
  localizations : List ObjectNumber := []
  base : BaseSpec := .fresh

/-- An item of a bulk request: an entry of a string table, or a value to be taken apart. -/
inductive BulkItem where
  | entry (e : StringTable.Entry)
  | value (v : Value)

def BulkItem.pair : BulkItem → Except Fault (Value × Value)
  | .entry e => .ok (.text e.id, .text e.text)
  | .value v => v.pair

inductive FileSpec where
  | bytes (content : Bytes)
  | directory
  | broken (text : String)

inductive BlobSpec where
  | none
  | bytes (content : Bytes)
  | program (spec : ProgramSpec)
  | payload (text : String) (length : Option Nat)

def BlobSpec.make : BlobSpec → Except Fault (Option Bytes)
  | .none => .ok Option.none
  | .bytes content => .ok (some content)
  | .program spec => do return some (← Blob.encode (← spec.make))
  | .payload text length =>
    let payload := Text.Utf8.encode text.toList
    .ok (some (bigEndian Blob.lengthSize (length.getD payload.length) ++ payload))

inductive LocalizationField where
  | localeCode
  | stringFile
  | containsAssets
  | addressableAssets

inductive LocalizationStep where
  | getText (id : Value)
  | hasText (id : Value)
  | addText (id text : Value)
  | addTextToAsset (id text : Value)
  | addTexts (items : List BulkItem)
  | addTextsToAsset (items : List BulkItem)
  | lineIds
  | setObject (id value : Value)
  | addObjects (objects : List (Value × Value))
  | getObject (id : Value) (filter : AssetFilter)
  | containsObject (id : Value) (filter : AssetFilter)
  | clear
  | dump
  | toDict
  | listen (name : String) (reaction : Reaction)
  | unlisten (name : String)
  | isListed
  | list (index : Option Int)
  | setBase
  | setField (field : LocalizationField) (value : Value)

inductive ProjectChange where
  | name (value : Value)
  | path (value : Value)
  | baseLanguage (value : Value)
  | sources (values : List Value)
  | declarations (values : List Declaration)

inductive ProjectStep where
  | tablePath (code : Value)
  | change (change : ProjectChange)
  | removeLocalization (index : Int)
  | getLocalization (code : Value)
  | setBlob (blob : BlobSpec)
  | isCompiled
  | program
  | nodeNames
  | initialValues
  | headers (node : Value)
  | pokeHeader (node key value : Value)
  | pokeInitial (name case value : Value)
  | document
  | json
  | yaml
  | save (path : Value)
  | reload (format : DocumentFormat)

inductive Step where
  | onLocalization (object : ObjectNumber) (step : LocalizationStep)
  | onProject (step : ProjectStep)
  | build
  | setSources (sources : List Value)
  | parses
  | load (path : String)
  | loadConfig (path : String)
  | newProject (spec : Option ProjectSpec)
  | newLocalization (spec : LocalizationSpec)
  | setConfig (config : Config)
  | writeFile (path : String) (content : FileSpec)
  | deleteFile (path : String)
  | files
  | state

/-! ## Answers -/

structure LocalizationView where
  object : ObjectNumber
  localization : Localization

structure ProjectView where
  project : Project
  base : Option LocalizationView
  /-- The base localization is shown once, and by its number in the list. -/
  localizations : List (ObjectNumber ⊕ LocalizationView)

inductive Answer where
  | nothing
  | value (v : Value)
  | count (n : Nat)
  | object (number : ObjectNumber)
  | values (vs : List Value)
  | localization (view : LocalizationView)
  | state (view : Option ProjectView)
  | report (r : BuildReport)
  | program (p : Program)
  | table (t : Table Value)
  | headers (t : Table (List Value))
  | files (contents : List (String × Bytes))

/-- What an observer learns from a step. -/
structure Observation where
  outcome : Except Fault Answer
  warnings : List String
  events : List (String × ObjectNumber)
  calls : List CallRecord
  log : List (LogLevel × String)
  state : Option (Option ProjectView)

end Dialogue
