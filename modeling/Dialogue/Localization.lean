import Dialogue.StringTable
import Dialogue.Value.Access

/-! A localization holds what belongs to one language: persisted texts, texts added while dialogue
runs, and assets, all by line id. A runtime text hides the persisted text of its line. -/

namespace Dialogue

inductive Reaction where
  | nothing
  | leave
  | fail
  | overlay
  deriving DecidableEq

/-- A listener is told of every change of persisted text. Its name says which one it is. -/
structure Listener where
  name : String
  reaction : Reaction := .nothing
  deriving DecidableEq

inductive AssetFilter where
  | any
  | text
  | ofClass (kind : AssetClass)
  deriving DecidableEq

def AssetFilter.accepts (f : AssetFilter) (v : Value) : Bool :=
  match f, v with
  | .any, _ => true
  | .text, .scalar (.text _) => true
  | .ofClass d, .scalar (.asset c _) => c.isA d
  | _, _ => false

structure Localization where
  localeCode : Value := .text ""
  /-- The path of the table of the language, or null. -/
  stringFile : Value := .null
  containsAssets : Value := .bool false
  /-- Whether assets are served by a system outside the asset table. -/
  addressableAssets : Value := .bool false
  texts : Table Value := []
  assets : Table Value := []
  runtime : Table Value := []
  listeners : List Listener := []

namespace Localization

/-- The text of a line: the runtime text, else the persisted one. -/
def getText (l : Localization) (id : Scalar) : Option Value :=
  if Table.has l.runtime id then Table.lookup l.runtime id else Table.lookup l.texts id

def hasText (l : Localization) (id : Scalar) : Bool :=
  Table.has l.runtime id || Table.has l.texts id

def addText (l : Localization) (id : Scalar) (text : Value) : Localization :=
  { l with runtime := Table.put l.runtime id text }

/-- Adds or replaces a persisted text. Telling the listeners is up to the caller. -/
def storeText (l : Localization) (id : Scalar) (text : Value) : Localization :=
  { l with texts := Table.put l.texts id text }

def lineIds (l : Localization) : List Scalar :=
  Table.keys (Table.ofEntries ((l.runtime ++ l.texts).map fun e => (e.1, ())))

def setObject (l : Localization) (id : Scalar) (value : Value) : Localization :=
  { l with assets := Table.put l.assets id value }

def addObjects (l : Localization) (objects : List (Scalar × Value)) : Localization :=
  objects.foldl (fun l e => l.setObject e.1 e.2) l

def object? (l : Localization) (id : Scalar) (filter : AssetFilter) : Option Value :=
  (Table.lookup l.assets id).filter filter.accepts

/-- The warning that goes with looking for assets which are served elsewhere. -/
def assetWarning? (l : Localization) (id : Scalar) : Option String :=
  if l.addressableAssets.truthy then
    some ("Localization " ++ l.localeCode.quoted ++ " uses addressable assets; load " ++ id.quoted
      ++ " through the addressable asset system instead")
  else none

def clear (l : Localization) : Localization :=
  { l with texts := [], assets := [], runtime := [] }

/-- One entry more for each listener, however often it is registered already. -/
def addListener (l : Localization) (listener : Listener) : Localization :=
  { l with listeners := l.listeners ++ [listener] }

/-- Takes off the first registration of a listener. -/
def removeListener (l : Localization) (name : String) : Except Fault Localization :=
  if l.listeners.any fun x => x.name = name then
    .ok { l with listeners := l.listeners.eraseP fun x => x.name = name }
  else .error .notRegistered

/-- A copy for rebuilding: the language, its table and its assets, without texts and listeners. -/
def renewed (l : Localization) : Localization :=
  ({ localeCode := l.localeCode, stringFile := l.stringFile, containsAssets := l.containsAssets,
     addressableAssets := l.addressableAssets } : Localization).addObjects l.assets

/-- The document of a localization. Only what is persisted goes into it. -/
def toValue (l : Localization) : Value :=
  .mapping
    [(.text "locale_code", l.localeCode), (.text "string_file", l.stringFile),
     (.text "contains_localized_asset", l.containsAssets),
     (.text "uses_addressable_assets", l.addressableAssets),
     (.text "string_table", .mapping l.texts)]

def ofValue (v : Value) : Except Fault Localization := do
  let localeCode ← v.getD "locale_code" (.text "")
  let stringFile ← v.getD "string_file" .null
  let containsAssets ← v.getD "contains_localized_asset" (.bool false)
  let addressableAssets ← v.getD "uses_addressable_assets" (.bool false)
  let texts ← (← v.getD "string_table" (.mapping [])).entries
  return texts.foldl (fun l e => l.storeText e.1 e.2)
    { localeCode, stringFile, containsAssets, addressableAssets }

/-! ## Addresses -/

/-- A text without any occurrence of `line:`. -/
def dropMarks : List Char → List Char
  | 'l' :: 'i' :: 'n' :: 'e' :: ':' :: rest => dropMarks rest
  | c :: rest => c :: dropMarks rest
  | [] => []

def address (id language : String) : String :=
  "line_" ++ language ++ "_" ++ String.ofList (dropMarks id.toList)

end Localization

end Dialogue
