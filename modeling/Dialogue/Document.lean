import Dialogue.World

/-! The document of a project holds what is persisted: neither runtime texts nor assets. The base
localization is the place of its first occurrence in the list, or a document of its own. -/

namespace Dialogue

inductive BaseRef where
  | listed (place : Nat)
  | own (localization : Localization)
  | absent

/-- A project as a document describes it, with localizations that have no number yet. -/
structure Draft where
  project : Project
  localizations : List Localization
  base : BaseRef

namespace Draft

/-- The place that a number means in a list of some length; numbers below zero count from the
end. -/
def placeIn? (length : Nat) (number : Int) : Option Nat :=
  let place := if number < 0 then number + length else number
  if 0 ≤ place ∧ place < length then some place.toNat else none

def baseOfValue (localizations : List Localization) (v : Value) : Except Fault BaseRef :=
  match v with
  | .null => .ok .absent
  | v =>
    match v.int? with
    | some place =>
      match placeIn? localizations.length place with
      | some n => .ok (.listed n)
      | none => .error .listIndex
    | none => (Localization.ofValue v).map .own

def blobOfValue (v : Value) : Except Fault (Option Bytes) :=
  match v with
  | .null => .ok none
  | .scalar (.text t) => ((Text.Base64.decode t.shown.toList).map some).mapError Fault.base64
  | .scalar (.bytes content) =>
    ((Text.Base64.decode (content.map fun b => Char.ofNat b.toNat)).map some).mapError Fault.base64
  | _ => .error (.mismatch .other)

def ofValue (v : Value) (path : Value) : Except Fault Draft := do
  let localizations ← (← (← v.getD "localizations" (.list [])).items).mapM Localization.ofValue
  let base ← baseOfValue localizations (← v.getD "base_localization" .null)
  let name ← v.getD "name" (.text "")
  let sources ← (← v.getD "source_scripts" (.list [])).items
  let declarations ← (← (← v.getD "declarations" (.list [])).items).mapM Declaration.ofValue
  let baseLanguage ← v.getD "base_language" (.text "en")
  let searchAssemblies ← (← v.getD "search_assemblies_for_actions" (.list [])).items
  let blob ← blobOfValue (← v.getD "compiled_program" .null)
  let project : Project := { name, path, sources, declarations, baseLanguage, searchAssemblies }
  return {
    project := if blob.isSome then project.setBlob blob else project
    localizations, base }

def toValue (d : Draft) : Except Fault Value := do
  let declarations ← d.project.declarations.mapM Declaration.toValue
  let base := match d.base with
    | .listed place => Value.int place
    | .own l => l.toValue
    | .absent => ({ localeCode := d.project.baseLanguage } : Localization).toValue
  let blob := match d.project.blob with
    | some blob => Value.text (String.ofList (Text.Base64.encode blob))
    | none => Value.null
  return .mapping
    [(.text "name", d.project.name), (.text "source_scripts", .list d.project.sources),
     (.text "declarations", .list declarations),
     (.text "base_language", d.project.baseLanguage),
     (.text "base_localization", base),
     (.text "localizations", .list (d.localizations.map Localization.toValue)),
     (.text "search_assemblies_for_actions", .list d.project.searchAssemblies),
     (.text "compiled_program", blob)]

/-- The draft of a project of the world. A project without base localization has none. -/
def ofProject (w : World) (p : Project) : Except Fault Draft :=
  let localizations := p.localizations.map w.localization
  match p.base with
  | none => .error .noOperation
  | some base =>
    .ok {
      project := p
      localizations
      base := match p.localizations.idxOf? base with
        | some place => .listed place
        | none => .own (w.localization base) }

def install (d : Draft) : Action ProjectId := do
  let first := (← get).localizations.size
  modify fun w => d.localizations.foldl World.addLocalization w
  let base ← match d.base with
    | .listed place => pure (some (first + place))
    | .own l => some <$> Action.newLocalization l
    | .absent => pure none
  Action.newProject { d.project with
    base, localizations := (List.range d.localizations.length).map (first + ·) }

end Draft

def World.projectDocument (w : World) (p : Project) : Except Fault Value := do
  (← Draft.ofProject w p).toValue

end Dialogue
