import Dialogue.Session.Step

/-! A session carries out requests one after the other. It gives numbers to localizations: those it
begins with are numbered in order, and any other gets the next number when it is first shown. -/

namespace Dialogue

/-- Answers show texts as characters only. -/
instance : CoeOut Text.Loose String := ⟨Text.Loose.shown⟩

structure Session where
  world : World := {}
  project : Option ProjectId := none
  config : Config := {}
  replies : List Reply := []
  listeners : List Listener := []
  /-- What has been shown, by number. An answer that there is no localization takes a number too. -/
  numbered : List (Option LocalizationId) := []

namespace Session

/-! ## Numbers -/

def idOf (s : Session) (object : ObjectNumber) : LocalizationId :=
  (s.numbered.getD object none).getD 0

/-- The number of a localization, a new one if it has none. -/
def number (id : Option LocalizationId) : StateM Session ObjectNumber := do
  let s ← get
  match s.numbered.idxOf? id with
  | some n => return n
  | none =>
    set { s with numbered := s.numbered ++ [id] }
    return s.numbered.length

def viewLocalization (id : LocalizationId) : StateM Session LocalizationView := do
  return ⟨← number (some id), (← get).world.localization id⟩

def viewProject : StateM Session (Option ProjectView) := do
  let s ← get
  match s.project with
  | none => return none
  | some id =>
    let p := s.world.project id
    let base ← p.base.mapM viewLocalization
    let localizations ← p.localizations.mapM fun id => do
      if p.base = some id then return .inl (← number (some id))
      else return .inr (← viewLocalization id)
    return some ⟨p, base, localizations⟩

/-! ## Making things -/

def keyed (entries : List (Value × Value)) : Except Fault (List (Scalar × Value)) :=
  entries.mapM fun (id, v) => id.asKey.map fun key => (key, v)

def makeLocalization (spec : LocalizationSpec) : Except Fault Localization := do
  return {
    localeCode := spec.localeCode, stringFile := spec.stringFile
    containsAssets := spec.containsAssets, addressableAssets := spec.addressableAssets
    texts := Table.ofEntries (← keyed spec.texts)
    runtime := Table.ofEntries (← keyed spec.runtime)
    assets := Table.ofEntries (← keyed spec.assets) }

/-- Makes a project of which the base localization may be missing. -/
def makeProject (s : Session) (spec : ProjectSpec) : Action ProjectId := do
  let base := match spec.base with
    | .object n => some (s.idOf n)
    | _ => none
  let id ← Action.newProject {
    name := spec.name, path := spec.path, sources := spec.sources
    declarations := spec.declarations, baseLanguage := spec.baseLanguage, base
    localizations := spec.localizations.map s.idOf, searchAssemblies := spec.searchAssemblies }
  if spec.base matches .absent then Action.updateProject id fun p => { p with base := none }
  return id

def putFile (path : String) (content : FileSpec) : FileSystem → FileSystem
  | .memory m =>
    match content with
    | .bytes b => .memory (m.put path (.bytes b))
    | .broken text => .memory (m.put path (.broken text))
    | .directory => .memory m
  | .directory t =>
    let place := Path.normalNames (Path.fromRoot path.toList)
    match content with
    | .bytes b => .directory ((t.makeWay place).put place b)
    | .directory => .directory (t.makeDirectory place)
    | .broken _ => .directory t
  | .volume v => .volume v

def eraseFile (path : String) : FileSystem → FileSystem
  | .memory m => .memory (m.erase path)
  | .directory t => .directory (t.erase (Path.normalNames (Path.fromRoot path.toList)))
  | .volume v => .volume v

/-! ## Steps -/

/-- Adds the texts of bulk items one by one, up to the first that has no two parts. -/
def addItems (add : Scalar → Value → Action Unit) : List BulkItem → Action Unit
  | [] => return
  | item :: rest => do
    let (id, text) ← Action.ofExcept item.pair
    add (← Action.ofExcept id.asKey) text
    addItems add rest

/-- The list with an item inserted at a place. Places below zero count from the end, and places
beyond the ends mean the ends. -/
def insertAt {α : Type} (items : List α) (index : Int) (x : α) : List α :=
  let place := if index < 0 then index + items.length else index
  items.insertIdx (min place.toNat items.length) x

def setField (field : LocalizationField) (v : Value) (l : Localization) : Localization :=
  match field with
  | .localeCode => { l with localeCode := v }
  | .stringFile => { l with stringFile := v }
  | .containsAssets => { l with containsAssets := v }
  | .addressableAssets => { l with addressableAssets := v }

def onLocalization (s : Session) (object : ObjectNumber) (step : LocalizationStep) :
    Action Answer := do
  let id := s.idOf object
  let l ← Action.localization id
  let key (v : Value) : Action Scalar := Action.ofExcept v.asKey
  let update (change : Localization → Localization) : Action Answer := do
    Action.updateLocalization id change
    return .nothing
  let projectId := s.project.getD 0
  match step with
  | .getText line => return .value ((l.getText (← key line)).getD .null)
  | .hasText line => return .value (.bool (l.hasText (← key line)))
  | .addText line text =>
    let line ← key line
    update fun l => l.addText line text
  | .addTextToAsset line text =>
    Action.persistText id (← key line) text
    return .nothing
  | .addTexts items =>
    addItems (fun line text => Action.updateLocalization id fun l => l.addText line text) items
    return .nothing
  | .addTextsToAsset items =>
    addItems (Action.persistText id) items
    return .nothing
  | .lineIds =>
    match Scalar.sortedBy (fun key => key) l.lineIds with
    | .ok ids => return .values (ids.map Value.scalar)
    | .error _ => throw (.mismatch .other)
  | .setObject line v =>
    let line ← key line
    update fun l => l.setObject line v
  | .addObjects objects =>
    let objects ← Action.ofExcept (keyed objects)
    update fun l => l.addObjects (Table.ofEntries objects)
  | .getObject line filter =>
    match line with
    | .scalar line =>
      if let some warning := l.assetWarning? line then Action.warn warning
      return .value ((l.object? line filter).getD .null)
    | _ => throw (.mismatch (.unhashable line.kindName))
  | .containsObject line filter => return .value (.bool (l.object? (← key line) filter).isSome)
  | .clear => update Localization.clear
  | .dump => return .localization ⟨object, l⟩
  | .toDict => return .value l.toValue
  | .listen name reaction =>
    let listener := (s.listeners.find? fun x => x.name = name).getD ⟨name, reaction⟩
    update fun l => l.addListener listener
  | .unlisten name =>
    let l ← Action.ofExcept (l.removeListener name)
    update fun _ => l
  | .isListed => return .value (.bool ((← Action.project projectId).localizations.contains id))
  | .list index =>
    Action.updateProject projectId fun p =>
      { p with localizations := insertAt p.localizations (index.getD p.localizations.length) id }
    return .nothing
  | .setBase =>
    Action.updateProject projectId fun p => { p with base := some id }
    return .nothing
  | .setField field v => update (setField field v)

/-- The first localization of a language, or else the base localization. -/
def findLocalization (w : World) (p : Project) (code : Value) : Option LocalizationId :=
  match code with
  | .null => p.base
  | code =>
    match p.localizations.find? fun id => (w.localization id).localeCode.same code with
    | some id => some id
    | none => p.base

def change (p : Project) : ProjectChange → Project
  | .name v => { p with name := v }
  | .path v => { p with path := v }
  | .baseLanguage v => { p with baseLanguage := v }
  | .sources vs => { p with sources := vs }
  | .declarations ds => { p with declarations := ds }

/-- What a step leads to: an answer, a localization or the current project to be shown, or another
project that becomes the current one. -/
inductive Outcome where
  | answer (a : Answer)
  | object (id : Option LocalizationId)
  | loaded (id : ProjectId)
  | selected (id : Option ProjectId)
  | configured (c : Config) (shown : Bool)
  | state

def onProject (s : Session) (id : ProjectId) (step : ProjectStep) : Action Outcome := do
  let w ← get
  let p := w.project id
  let update (change : Project → Project) : Action Outcome := do
    Action.updateProject id change
    return .answer .nothing
  match step with
  | .tablePath code =>
    let path ← Action.ofExcept (Build.tablePath w.files s.config p code)
    return .answer (.value (.text path))
  | .change c => update fun p => change p c
  | .removeLocalization index =>
    match Draft.placeIn? p.localizations.length index with
    | some place => update fun p => { p with localizations := p.localizations.eraseIdx place }
    | none => throw .assignmentIndex
  | .getLocalization code => return .object (findLocalization w p code)
  | .setBlob spec =>
    let blob ← Action.ofExcept spec.make
    update fun p => p.setBlob blob
  | .isCompiled => return .answer (.value (.bool p.isCompiled))
  | .program => return .answer (.program (← Action.access id Project.program))
  | .nodeNames =>
    let names ← Action.access id Project.nodeNames
    return .answer (.values (names.map Value.scalar))
  | .initialValues => return .answer (.table (← Action.access id Project.initialValues))
  | .headers node =>
    let node ← Action.ofExcept node.asKey
    return .answer (.headers (← Action.access id (Project.headers node)))
  | .pokeHeader node key v =>
    Action.access id (Project.editProgram fun program => do
      program.appendHeader (← node.asKey) key v)
    return .answer .nothing
  | .pokeInitial name case v =>
    Action.access id (Project.editProgram fun program => do
      return program.setInitial (← name.asKey) ⟨case, v⟩)
    return .answer .nothing
  | .document => return .answer (.value (← Action.ofExcept (w.projectDocument p)))
  | .json =>
    let text ← Action.ofExcept (do (← Draft.ofProject w p).toJson)
    return .answer (.value (.text text))
  | .yaml =>
    let text ← Action.ofExcept (do (← Draft.ofProject w p).toYaml)
    return .answer (.value (.text text))
  | .save path => return .answer (.value (← saveProject id path))
  | .reload format =>
    let draft ← Action.ofExcept (do (← Draft.ofProject w p).roundTrip format)
    return .loaded (← draft.install)

def perform (s : Session) (step : Step) : Action Outcome := do
  match step with
  | .onLocalization object step =>
    if s.numbered[object]? = some none then throw .noOperation
    return .answer (← onLocalization s object step)
  | .onProject step =>
    match s.project with
    | some id => onProject s id step
    | none => throw .noOperation
  | .build =>
    let compiler := Reply.compiler s.replies s.config s.project
    return .answer (.report (← build compiler s.config s.project))
  | .setSources sources =>
    let compiler := Reply.compiler s.replies s.config s.project
    return .answer (.report (← Dialogue.setSources compiler s.config s.project sources))
  | .parses => return .answer (.count (← get).parses)
  | .load path => return .loaded (← loadProject path)
  | .loadConfig path => return .configured (← Dialogue.loadConfig path) true
  | .newProject spec => return .selected (← spec.mapM (makeProject s))
  | .newLocalization spec =>
    return .object (some (← Action.newLocalization (← Action.ofExcept (makeLocalization spec))))
  | .setConfig config => return .configured config false
  | .writeFile path content =>
    modify fun w => { w with files := putFile path content w.files }
    return .answer .nothing
  | .deleteFile path =>
    modify fun w => { w with files := eraseFile path w.files }
    return .answer .nothing
  | .files =>
    let contents := (← get).files.contents
    return .answer (.files (contents.mergeSort fun a b => !decide (b.1 < a.1)))
  | .state => return .state

def showsState : Step → Bool
  | .build | .setSources _ => true
  | _ => false

def rememberListener (step : Step) (s : Session) : Session :=
  match step with
  | .onLocalization _ (.listen name reaction) =>
    if s.listeners.any fun x => x.name = name then s
    else { s with listeners := s.listeners ++ [⟨name, reaction⟩] }
  | _ => s

def present (outcome : Outcome) : StateM Session Answer := do
  match outcome with
  | .answer a => return a
  | .object id => return .object (← number id)
  | .loaded id =>
    modify fun s => { s with project := some id }
    return .state (← viewProject)
  | .selected id =>
    modify fun s => { s with project := id }
    return .nothing
  | .configured c shown =>
    modify fun s => { s with config := c }
    return if shown then .value c.toValue else .nothing
  | .state => return .state (← viewProject)

/-- Carries out a step and collects what can be seen of it. Localizations that events name are
numbered first, then those in the answer, then those in the state. -/
def step (step : Step) : StateM Session Observation := do
  modify (rememberListener step)
  let s ← get
  let (result, world) := ((perform s step).run.run { s.world with journal := {} })
  set { s with world := world }
  let events ← world.journal.events.mapM fun (listener, id) =>
    return (listener.name, ← number (some id))
  let outcome ← match result with
    | .ok outcome => Except.ok <$> present outcome
    | .error e => pure (Except.error e)
  let state ← if showsState step then some <$> viewProject else pure none
  return {
    outcome, events, state
    warnings := world.journal.warnings, calls := world.journal.calls, log := world.journal.log }

structure Setup where
  files : FileSystem := .memory {}
  contents : List (String × FileSpec) := []
  config : Config := {}
  replies : List Reply := []
  localizations : List LocalizationSpec := []
  project : Option ProjectSpec := none

def start (setup : Setup) : Except Fault Session := do
  let localizations ← setup.localizations.mapM makeLocalization
  let files := setup.contents.foldl (fun fs (path, content) => putFile path content fs) setup.files
  let s : Session := {
    world := { localizations := localizations.toArray, files }
    config := setup.config, replies := setup.replies
    numbered := (List.range localizations.length).map some }
  let (project, world) := (setup.project.mapM (makeProject s)).run.run s.world
  return { s with world := { world with journal := {} }, project := ← project }

def run (setup : Setup) (steps : List Step) : Except Fault (List Observation) := do
  return (steps.mapM step |>.run (← start setup)).1

end Session

end Dialogue
