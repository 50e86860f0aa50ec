import Dialogue.Files.FileSystem
import Dialogue.Project

/-! All that operations can change: the localizations and projects there are, by number, the files,
and a journal of what an observer can see. An `Action` may fail, and what it has changed until then
stays changed. -/

namespace Dialogue

abbrev ProjectId := Nat

inductive LogLevel where
  | info
  | warning
  | error
  deriving DecidableEq

/-- What the compiler has been called with, and failures inside a call that it took note of. -/
inductive CallRecord where
  | job (job : Job)
  | fault (fault : Fault)

/-- What an observer can see, in the order in which it happens. -/
structure Journal where
  events : List (Listener × LocalizationId) := []
  warnings : List String := []
  log : List (LogLevel × String) := []
  calls : List CallRecord := []

structure World where
  localizations : Array Localization := #[]
  projects : Array Project := #[]
  files : FileSystem := .memory {}
  journal : Journal := {}
  parses : Nat := 0
  compilerCalls : Nat := 0

abbrev Action (α : Type) := ExceptT Fault (StateM World) α

namespace World

def localization (w : World) (id : LocalizationId) : Localization :=
  w.localizations.getD id {}

def setLocalization (w : World) (id : LocalizationId) (l : Localization) : World :=
  { w with localizations := w.localizations.setIfInBounds id l }

/-- A new localization, whose number is the number of localizations before. -/
def addLocalization (w : World) (l : Localization) : World :=
  { w with localizations := w.localizations.push l }

def project (w : World) (id : ProjectId) : Project :=
  w.projects.getD id {}

def setProject (w : World) (id : ProjectId) (p : Project) : World :=
  { w with projects := w.projects.setIfInBounds id p }

end World

namespace Action

def ofExcept {α : Type} : Except Fault α → Action α
  | .ok a => pure a
  | .error e => throw e

def attempt {α : Type} (action : Action α) : Action (Except Fault α) :=
  tryCatch (do return .ok (← action)) fun e => return .error e

/-! ## Localizations -/

def localization (id : LocalizationId) : Action Localization :=
  return (← get).localization id

def updateLocalization (id : LocalizationId) (change : Localization → Localization) : Action Unit :=
  modify fun w => w.setLocalization id (change (w.localization id))

def newLocalization (l : Localization) : Action LocalizationId := do
  let id := (← get).localizations.size
  modify fun w => w.addLocalization l
  return id

/-! ## Projects -/

def project (id : ProjectId) : Action Project :=
  return (← get).project id

def updateProject (id : ProjectId) (change : Project → Project) : Action Unit :=
  modify fun w => w.setProject id (change (w.project id))

/-- A new project. Without a base localization it gets one in its base language. -/
def newProject (p : Project) : Action ProjectId := do
  let base ← match p.base with
    | some base => pure base
    | none => newLocalization { localeCode := p.baseLanguage }
  let id := (← get).projects.size
  modify fun w => { w with projects := w.projects.push { p with base := some base } }
  return id

def access {α : Type} (id : ProjectId) (reading : Project.Access α) : Action α := do
  let w ← get
  let (result, r) := reading.run.run { project := w.project id, parses := w.parses }
  modify fun w =>
    { w.setProject id r.project with
      parses := r.parses
      journal := { w.journal with warnings := w.journal.warnings ++ r.warnings } }
  ofExcept result

/-! ## The journal -/

def updateJournal (change : Journal → Journal) : Action Unit :=
  modify fun w => { w with journal := change w.journal }

def log (level : LogLevel) (message : String) : Action Unit :=
  updateJournal fun j => { j with log := j.log ++ [(level, message)] }

def warn (message : String) : Action Unit :=
  updateJournal fun j => { j with warnings := j.warnings ++ [message] }

def recordCall (call : CallRecord) : Action Unit :=
  updateJournal fun j => { j with calls := j.calls ++ [call] }

/-! ## Files -/

def existsAt (path : Value) : Action Bool := do
  ofExcept ((← get).files.existsAt path)

def readText (path encoding : Value) : Action String := do
  ofExcept ((← get).files.readText path encoding)

def writeText (path text : String) (encoding : Value) : Action Unit := do
  let (result, files) := (← get).files.writeText path text encoding
  modify fun w => { w with files := files }
  ofExcept result

/-! ## Change notifications -/

def react (id : LocalizationId) (listener : Listener) : Action Unit := do
  updateJournal fun j => { j with events := j.events ++ [(listener, id)] }
  match listener.reaction with
  | .nothing => return
  | .leave =>
    let l ← ofExcept ((← localization id).removeListener listener.name)
    updateLocalization id fun _ => l
  | .fail => throw (.listener listener.name)
  | .overlay => updateLocalization id fun l => l.addText (.text "overlay") (.text listener.name)

def notify (id : LocalizationId) : List Listener → Action Unit
  | [] => return
  | listener :: rest => do
    react id listener
    notify id rest

/-- Adds or replaces a persisted text and tells all listeners that are registered by then. -/
def persistText (id : LocalizationId) (line : Scalar) (text : Value) : Action Unit := do
  updateLocalization id fun l => l.storeText line text
  notify id (← localization id).listeners

def persistTexts (id : LocalizationId) : List (Scalar × Value) → Action Unit
  | [] => return
  | (line, text) :: rest => do
    persistText id line text
    persistTexts id rest

end Action

end Dialogue
