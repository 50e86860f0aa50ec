import Dialogue.Config
import Dialogue.Hash.Lock
import Dialogue.World

/-! A build turns sources into a compiled program and brings the localizations of a project up to
date. Whatever goes wrong up to the serialized program rejects the build and leaves the project as
it is; what goes wrong with one language only skips that language. -/

namespace Dialogue

inductive BuildStatus where
  | ok
  | invalidData
  | compilationFailed
  deriving DecidableEq

def BuildStatus.name : BuildStatus → String
  | .ok => "ok"
  | .invalidData => "invalid_data"
  | .compilationFailed => "compilation_failed"

structure BuildReport where
  status : BuildStatus := .ok
  reason : Option String := none
  diagnostics : List String := []
  warnings : List String := []
  skipped : List Value := []

/-- Notes a skipped language. A message that is there already is not repeated. -/
def BuildReport.skip (r : BuildReport) (code : Value) (message : String) : BuildReport :=
  { r with
    warnings := if r.warnings.contains message then r.warnings else r.warnings ++ [message]
    skipped := r.skipped ++ [code] }

/-- A compiler may do anything to the world while it is called. -/
abbrev Compiler := Job → Action Compilation

namespace Build

/-- Why a build ends before the program is stored. -/
structure Rejection where
  status : BuildStatus
  reason : String
  diagnostics : List String := []
  deriving DecidableEq

def Rejection.report (r : Rejection) : BuildReport :=
  { status := r.status, reason := some r.reason, diagnostics := r.diagnostics }

abbrev Stage (α : Type) := ExceptT Rejection (ExceptT Fault (StateM World)) α

def failed (reason : String) (diagnostics : List String := []) : Rejection :=
  ⟨.compilationFailed, reason, diagnostics⟩

/-! ## Admission -/

/-- What is wrong with a request to build a project, whether it is being built or not. -/
def precondition (p : Project) : Except ProjectFault Unit :=
  if p.sources.isEmpty then .error (.noSources p.name)
  else if p.base.isNone then .error (.noBase p.name)
  else .ok ()

/-! ## Compiling -/

def sourceText (encoding source : Value) : Stage String := do
  match (← get).files.readText source encoding with
  | .ok text => return text
  | .error e =>
    if e.isUnreadable then
      throw (failed ("Could not read source " ++ source.display ++ ": " ++ e.message) [e.message])
    else throwThe Fault e

def gatherText (encoding : Value) : List Value → Stage String
  | [] => return ""
  | source :: rest => do
    if source matches .null then gatherText encoding rest
    else if ← Action.existsAt source then
      return (← sourceText encoding source) ++ (← gatherText encoding rest)
    else gatherText encoding rest

def adaptDeclarations (p : Project) : Stage (List AdaptedDeclaration) := do
  match Declaration.adaptAll p.declarations with
  | .ok ds => return ds
  | .error e =>
    match e with
    | .project _ =>
      Action.log .error ("Invalid project " ++ p.name.display ++ ": " ++ e.message)
      throw ⟨.invalidData, e.message, []⟩
    | .default _ =>
      Action.log .error ("Invalid declaration in project " ++ p.name.display ++ ": " ++ e.message)
      throw (failed e.message [e.message])
    | e => throwThe Fault e

/-- What the compiler makes of a job. A crash of the compiler rejects the build. -/
def callCompiler (compiler : Compiler) (p : Project) (job : Job) : Stage Compilation := do
  match ← Action.attempt (compiler job) with
  | .ok compilation => return compilation
  | .error e =>
    Action.log .error ("Compiler failed on project " ++ p.name.display)
    throw (failed ("Compiler failed: " ++ e.message) [e.message])

def logAll (level : LogLevel) (messages : List String) : Action Unit :=
  Action.updateJournal fun j => { j with log := j.log ++ messages.map fun m => (level, m) }

def missingProgram : String :=
  "Internal error: Failed to compile: resulting program was null, but compiler did not report "
    ++ "errors."

/-- The bytes of a compiled program, unless the compiler reported errors or returned none. -/
def serializedProgram (p : Project) (c : Compilation) : Stage Bytes := do
  logAll .warning (c.warnings.map Diagnostic.render)
  if !c.errors.isEmpty then
    let errors := c.errors.map Diagnostic.render
    logAll .error errors
    throw (failed ("Compiler reported " ++ toString errors.length ++ " error(s)") errors)
  match c.program with
  | none =>
    Action.log .error missingProgram
    throw (failed missingProgram [missingProgram])
  | some output =>
    match output.serialize with
    | .ok blob => return blob
    | .error e =>
      Action.log .error ("Could not serialize the program of project " ++ p.name.display)
      throw (failed ("Could not serialize compiled program: " ++ e.message) [e.message])

def compile (compiler : Compiler) (config : Config) (p : Project) :
    Stage (Compilation × Bytes) := do
  let text ← gatherText config.encoding p.sources
  if text = "" then
    throw (failed ("Project " ++ p.name.quoted ++ " has no source content"))
  let declarations ← adaptDeclarations p
  let compilation ← callCompiler compiler p ⟨p.sourceName, text, declarations⟩
  return (compilation, ← serializedProgram p compilation)

/-! ## Localizations -/

/-- The list with the base at its first place only, or at the end if it was nowhere. -/
def registerBase (base : LocalizationId) (ids : List LocalizationId) : List LocalizationId :=
  match ids.span (· ≠ base) with
  | (before, []) => before ++ [base]
  | (before, _ :: after) => before ++ base :: after.filter (· ≠ base)

def lockLength (v : Value) : Except Fault (Option Int) :=
  match v with
  | .null => .ok none
  | .int n => .ok (some n)
  | .bool b => .ok (some (if b then 1 else 0))
  | .float x => if x < 0 then .ok (some (-1)) else .error (.mismatch .other)
  | _ => .error (.mismatch .other)

def fieldText (v : Value) : String :=
  match v with
  | .null => ""
  | v => v.display

def baseEntry (language : Value) (length : Option Int) (id : Scalar) (line : Line) :
    StringTable.Entry :=
  { id := id.display
    language := fieldText language
    text := line.text
    file := line.file
    node := line.node
    lineNumber := toString line.number
    lock := Hash.ofText line.text length }

def baseEntries (language : Value) (config : Config) (lines : Table Line) :
    Except Fault (List StringTable.Entry) :=
  if lines.isEmpty then .ok []
  else (lockLength config.lockLength).map fun length =>
    lines.map fun e => baseEntry language length e.1 e.2

def textsOf (entries : List StringTable.Entry) : List (Scalar × Value) :=
  entries.map fun e => (.text e.id, .text e.text)

/-- Takes a suffix off the end of a path that has it. The empty suffix is at the end of every path,
and takes away all of it. -/
def withoutSuffix (path suffix : List Char) : List Char :=
  if suffix.isSuffixOf path then
    if suffix.isEmpty then [] else path.take (path.length - suffix.length)
  else path

def tablePath (files : FileSystem) (config : Config) (p : Project) (code : Value) :
    Except Fault String :=
  if !p.path.truthy then .error (.source (.noPath p.name code))
  else
    match files.absolute p.path with
    | .error e => .error e
    | .ok (.text path) =>
      match config.projectSuffix with
      | .text suffix =>
        let stem := String.ofList (withoutSuffix path.toList suffix.toList)
        .ok (stem ++ "(" ++ code.display ++ ").csv" ++ suffix)
      | _ => .error (.mismatch .other)
    | .ok (.scalar (.bytes _)) => .error (.mismatch .other)
    | .ok _ => .error .noOperation

def generateTable (config : Config) (p : Project) (code : Value)
    (entries : List StringTable.Entry) : Action String := do
  if !config.canWriteTables.truthy then throw (.source (.notGenerated p.name code))
  let target ← Action.ofExcept (tablePath (← get).files config p code)
  Action.log .info ("Generate " ++ target)
  Action.writeText target (StringTable.encode entries) config.encoding
  return target

/-- The entries of a language's table, which is generated first if it is missing. The path of a
generated table is recorded before the table is read. -/
def loadTable (config : Config) (p : Project) (id : LocalizationId)
    (entries : List StringTable.Entry) : Action (List StringTable.Entry) := do
  let l ← Action.localization id
  if l.stringFile matches .null then
    let target ← generateTable config p l.localeCode entries
    Action.updateLocalization id fun l => { l with stringFile := .text target }
  let text ← Action.readText (← Action.localization id).stringFile config.encoding
  match StringTable.decode text with
  | .ok entries => return entries
  | .error e => throw (.table e)

def rebuilt (l : Localization) (entries : List StringTable.Entry) : Localization :=
  (textsOf entries).foldl (fun l e => l.storeText e.1 e.2) l.renewed

def skip (report : BuildReport) (code : Value) (message : String) : Action BuildReport := do
  Action.log .warning message
  return report.skip code message

def noCodeMessage (p : Project) : String :=
  "Not creating a localization for " ++ p.name.display ++ " because the language ID wasn't "
    ++ "provided. Add the language ID to the localization."

def duplicateMessage (p : Project) (code : Value) : String :=
  "Not creating a localization for " ++ code.display ++ " in project " ++ p.name.display
    ++ " because " ++ code.display ++ " is the base language. Remove the duplicate localization."

def parsingMessage (p : Project) (code : Value) (e : Fault) : String :=
  "Not creating a localization for " ++ code.display ++ " in project " ++ p.name.display
    ++ " because an error was encountered during text parsing: " ++ e.message

/-- The message of a fault that skips a language; none of a fault that ends the build. -/
def skipMessage? (p : Project) (code : Value) (e : Fault) : Option String :=
  match e with
  | .source f => some f.message
  | e => if e.skipsLanguage then some (parsingMessage p code e) else none

structure Context where
  config : Config
  projectId : ProjectId
  /-- The project after the base has been registered. -/
  project : Project
  base : LocalizationId
  entries : List StringTable.Entry

def syncSlot (c : Context) (slot : Nat) (id : LocalizationId) (report : BuildReport) :
    Action BuildReport := do
  let code := (← Action.localization id).localeCode
  if !code.truthy then
    skip report code (noCodeMessage c.project)
  else
    Action.log .info ("Generating string file for language " ++ code.display)
    if code.same c.project.baseLanguage then
      if id ≠ c.base then skip report code (duplicateMessage c.project code)
      else
        Action.updateLocalization id Localization.clear
        Action.persistTexts id (textsOf c.entries)
        return report
    else
      match ← Action.attempt (loadTable c.config c.project id c.entries) with
      | .error e =>
        match skipMessage? c.project code e with
        | some message => skip report code message
        | none => throw e
      | .ok entries =>
        let fresh ← Action.newLocalization (rebuilt (← Action.localization id) entries)
        Action.updateProject c.projectId fun p =>
          { p with localizations := p.localizations.set slot fresh }
        return report

def syncSlots (c : Context) (report : BuildReport) (slot : Nat) :
    List LocalizationId → Action BuildReport
  | [] => return report
  | id :: rest => do
    let report ← syncSlot c slot id report
    syncSlots c report (slot + 1) rest

def publish (config : Config) (projectId : ProjectId) (compilation : Compilation) (blob : Bytes) :
    Action BuildReport := do
  Action.updateProject projectId fun p => p.setBlob (some blob)
  let p ← Action.project projectId
  match p.base with
  | none => throw .noOperation
  | some base =>
    Action.updateLocalization base fun l => { l with localeCode := p.baseLanguage }
    Action.updateProject projectId fun p =>
      { p with localizations := registerBase base p.localizations }
    let p ← Action.project projectId
    let entries ← Action.ofExcept (baseEntries p.baseLanguage config compilation.lines)
    syncSlots ⟨config, projectId, p, base, entries⟩ {} 0 p.localizations

def run (compiler : Compiler) (config : Config) (projectId : ProjectId) : Action BuildReport := do
  match ← (compile compiler config (← Action.project projectId)).run with
  | .error r => return r.report
  | .ok (compilation, blob) => publish config projectId compilation blob

end Build

/-- Builds a project. A request that cannot be met is reported; one for a project that is being
built already is refused. -/
def build (compiler : Compiler) (config : Config) : Option ProjectId → Action BuildReport
  | none => reject .missing
  | some id => do
    let p ← Action.project id
    match Build.precondition p with
    | .error e => reject e
    | .ok () =>
      if p.building then throw (.inProgress p.name)
      Action.updateProject id fun p => { p with building := true }
      let result ← Action.attempt (Build.run compiler config id)
      Action.updateProject id fun p => { p with building := false }
      Action.ofExcept result
where
  reject (e : ProjectFault) : Action BuildReport := do
    Action.log .error ("Cannot build project: " ++ e.message)
    return { status := .invalidData, reason := some e.message }

def setSources (compiler : Compiler) (config : Config) (project : Option ProjectId)
    (sources : List Value) : Action BuildReport :=
  match project with
  | none => build compiler config none
  | some id => do
    Action.updateProject id fun p => { p with sources := sources }
    let report ← build compiler config (some id)
    let p ← Action.project id
    Action.log .info
      ("Project " ++ p.name.display ++ " compilation result: " ++ report.status.name)
    return report

end Dialogue
