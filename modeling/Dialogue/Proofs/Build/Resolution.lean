import Dialogue.Proofs.Build.Slot
import Dialogue.Proofs.Files.Laws

/-! The outcome of a language, the path of its table and the files that are left are worked out from
the files, the code and the path alone. What a slot of the list does to the world is no more than
this. -/

namespace Dialogue.Build

def rowsAt (config : Config) (fs : FileSystem) (path : Value) :
    Except Fault (List StringTable.Entry) :=
  match fs.readText path config.encoding with
  | .error e => .error e
  | .ok text => (StringTable.decode text).mapError Fault.table

theorem rowsAt_of_sameFile (config : Config) {fs fs' : FileSystem} {path : Value}
    (h : FileSystem.SameFile path fs fs') : rowsAt config fs' path = rowsAt config fs path := by
  rw [rowsAt, h.readText, rowsAt]

section Context

variable (c : Context) (fs : FileSystem) (code path : Value)

def writeTable (target : String) : Except Fault Unit × FileSystem :=
  fs.writeText target (StringTable.encode c.entries) c.config.encoding

def target : Except Fault String :=
  if c.config.canWriteTables.truthy then tablePath fs c.config c.project code
  else .error (.source (.notGenerated c.project.name code))

/-- A table that has been looked for: its rows, the path on record and the files that are left. -/
structure Resolution where
  rows : Except Fault (List StringTable.Entry)
  path : Value
  files : FileSystem

def resolve : Resolution :=
  match path with
  | .null =>
    match target c fs code with
    | .error e => ⟨.error e, .null, fs⟩
    | .ok p =>
      match (writeTable c fs p).1 with
      | .error e => ⟨.error e, .null, (writeTable c fs p).2⟩
      | .ok () =>
        ⟨rowsAt c.config (writeTable c fs p).2 (.text p), .text p, (writeTable c fs p).2⟩
  | path => ⟨rowsAt c.config fs path, path, fs⟩

/-- Whether a language is looked up in a table: it has a code, which is not that of the base. -/
def hasTable : Bool :=
  code.truthy && !code.same c.project.baseLanguage

/-- What a language comes to when its rows have been looked for: an outcome, or a fault that ends
the build. -/
def judge (rows : Except Fault (List StringTable.Entry)) : Except Fault Outcome :=
  match rows with
  | .ok rows => .ok (.rebuilt rows)
  | .error e =>
    match skipMessage? c.project code e with
    | some message => .ok (.skipped message)
    | none => .error e

def tablelessMessage : String :=
  if code.truthy then duplicateMessage c.project code else noCodeMessage c.project

/-- What a language other than the base comes to, with the path and the files that are left. -/
structure Settlement where
  outcome : Except Fault Outcome
  path : Value
  files : FileSystem

def settle : Settlement :=
  if hasTable c code then
    let r := resolve c fs code path
    ⟨judge c code r.rows, r.path, r.files⟩
  else ⟨.ok (.skipped (tablelessMessage c code)), path, fs⟩

def settlementOf (id : LocalizationId) (w : World) : Settlement :=
  settle c w.files (w.localization id).localeCode (w.localization id).stringFile

/-! ## Cases -/

section Cases

variable {c fs code path}

theorem resolve_of_ne_null (h : path ≠ .null) :
    resolve c fs code path = ⟨rowsAt c.config fs path, path, fs⟩ :=
  resolve.eq_2 c fs code path h

theorem resolve_of_noTarget {e : Fault} (h : target c fs code = .error e) :
    resolve c fs code .null = ⟨.error e, .null, fs⟩ := by
  simp only [resolve, h]

theorem resolve_of_refused {p : String} {e : Fault} (h : target c fs code = .ok p)
    (hwrite : (writeTable c fs p).1 = .error e) :
    resolve c fs code .null = ⟨.error e, .null, (writeTable c fs p).2⟩ := by
  simp only [resolve, h, hwrite]

theorem resolve_of_written {p : String} (h : target c fs code = .ok p)
    (hwrite : (writeTable c fs p).1 = .ok ()) :
    resolve c fs code .null =
      ⟨rowsAt c.config (writeTable c fs p).2 (.text p), .text p, (writeTable c fs p).2⟩ := by
  simp only [resolve, h, hwrite]

/-- A language is looked up at its path, or there is nowhere to generate its table, or the table is
refused there, or it is written. -/
theorem resolve_cases (c : Context) (fs : FileSystem) (code path : Value) :
    (path ≠ .null ∧ resolve c fs code path = ⟨rowsAt c.config fs path, path, fs⟩) ∨
    (path = .null ∧ ∃ e, target c fs code = .error e ∧
      resolve c fs code path = ⟨.error e, .null, fs⟩) ∨
    (path = .null ∧ ∃ p e, target c fs code = .ok p ∧ (writeTable c fs p).1 = .error e ∧
      resolve c fs code path = ⟨.error e, .null, (writeTable c fs p).2⟩) ∨
    (path = .null ∧ ∃ p, target c fs code = .ok p ∧ (writeTable c fs p).1 = .ok () ∧
      resolve c fs code path =
        ⟨rowsAt c.config (writeTable c fs p).2 (.text p), .text p, (writeTable c fs p).2⟩) := by
  by_cases hpath : path = .null
  case neg => exact .inl ⟨hpath, resolve_of_ne_null hpath⟩
  case pos =>
    subst hpath
    cases htarget : target c fs code with
    | error e => exact .inr (.inl ⟨rfl, e, rfl, resolve_of_noTarget htarget⟩)
    | ok p =>
        cases hwrite : (writeTable c fs p).1 with
        | error e =>
            exact .inr (.inr (.inl ⟨rfl, p, e, rfl, hwrite, resolve_of_refused htarget hwrite⟩))
        | ok _ =>
            exact .inr (.inr (.inr ⟨rfl, p, rfl, hwrite, resolve_of_written htarget hwrite⟩))

theorem settle_of_hasTable (h : hasTable c code = true) :
    settle c fs code path = ⟨judge c code (resolve c fs code path).rows,
      (resolve c fs code path).path, (resolve c fs code path).files⟩ := by
  rw [settle, if_pos h]

theorem settle_of_hasTable_eq_false (h : hasTable c code = false) :
    settle c fs code path = ⟨.ok (.skipped (tablelessMessage c code)), path, fs⟩ := by
  rw [settle, if_neg (by rw [h]; exact Bool.false_ne_true)]

end Cases

end Context

/-! ## What a language depends on -/

/-- Agreement in all that the languages of a project depend on. -/
structure Context.Alike (c c' : Context) : Prop where
  config : c'.config = c.config
  name : c'.project.name = c.project.name
  path : c'.project.path = c.project.path
  language : c'.project.baseLanguage = c.project.baseLanguage
  entries : c'.entries = c.entries

namespace Context.Alike

variable {c c' : Context} (h : c.Alike c')

include h

theorem hasTable (code : Value) : hasTable c' code = Build.hasTable c code := by
  rw [Build.hasTable, h.language, Build.hasTable]

theorem writeTable (fs : FileSystem) (p : String) :
    writeTable c' fs p = Build.writeTable c fs p := by
  rw [Build.writeTable, h.entries, h.config, Build.writeTable]

theorem target (fs : FileSystem) (code : Value) : target c' fs code = Build.target c fs code := by
  simp only [Build.target, tablePath, h.config, h.name, h.path]

theorem resolve (fs : FileSystem) (code path : Value) :
    resolve c' fs code path = Build.resolve c fs code path := by
  unfold Build.resolve
  rw [h.target, h.config]
  simp only [h.writeTable]

theorem judge (code : Value) (rows : Except Fault (List StringTable.Entry)) :
    judge c' code rows = Build.judge c code rows := by
  unfold Build.judge skipMessage? parsingMessage
  rw [h.name]

theorem noCodeMessage : Build.noCodeMessage c'.project = Build.noCodeMessage c.project := by
  unfold Build.noCodeMessage
  rw [h.name]

theorem tablelessMessage (code : Value) :
    tablelessMessage c' code = Build.tablelessMessage c code := by
  unfold Build.tablelessMessage duplicateMessage
  rw [h.name, h.noCodeMessage]

theorem settle (fs : FileSystem) (code path : Value) :
    settle c' fs code path = Build.settle c fs code path := by
  unfold Build.settle
  rw [h.hasTable, h.resolve, h.tablelessMessage]
  simp only [h.judge]

end Context.Alike

/-! ## Loading -/

section Load

variable (c : Context) {id : LocalizationId} {w : World}

theorem exec_generateTable (code : Value) (w : World) :
    (generateTable c.config c.project code c.entries).exec w =
      match target c w.files code with
      | .error e => (.error e, w)
      | .ok p => ((writeTable c w.files p).1.map fun _ => p,
          { w.logged .info ("Generate " ++ p) with files := (writeTable c w.files p).2 }) := by
  rw [generateTable, target]
  cases c.config.canWriteTables.truthy with
  | false => rfl
  | true =>
      simp only [Bool.not_true, Bool.false_eq_true, if_false, if_true]
      rw [Action.exec_bind_of_ok (Action.exec_get w), Action.exec_bind, Action.exec_ofExcept]
      cases tablePath w.files c.config c.project code with
      | error e => rfl
      | ok p =>
          dsimp only
          rw [Action.exec_bind_of_ok (Action.exec_log _ _ _), Action.exec_bind,
            Action.exec_writeText]
          simp only [writeTable, World.logged]
          cases (w.files.writeText p (StringTable.encode c.entries) c.config.encoding).1 <;> rfl

/-- What is found when a table is loaded, and what is left on record and in the files. -/
theorem exec_loadTable (hid : id < w.localizations.size) :
    let r := resolve c w.files (w.localization id).localeCode (w.localization id).stringFile
    ∃ v, (loadTable c.config c.project id c.entries).exec w = (r.rows, v) ∧ v.files = r.files ∧
      (v.localization id).stringFile = r.path := by
  intro r
  have hgenerate := exec_generateTable c (w.localization id).localeCode w
  rcases resolve_cases c w.files (w.localization id).localeCode (w.localization id).stringFile with
    ⟨hpath, hr⟩ | ⟨hpath, e, htarget, hr⟩ | ⟨hpath, p, e, htarget, hwrite, hr⟩ |
    ⟨hpath, p, htarget, hwrite, hr⟩
  · rw [exec_loadTable_of_recorded c.config c.project c.entries hpath]
    simp only [r, hr]
    exact ⟨w, rfl, rfl, rfl⟩
  · rw [exec_loadTable_of_null c.config c.project c.entries hpath, hgenerate]
    simp only [r, hr, htarget]
    exact ⟨w, rfl, rfl, hpath⟩
  · rw [exec_loadTable_of_null c.config c.project c.entries hpath, hgenerate]
    simp only [r, hr, htarget, hwrite]
    exact ⟨_, rfl, rfl, hpath⟩
  · rw [exec_loadTable_of_null c.config c.project c.entries hpath, hgenerate]
    simp only [r, hr, htarget, hwrite]
    let written : World :=
      { w.logged .info ("Generate " ++ p) with files := (writeTable c w.files p).2 }
    have hrecorded : ((written.setLocalization id
        { written.localization id with stringFile := .text p }).localization id).stringFile =
        .text p := by
      rw [World.localization_setLocalization_self written hid]
    refine ⟨_, Prod.ext ?_ rfl, rfl, hrecorded⟩
    change recordedRows c.config id (written.setLocalization id
      { written.localization id with stringFile := .text p }) = _
    rw [recordedRows, hrecorded]
    rfl

end Load

/-! ## Slots -/

section Slot

variable {c : Context} {slot : Nat} {id : LocalizationId} {w : World}

/-- What is done in a slot is what the localization there comes to, with the files and the path that
go with it. -/
def Settles (c : Context) (slot : Nat) (id : LocalizationId) (report : BuildReport) (w : World) :
    Prop :=
  ∃ v, (syncSlot c slot id report).exec w =
      ((settlementOf c id w).outcome.map fun o =>
        o.note (w.localization id).localeCode report, v) ∧
    v.files = (settlementOf c id w).files ∧
    (v.localization id).stringFile = (settlementOf c id w).path ∧
    ∀ o, (settlementOf c id w).outcome = .ok o → Synced c slot id w o v

theorem settles_of_noCode (slot : Nat) (report : BuildReport)
    (hcode : (w.localization id).localeCode.truthy = false) : Settles c slot id report w := by
  have htable : hasTable c (w.localization id).localeCode = false := by simp [hasTable, hcode]
  have hmessage : tablelessMessage c (w.localization id).localeCode = noCodeMessage c.project := by
    simp [tablelessMessage, hcode]
  rw [Settles, exec_syncSlot_of_noCode c slot id report hcode, settlementOf,
    settle_of_hasTable_eq_false htable, hmessage]
  refine ⟨_, rfl, rfl, rfl, ?_⟩
  rintro _ ⟨⟩
  exact .skipped (.noCode hcode) (.of_sameStore (.logged w _ _))

theorem settles_of_duplicate (slot : Nat) (report : BuildReport) (hother : id ≠ c.base)
    (hcode : (w.localization id).localeCode.truthy = true)
    (hsame : (w.localization id).localeCode.same c.project.baseLanguage = true) :
    Settles c slot id report w := by
  have htable : hasTable c (w.localization id).localeCode = false := by simp [hasTable, hsame]
  have hmessage : tablelessMessage c (w.localization id).localeCode =
      duplicateMessage c.project (w.localization id).localeCode := by
    simp [tablelessMessage, hcode]
  rw [Settles, exec_syncSlot_of_duplicate c slot id report hcode hsame hother, settlementOf,
    settle_of_hasTable_eq_false htable, hmessage]
  refine ⟨_, rfl, rfl, rfl, ?_⟩
  rintro _ ⟨⟩
  exact .skipped (.duplicate hcode hsame hother)
    ((recorded_announced id w).trans (.of_sameStore (.logged _ _ _)))

theorem settles_of_foreign (slot : Nat) (report : BuildReport)
    (hcode : (w.localization id).localeCode.truthy = true)
    (hsame : (w.localization id).localeCode.same c.project.baseLanguage = false) :
    Settles c slot id report w := by
  have hid := lt_size_of_truthy hcode
  let code := (w.localization id).localeCode
  let r := resolve c w.files code (w.localization id).stringFile
  have htable : hasTable c code = true := by simp [hasTable, code, hcode, hsame]
  have hsettled : settlementOf c id w = ⟨judge c code r.rows, r.path, r.files⟩ :=
    settle_of_hasTable htable
  obtain ⟨u, hload, hfiles, hpath⟩ :
      ∃ u, (loadTable c.config c.project id c.entries).exec (announced id w) = (r.rows, u) ∧
        u.files = r.files ∧ (u.localization id).stringFile = r.path :=
    exec_loadTable c (w := announced id w) hid
  obtain ⟨hrecorded, hread⟩ :=
    loadTable_spec c.config c.project c.entries (w := announced id w) hid hload
  have hu := (recorded_announced id w).trans hrecorded
  rw [Settles, exec_syncSlot_of_foreign c slot id report hcode hsame, hsettled, hload]
  cases hrows : r.rows with
  | ok rows =>
      refine ⟨_, rfl, hfiles, ?_, ?_⟩
      · rw [localization_replaced_of_lt c slot _ (by rwa [hu.size])]
        exact hpath
      · rintro _ ⟨⟩
        exact .rebuilt hcode hsame hu (hread rows hrows)
  | error fault =>
      simp only [judge]
      cases hskips : skipMessage? c.project code fault with
      | none =>
          refine ⟨u, rfl, hfiles, hpath, ?_⟩
          rintro _ ⟨⟩
      | some message =>
          refine ⟨_, rfl, hfiles, hpath, ?_⟩
          rintro _ ⟨⟩
          exact .skipped (.unread hcode hsame (by rw [hload, hrows]) hskips)
            (hu.trans (.of_sameStore (.logged _ _ _)))

/-- What is done in the slot of a localization other than the base. -/
theorem settles_of_other (slot : Nat) (report : BuildReport) (hother : id ≠ c.base) :
    Settles c slot id report w := by
  cases hcode : (w.localization id).localeCode.truthy with
  | false => exact settles_of_noCode slot report hcode
  | true =>
      cases hsame : (w.localization id).localeCode.same c.project.baseLanguage with
      | true => exact settles_of_duplicate slot report hother hcode hsame
      | false => exact settles_of_foreign slot report hcode hsame

/-- The base has no table of its own, so that its slot leaves the files and its path alone. -/
theorem effect_of_base {report report' : BuildReport} {v : World} (hbase : id = c.base)
    (hcode : (w.localization id).localeCode.same c.project.baseLanguage = true)
    (h : (syncSlot c slot id report).exec w = (.ok report', v)) :
    v.files = w.files ∧ (v.localization id).stringFile = (w.localization id).stringFile := by
  cases htruthy : (w.localization id).localeCode.truthy with
  | false =>
      rw [exec_syncSlot_of_noCode c slot id report htruthy] at h
      cases h
      exact ⟨rfl, rfl⟩
  | true =>
      have hid := lt_size_of_truthy htruthy
      rw [exec_syncSlot_of_base c slot id report htruthy hcode hbase] at h
      obtain ⟨-, hpersisted, -⟩ := loadBase_eq_ok (w := announced id w) hid h
      refine ⟨hpersisted.files, ?_⟩
      rw [hpersisted.self, World.localization_setLocalization_self (announced id w) hid]
      rfl

/-- What a slot that does not end the build leaves in the files and on record. -/
theorem effect_of_slot {report report' : BuildReport} {v : World}
    (hcode : id = c.base → (w.localization id).localeCode.same c.project.baseLanguage = true)
    (h : (syncSlot c slot id report).exec w = (.ok report', v)) :
    v.files = (settlementOf c id w).files ∧
      (v.localization id).stringFile = (settlementOf c id w).path := by
  by_cases hbase : id = c.base
  case neg =>
    obtain ⟨u, hslot, hfiles, hpath, -⟩ := settles_of_other slot report hbase
    rw [h] at hslot
    obtain rfl := (Prod.mk.inj hslot).2
    exact ⟨hfiles, hpath⟩
  case pos =>
    have htable : hasTable c (w.localization id).localeCode = false := by
      simp [hasTable, hcode hbase]
    rw [settlementOf, settle_of_hasTable_eq_false htable]
    exact effect_of_base hbase (hcode hbase) h

end Slot

end Dialogue.Build
