import Dialogue.Proofs.Build.Forecast
import Dialogue.Proofs.Files.Writes

/-! A build writes nothing but the tables of languages that have none on record, each at its place
next to the project. Every other file is left alone, whatever the build comes to. -/

namespace Dialogue

namespace Build

open Dialogue.Action (Keeps)
open FileSystem (SameAt)

/-- A language of a project that has no table on record, and the place at which one may be
generated. -/
structure AwaitsTable (config : Config) (id : ProjectId) (w : World) (k : LocalizationId)
    (path : String) : Prop where
  listed : k ∈ (w.project id).localizations
  other : (w.project id).base ≠ some k
  code : (w.localization k).localeCode.truthy = true
  foreign : (w.localization k).localeCode.same (w.project id).baseLanguage = false
  missing : (w.localization k).stringFile = .null
  permitted : config.canWriteTables.truthy = true
  place : tablePath w.files config (w.project id) (w.localization k).localeCode = .ok path

/-- Worlds between which a text has been written at paths of `P`, while of the localizations there
are none has another code and none has lost the path of its table. -/
structure Wrote (P : String → Prop) (text : String) (encoding : Value) (w v : World) : Prop where
  size : w.localizations.size ≤ v.localizations.size
  code : ∀ k < w.localizations.size,
    (v.localization k).localeCode = (w.localization k).localeCode
  recorded : ∀ k < w.localizations.size, (v.localization k).stringFile = .null →
    (w.localization k).stringFile = .null
  files : w.files.WrittenAt P text encoding v.files

namespace Wrote

variable {P : String → Prop} {text : String} {encoding : Value} {w v : World}

theorem refl (w : World) : Wrote P text encoding w w :=
  ⟨Nat.le_refl _, fun _ _ => rfl, fun _ _ h => h, .refl⟩

theorem setLocalization (h : Wrote P text encoding w v) {id : LocalizationId} {l : Localization}
    (hcode : l.localeCode = (v.localization id).localeCode)
    (hrecorded : l.stringFile = .null → (v.localization id).stringFile = .null) :
    Wrote P text encoding w (v.setLocalization id l) where
  size := by rw [World.size_setLocalization]; exact h.size
  code k hk := by
    by_cases hid : k = id
    · subst hid
      rw [v.localization_setLocalization_self (Nat.lt_of_lt_of_le hk h.size), hcode, h.code k hk]
    · rw [v.localization_setLocalization_of_ne hid, h.code k hk]
  recorded k hk := by
    by_cases hid : k = id
    · subst hid
      rw [v.localization_setLocalization_self (Nat.lt_of_lt_of_le hk h.size)]
      exact fun hnull => h.recorded k hk (hrecorded hnull)
    · rw [v.localization_setLocalization_of_ne hid]
      exact h.recorded k hk
  files := h.files

theorem addLocalization (h : Wrote P text encoding w v) (l : Localization) :
    Wrote P text encoding w (v.addLocalization l) where
  size := by rw [World.size_addLocalization]; exact Nat.le_succ_of_le h.size
  code k hk := by
    rw [v.localization_addLocalization_of_lt (Nat.lt_of_lt_of_le hk h.size), h.code k hk]
  recorded k hk := by
    rw [v.localization_addLocalization_of_lt (Nat.lt_of_lt_of_le hk h.size)]
    exact h.recorded k hk
  files := h.files

theorem setProject (h : Wrote P text encoding w v) (id : ProjectId) (p : Project) :
    Wrote P text encoding w (v.setProject id p) :=
  ⟨h.size, h.code, h.recorded, h.files⟩

theorem logged (h : Wrote P text encoding w v) (level : LogLevel) (message : String) :
    Wrote P text encoding w (v.logged level message) :=
  ⟨h.size, h.code, h.recorded, h.files⟩

theorem updateJournal (w : World) (change : Journal → Journal) :
    Keeps (Wrote P text encoding w) (Action.updateJournal change) :=
  fun _ h => ⟨h.size, h.code, h.recorded, h.files⟩

theorem log (w : World) (level : LogLevel) (message : String) :
    Keeps (Wrote P text encoding w) (Action.log level message) :=
  updateJournal w _

/-- A change of a localization that has nothing to do with its code and its table. -/
theorem updateLocalization (w : World) (id : LocalizationId) (change : Localization → Localization)
    (hcode : ∀ l, (change l).localeCode = l.localeCode)
    (hfile : ∀ l, (change l).stringFile = l.stringFile) :
    Keeps (Wrote P text encoding w) (Action.updateLocalization id change) :=
  fun _ h => h.setLocalization (hcode _) fun hnull => (hfile _).symm.trans hnull

/-! ## Listeners -/

theorem react (w : World) (id : LocalizationId) (listener : Listener) :
    Keeps (Wrote P text encoding w) (Action.react id listener) := by
  refine Keeps.bind (updateJournal w _) fun _ => ?_
  cases listener.reaction with
  | nothing => exact Keeps.pure _
  | fail => exact Keeps.throw _
  | overlay => exact updateLocalization w id _ (fun _ => rfl) fun _ => rfl
  | leave =>
      intro v h
      rw [Action.exec_bind_of_ok (Action.exec_localization v id)]
      cases hleft : (v.localization id).removeListener listener.name with
      | error e => rwa [Action.exec_bind_of_error (Action.exec_ofExcept _ _)]
      | ok l =>
          rw [Action.exec_bind_of_ok (Action.exec_ofExcept _ _), Action.exec_updateLocalization]
          rw [Localization.removeListener] at hleft
          split at hleft
          · rw [← Except.ok.inj hleft]
            exact h.setLocalization rfl fun hnull => hnull
          · cases hleft

theorem notify (w : World) (id : LocalizationId) (listeners : List Listener) :
    Keeps (Wrote P text encoding w) (Action.notify id listeners) := by
  induction listeners with
  | nil => exact Keeps.pure _
  | cons listener rest ih => exact Keeps.bind (react w id listener) fun _ => ih

theorem persistTexts (w : World) (id : LocalizationId) (lines : List (Scalar × Value)) :
    Keeps (Wrote P text encoding w) (Action.persistTexts id lines) := by
  induction lines with
  | nil => exact Keeps.pure _
  | cons line rest ih =>
      refine Keeps.bind (Keeps.bind ?_ fun _ => ?_) fun _ => ih
      · exact updateLocalization w id _ (fun _ => rfl) fun _ => rfl
      · exact fun v h => notify w id _ v h

theorem skip (w : World) (report : BuildReport) (code : Value) (message : String) :
    Keeps (Wrote P text encoding w) (Build.skip report code message) :=
  Keeps.bind (log w _ _) fun _ => Keeps.pure _

theorem write (h : Wrote P text encoding w v) {path : String} (hP : P path) :
    Wrote P text encoding w { v with files := (v.files.writeText path text encoding).2 } :=
  ⟨h.size, h.code, h.recorded, h.files.write hP⟩

end Wrote

/-! ## Languages -/

section Languages

variable (c : Context) (ids : List LocalizationId)

/-- Worlds between which tables have been generated that were due at the beginning. -/
abbrev WroteDue (w : World) : World → Prop :=
  Wrote (fun path => ∃ k ∈ ids, DueAt c w k path) (StringTable.encode c.entries) c.config.encoding w

variable {c ids} {w v : World} {k : LocalizationId}

/-- A table that is due now was due at the beginning. -/
theorem Wrote.dueAt (h : WroteDue c ids w v) (hk : k < w.localizations.size) {path : String}
    (hdue : DueAt c v k path) : DueAt c w k path where
  table := by rw [← h.code k hk, hdue.table]
  missing := h.recorded k hk hdue.missing
  target := by rw [← h.code k hk, ← target_of_later h.files.later, hdue.target]

theorem Wrote.loadTable (h : WroteDue c ids w v) (hmem : k ∈ ids) (hk : k < w.localizations.size)
    (htable : hasTable c (v.localization k).localeCode = true) :
    WroteDue c ids w ((Build.loadTable c.config c.project k c.entries).exec v).2 := by
  by_cases hpath : (v.localization k).stringFile = .null
  case neg => rwa [exec_loadTable_of_recorded c.config c.project c.entries hpath]
  case pos =>
    rw [exec_loadTable_of_null c.config c.project c.entries hpath, exec_generateTable]
    cases htarget : target c v.files (v.localization k).localeCode with
    | error e => exact h
    | ok path =>
        have hdue := h.dueAt hk ⟨htable, hpath, htarget⟩
        have hwritten := (h.logged .info ("Generate " ++ path)).write ⟨k, hmem, hdue⟩
        dsimp only
        cases (writeTable c v.files path).1 with
        | error e => exact hwritten
        | ok _ => exact hwritten.setLocalization rfl fun hnull => by cases hnull

/-- Whatever a slot comes to, it writes the table that was due for its language, or nothing. -/
theorem Wrote.syncSlot (hmem : k ∈ ids) (hk : k < w.localizations.size) (slot : Nat)
    (report : BuildReport) : Keeps (WroteDue c ids w) (Build.syncSlot c slot k report) := by
  intro v h
  have hannounced : WroteDue c ids w (announced k v) := h.logged _ _
  cases hcode : (v.localization k).localeCode.truthy with
  | false =>
      rw [exec_syncSlot_of_noCode c slot k report hcode]
      exact skip w _ _ _ v h
  | true =>
      cases hsame : (v.localization k).localeCode.same c.project.baseLanguage with
      | true =>
          by_cases hbase : k = c.base
          · rw [exec_syncSlot_of_base c slot k report hcode hsame hbase]
            refine Keeps.bind (updateLocalization w k Localization.clear
              (fun _ => rfl) fun _ => rfl)
              (fun _ => ?_) _
              hannounced
            exact Keeps.bind (persistTexts w k _) fun _ => Keeps.pure _
          · rw [exec_syncSlot_of_duplicate c slot k report hcode hsame hbase]
            exact skip w _ _ _ _ hannounced
      | false =>
          have hloaded := hannounced.loadTable hmem hk (by
            change hasTable c (v.localization k).localeCode = true
            simp [hasTable, hcode, hsame])
          rw [exec_syncSlot_of_foreign c slot k report hcode hsame]
          rcases hrun : (Build.loadTable c.config c.project k c.entries).exec (announced k v) with
            ⟨fault | rows, u⟩
          · rw [hrun] at hloaded
            dsimp only
            cases skipMessage? c.project (v.localization k).localeCode fault with
            | none => exact hloaded
            | some message => exact skip w _ _ _ u hloaded
          · rw [hrun] at hloaded
            exact (hloaded.addLocalization _).setProject _ _

theorem Wrote.syncSlots {rest : List LocalizationId}
    (hrest : ∀ k ∈ rest, k ∈ ids ∧ k < w.localizations.size) (report : BuildReport) (slot : Nat) :
    Keeps (WroteDue c ids w) (Build.syncSlots c report slot rest) := by
  induction rest generalizing report slot with
  | nil => exact Keeps.pure _
  | cons k rest ih =>
      obtain ⟨hmem, hk⟩ := hrest k (by simp)
      exact Keeps.bind (Wrote.syncSlot hmem hk slot report) fun report =>
        ih (fun k' hk' => hrest k' (by simp [hk'])) report (slot + 1)

end Languages

/-! ## Builds -/

section Builds

variable {compiler : Compiler} {config : Config} {id : ProjectId} {w u : World} {c : Compilation}
  {base : LocalizationId} {entries : List StringTable.Entry}

theorem awaitsTable_of_dueAt (hbase : (w.project id).base = some base) {k : LocalizationId}
    {path : String} (hk : k ∈ (w.project id).localizations) (hother : k ≠ base)
    (hdue : DueAt (prospect config id base entries w) w k path) :
      AwaitsTable config id w k path := by
  obtain ⟨htable, hmissing, htarget⟩ := hdue
  simp only [hasTable, Bool.and_eq_true, Bool.not_eq_true'] at htable
  rw [target] at htarget
  split at htarget
  · exact ⟨hk, by simpa [hbase] using hother.symm, htable.1, htable.2, hmissing, ‹_›, htarget⟩
  · cases htarget

/-- What is published is written where a table is awaited. -/
theorem Begun.writtenAt (h : Begun config id w c base entries u) (blob : Bytes) :
    w.files.WrittenAt (fun path => ∃ k, AwaitsTable config id w k path) (StringTable.encode entries)
      config.encoding ((publish config id c blob).exec u).2.files := by
  have hr := h.isRegistered blob
  rw [exec_publish h.hasBase, h.baseRows]
  have hwrote := Wrote.syncSlots (c := context config id base blob entries u)
    (fun k hk => ⟨hk, hr.listed k hk⟩) {} 0 _ (.refl (registered id base blob u))
  have hfiles : (registered id base blob u).files = w.files := h.files_registered
  rw [← hfiles]
  refine hwrote.files.mono ?_
  rintro path ⟨k, hk, hdue⟩
  obtain ⟨hother, hdue'⟩ := h.dueAt hdue
  have hlisted := (mem_registerBase base _ hk).resolve_left hother
  rw [h.project_eq] at hlisted
  exact ⟨k, awaitsTable_of_dueAt h.isBase hlisted hother hdue'⟩

/-- A build that has come to its languages: the program is compiled, and its lines have entries in
the base language. -/
def ComesToLanguages (compiler : Compiler) (config : Config) (id : ProjectId) (w : World)
    (c : Compilation) (entries : List StringTable.Entry) : Prop :=
  baseEntries (w.project id).baseLanguage config c.lines = .ok entries ∧
    ∃ blob u, Stage.exec (compile compiler config ((w.setBuilding id true).project id))
      (w.setBuilding id true) = (.ok (.ok (c, blob)), u)

/-- Whatever a run comes to, it writes nothing, or it comes to the languages and writes the table of
the compiler's lines where one is awaited. -/
theorem run_writes_of_languages (hw : w.Sound) (hcompiler : compiler.KeepsStore id)
    (hadmitted : precondition (w.project id) = .ok ()) :
    ((run compiler config id).exec (w.setBuilding id true)).2.files = w.files ∨
      ∃ c entries, ComesToLanguages compiler config id w c entries ∧
        w.files.WrittenAt (fun path => ∃ k, AwaitsTable config id w k path)
          (StringTable.encode entries) config.encoding
          ((run compiler config id).exec (w.setBuilding id true)).2.files := by
  have hp := lt_size_of_precondition hadmitted
  obtain ⟨base, hbase⟩ := exists_base_of_precondition hadmitted
  have hharmless := harmless_compile (Action.ignoresLog_sameStore _)
    (hcompiler.keeps (by rw [World.project_setBuilding hp])) config
    ((w.setBuilding id true).project id) (w.setBuilding id true) (.refl _)
  rw [exec_run]
  rcases hcompile : Stage.exec (compile compiler config ((w.setBuilding id true).project id))
    (w.setBuilding id true) with ⟨e | r | ⟨c, blob⟩, u⟩
  all_goals rw [hcompile] at hharmless
  · exact .inl hharmless.1.files
  · exact .inl hharmless.1.files
  · cases hrows : baseEntries (w.project id).baseLanguage config c.lines with
    | error e =>
        have hu : (u.project id) = { w.project id with building := true } := by
          rw [hharmless.1.project, World.project_setBuilding hp]
        have hbase' : (u.project id).base = some base := by rw [hu]; exact hbase
        dsimp only
        rw [exec_publish hbase', hu, hrows]
        exact .inl hharmless.1.files
    | ok entries =>
        have hbegun := begun_of_compiled hw hcompiler hp hbase hrows hcompile
        exact .inr ⟨c, entries, ⟨hrows, blob, u, hcompile⟩, hbegun.writtenAt blob⟩

/-- Whatever a run comes to, it writes nothing, or the table of the compiler's lines where one is
awaited. -/
theorem run_writes (hw : w.Sound) (hcompiler : compiler.KeepsStore id)
    (hadmitted : precondition (w.project id) = .ok ()) :
    ((run compiler config id).exec (w.setBuilding id true)).2.files = w.files ∨
      ∃ job w₁ c entries, IsJob w.files config.encoding (w.project id) job ∧
        (compiler job).exec (w.setBuilding id true) = (.ok c, w₁) ∧
        baseEntries (w.project id).baseLanguage config c.lines = .ok entries ∧
        w.files.WrittenAt (fun path => ∃ k, AwaitsTable config id w k path)
          (StringTable.encode entries) config.encoding
          ((run compiler config id).exec (w.setBuilding id true)).2.files := by
  refine (run_writes_of_languages hw hcompiler hadmitted).imp_right ?_
  rintro ⟨c, entries, ⟨hrows, blob, u, hcompile⟩, hwritten⟩
  obtain ⟨job, w₁, output, hjob, hcall, -⟩ := called_of_compiled hcompile
  exact ⟨job, w₁, c, entries, hjob, hcall, hrows, hwritten⟩

end Builds

/-- What a build leaves of the files, when all that it has written is a text where tables are
awaited. -/
structure FilesKept (config : Config) (id : ProjectId) (text : String) (w w' : World) : Prop where
  written : w.files.WrittenAt (fun path => ∃ k, AwaitsTable config id w k path) text config.encoding
    w'.files
  /-- A path that is left alone by what is written elsewhere shows what it showed before. -/
  elsewhere : ∀ path, (∀ k p, AwaitsTable config id w k p → w.files.LeavesAlone p path) →
    SameAt path w.files w'.files
  /-- A file in a directory tree is what it was, unless the place of an awaited table leads
  to it. -/
  tree : ∀ t, w.files = .directory t → ∀ path place, t.locate path = .ok (.entry place false) →
    (∀ k p, AwaitsTable config id w k p → t.locate p ≠ .ok (.entry place false)) →
    SameAt (.text path) w.files w'.files
  /-- In an orderly file system every path shows what it showed before, or the text. -/
  orderly : w.files.Orderly → ∀ path, SameAt path w.files w'.files ∨
    ∃ k p, AwaitsTable config id w k p ∧ path = .text p ∧
      SameAt path (w.files.writeText p text config.encoding).2 w'.files

theorem filesKept_of_writtenAt {config : Config} {id : ProjectId} {text : String} {w w' : World}
    (h : w.files.WrittenAt (fun path => ∃ k, AwaitsTable config id w k path) text config.encoding
      w'.files) : FilesKept config id text w w' where
  written := h
  elsewhere path hpath := h.sameAt fun p ⟨k, hk⟩ => hpath k p hk
  tree t ht path place hplace hother := h.sameAt fun p ⟨k, hk⟩ => by
    rw [ht]
    exact FileSystem.leavesAlone_directory hplace (hother k p hk)
  orderly horderly path := by
    by_cases hpath : ∃ k p, AwaitsTable config id w k p ∧ path = .text p
    case neg =>
      refine .inl (h.sameAt fun p ⟨k, hk⟩ => horderly.leavesAlone fun hp => ?_)
      exact hpath ⟨k, p, hk, hp⟩
    case pos =>
      obtain ⟨k, p, hk, rfl⟩ := hpath
      exact (h.sameAt_or horderly p).imp_right fun hsame => ⟨k, p, hk, rfl, hsame⟩

end Build

/-- Whatever a build comes to, it writes the table of the compiler's lines or nothing, and it writes
only where a listed language has no table on record and may have one generated. -/
theorem files_kept_but_awaited {compiler : Compiler} {config : Config} {id : ProjectId}
    {w w' : World} {result : Except Fault BuildReport} (hsound : w.Sound)
    (hcompiler : compiler.KeepsStore id)
    (h : (build compiler config (some id)).exec w = (result, w')) :
    ∃ text, Build.FilesKept config id text w w' ∧
      (w'.files = w.files ∨ ∃ job w₁ c entries,
        Build.IsJob w.files config.encoding (w.project id) job ∧
        (compiler job).exec (w.setBuilding id true) = (.ok c, w₁) ∧
        Build.baseEntries (w.project id).baseLanguage config c.lines = .ok entries ∧
        text = StringTable.encode entries) := by
  have hsame : w'.files = w.files → Build.FilesKept config id "" w w' := fun hfiles =>
    Build.filesKept_of_writtenAt (by rw [hfiles]; exact .refl)
  cases hadmitted : Build.precondition (w.project id) with
  | error e =>
      rw [Build.exec_build_of_error compiler config hadmitted] at h
      obtain ⟨-, rfl⟩ := Prod.mk.inj h
      exact ⟨"", hsame rfl, .inl rfl⟩
  | ok _ =>
      cases hbuilding : (w.project id).building with
      | true =>
          rw [Build.exec_build_of_building compiler config hadmitted hbuilding] at h
          obtain ⟨-, rfl⟩ := Prod.mk.inj h
          exact ⟨"", hsame rfl, .inl rfl⟩
      | false =>
          rw [Build.exec_build_of_admitted compiler config hadmitted hbuilding] at h
          obtain ⟨-, rfl⟩ := Prod.mk.inj h
          rcases Build.run_writes hsound hcompiler hadmitted with
            hfiles | ⟨job, w₁, c, entries, hjob, hcall, hrows, hwritten⟩
          · exact ⟨"", hsame hfiles, .inl hfiles⟩
          · exact ⟨_, Build.filesKept_of_writtenAt hwritten,
              .inr ⟨job, w₁, c, entries, hjob, hcall, hrows, rfl⟩⟩

/-- A project in two languages. The table of the second one is there, but not on record. -/
def World.translated : World := { World.untranslated with
  files := .memory { files := [("main", .bytes (Text.Utf8.encode "title: Start".toList)),
    ("intro(de).csv.tres", .bytes (Text.Utf8.encode (StringTable.encode
      [{ id := "line:1", language := "de", text := "Hallo" }]).toList))] } }

theorem World.sound_translated : World.translated.Sound :=
  World.sound_untranslated.of_projects rfl fun _ => ⟨rfl, rfl, rfl⟩

theorem Build.awaitsTable_translated {k : LocalizationId} {path : String}
    (h : Build.AwaitsTable {} 0 World.translated k path) : path = "intro(de).csv.tres" := by
  obtain rfl : k = 1 := List.mem_singleton.mp h.listed
  have hplace : Build.tablePath World.translated.files {} (World.translated.project 0)
      (.text "de") = .ok "intro(de).csv.tres" := rfl
  exact Except.ok.inj (h.place.symm.trans hplace)

theorem files_kept_but_awaited_translated :
    ∃ report w' text,
      (build (.returning .greeting) {} (some 0)).exec World.translated = (.ok report, w') ∧
      Build.FilesKept {} 0 text World.translated w' ∧
      FileSystem.SameAt (.text "main") World.translated.files w'.files := by
  obtain ⟨report, w', h, -⟩ := Action.exec_eq_ok_of_map
    (a := build (.returning .greeting) {} (some 0)) (w := World.translated)
    (f := BuildReport.status) (y := .ok) (by decide +kernel)
  obtain ⟨text, hkept, -⟩ :=
    files_kept_but_awaited World.sound_translated (Compiler.keepsStore_returning _ _) h
  refine ⟨report, w', text, h, hkept, ?_⟩
  rcases hkept.orderly (FileSystem.orderly_memory _) (.text "main") with
    hsame | ⟨k, p, hk, hp, -⟩
  · exact hsame
  · rw [Build.awaitsTable_translated hk] at hp
    simp at hp

def FileSystem.tableTexts (fs : FileSystem) (path : Value) : Option (List String) :=
  (Build.rowsAt {} fs path).toOption.map fun rows => rows.map StringTable.Entry.text

/-- A table that a translator has put in the place of the generated one is lost, as it is not on
record. -/
theorem table_lost_translated :
    let path : Value := .text "intro(de).csv.tres"
    let done := (build (.returning .greeting) {} (some 0)).exec World.translated
    done.1.toOption.map BuildReport.status = some .ok ∧
      World.translated.files.existsAt path = .ok true ∧
      World.translated.files.tableTexts path = some ["Hallo"] ∧
      done.2.files.tableTexts path = some ["Hello"] ∧
      ¬FileSystem.SameAt path World.translated.files done.2.files := by
  intro path done
  have hbefore : World.translated.files.tableTexts path = some ["Hallo"] := by decide +kernel
  have hdone : (done.1.toOption.map BuildReport.status, done.2.files.tableTexts path) =
      (some .ok, some ["Hello"]) := by decide +kernel
  obtain ⟨hstatus, hafter⟩ := Prod.mk.inj hdone
  refine ⟨hstatus, rfl, hbefore, hafter, fun hsame => ?_⟩
  rw [FileSystem.tableTexts, Build.rowsAt, hsame.readText] at hafter
  have htexts : some ["Hallo"] = some ["Hello"] := hbefore.symm.trans hafter
  simp at htexts

end Dialogue
