import Dialogue.Build
import Dialogue.Proofs.Value.Table
import Dialogue.Proofs.World.Store

/-! What loading the table of a language changes, whatever comes of it, and what a localization that
is rebuilt from a table holds. -/

namespace Dialogue

namespace Localization

/-- Agreement in all but the path of the table, which may be recorded where there was none. -/
structure Recorded (l l' : Localization) : Prop where
  rest : l' = { l with stringFile := l'.stringFile }
  stringFile : l.stringFile ≠ .null → l'.stringFile = l.stringFile

namespace Recorded

variable {l l' l'' : Localization}

theorem refl (l : Localization) : l.Recorded l :=
  ⟨rfl, fun _ => rfl⟩

theorem trans (h : l.Recorded l') (h' : l'.Recorded l'') : l.Recorded l'' where
  rest := by rw [h'.rest, h.rest]
  stringFile hnull := by
    have hpath := h.stringFile hnull
    exact (h'.stringFile (by rwa [hpath])).trans hpath

theorem eq_of_ne_null (h : l.Recorded l') (hpath : l.stringFile ≠ .null) : l' = l := by
  rw [h.rest, h.stringFile hpath]

theorem localeCode (h : l.Recorded l') : l'.localeCode = l.localeCode := by
  rw [h.rest]

theorem assets (h : l.Recorded l') : l'.assets = l.assets := by
  rw [h.rest]

end Recorded

/-! ## Renewed localizations -/

theorem addObjects_eq (objects : List (Scalar × Value)) (l : Localization) :
    l.addObjects objects =
      { l with assets := objects.foldl (fun t e => Table.put t e.1 e.2) l.assets } := by
  rw [addObjects]
  induction objects generalizing l with
  | nil => rfl
  | cons e objects ih =>
      rw [List.foldl_cons, ih, setObject, List.foldl_cons]

/-- A renewed localization has the assets of the old one, in their order. -/
theorem renewed_of_distinct {l : Localization} (h : l.assets.Distinct) :
    l.renewed = { l with texts := [], runtime := [], listeners := [] } := by
  have hassets := Table.ofEntries_of_distinct h
  rw [Table.ofEntries] at hassets
  rw [renewed, addObjects_eq, hassets]

end Localization

/-- Worlds between which the table of a language may have been written and its path recorded. -/
structure World.Recorded (id : LocalizationId) (w v : World) : Prop where
  projects : v.projects = w.projects
  events : v.journal.events = w.journal.events
  size : v.localizations.size = w.localizations.size
  other : ∀ k, k ≠ id → v.localization k = w.localization k
  self : (w.localization id).Recorded (v.localization id)

namespace World.Recorded

variable {id : LocalizationId} {w v u : World}

theorem of_sameStore (h : w.SameStore v) : w.Recorded id v where
  projects := h.projects
  events := h.events
  size := by rw [h.localizations]
  other k _ := h.localization k
  self := by
    rw [h.localization]
    exact .refl _

theorem trans (h : w.Recorded id v) (h' : v.Recorded id u) : w.Recorded id u where
  projects := h'.projects.trans h.projects
  events := h'.events.trans h.events
  size := h'.size.trans h.size
  other k hk := (h'.other k hk).trans (h.other k hk)
  self := h.self.trans h'.self

/-- A path may be recorded where there was none to begin with. -/
theorem setLocalization (h : w.Recorded id v) (hid : id < w.localizations.size)
    (hnull : (w.localization id).stringFile = .null) (path : Value) :
    w.Recorded id (v.setLocalization id { v.localization id with stringFile := path }) where
  projects := h.projects
  events := h.events
  size := (v.size_setLocalization id _).trans h.size
  other k hk := (v.localization_setLocalization_of_ne hk _).trans (h.other k hk)
  self := by
    rw [v.localization_setLocalization_self (by rwa [h.size]), h.self.rest]
    exact ⟨rfl, fun hpath => absurd hnull hpath⟩

end World.Recorded

namespace Build

open Dialogue.Action (Keeps)

/-- A rebuilt localization differs from the old one in its texts and in that it has neither runtime
texts nor listeners. -/
theorem rebuilt_of_distinct {l : Localization} (h : l.assets.Distinct)
    (entries : List StringTable.Entry) :
    rebuilt l entries =
      { l with texts := Table.ofEntries (textsOf entries), runtime := [], listeners := [] } := by
  rw [rebuilt, Localization.foldl_storeText, Localization.renewed_of_distinct h, Table.ofEntries]

/-! ## Texts of entries -/

section Texts

variable (entries : List StringTable.Entry)

theorem keys_textsOf :
    Table.keys (Table.ofEntries (textsOf entries)) =
      (entries.map (·.id)).eraseDups.map fun s : String => Scalar.text s :=
  Table.keys_ofEntries_text StringTable.Entry.id (fun e => Value.text e.text) entries

/-- Of several rows with one id the last one counts. -/
theorem lookup_textsOf (id : String) :
    Table.lookup (Table.ofEntries (textsOf entries)) (.text id) =
      (entries.filter fun e => e.id = id).getLast?.map fun e => .text e.text := by
  have hfilter : (textsOf entries).filter (fun e => e.1.sameKey (.text id)) =
      textsOf (entries.filter fun e => e.id = id) := by
    simp [textsOf, List.filter_map, Function.comp_def, Scalar.sameKey_text]
  rw [Table.lookup_ofEntries, hfilter, textsOf, List.getLast?_map, Option.map_map]
  rfl

end Texts

/-! ## Loading a table -/

section Load

variable {id : LocalizationId} {w v : World} (config : Config) (p : Project)
  (entries : List StringTable.Entry)

/-- Writing a table touches nothing but files, whatever comes of it. -/
theorem keeps_generateTable (code : Value) :
    Keeps (w.Recorded id) (generateTable config p code entries) := by
  have hlog : ∀ level message, Keeps (w.Recorded id) (Action.log level message) :=
    fun level message v hv => hv.trans (.of_sameStore (.logged v level message))
  have hwrite : ∀ path text encoding, Keeps (w.Recorded id) (Action.writeText path text encoding) :=
    fun path text encoding v hv => by
      rw [Action.exec_writeText]
      exact hv.trans ⟨rfl, rfl, rfl, fun _ _ => rfl, .refl _⟩
  rw [generateTable]
  dsimp only
  split
  · exact Keeps.throw _
  · refine Keeps.bind Keeps.get fun u => Keeps.bind (Keeps.ofExcept _) fun target => ?_
    refine Keeps.bind (hlog _ _) fun _ => ?_
    exact Keeps.bind (hwrite _ _ _) fun _ => Keeps.pure target

/-- The entries of the table whose path is recorded. -/
def recordedRows (id : LocalizationId) (w : World) : Except Fault (List StringTable.Entry) :=
  match w.files.readText (w.localization id).stringFile config.encoding with
  | .error e => .error e
  | .ok text => (StringTable.decode text).mapError Fault.table

theorem stringFile_ne_null_of_recordedRows {rows : List StringTable.Entry}
    (h : recordedRows config id w = .ok rows) : (w.localization id).stringFile ≠ .null := by
  intro hnull
  have hread : ∃ e, w.files.readText .null config.encoding = .error e := by
    cases w.files with
    | memory m => exact ⟨.file (.notFound .null), rfl⟩
    | volume v => exact ⟨.mismatch .other, rfl⟩
    | directory t =>
        rw [FileSystem.readText]
        cases FileSystem.openEncoding config.encoding with
        | error e => exact ⟨e, rfl⟩
        | ok encoding => exact ⟨.mismatch .other, rfl⟩
  obtain ⟨e, he⟩ := hread
  rw [recordedRows, hnull, he] at h
  cases h

theorem exec_readRecorded (w : World) :
    Action.exec (do
      let text ← Action.readText (← Action.localization id).stringFile config.encoding
      match StringTable.decode text with
      | .ok entries => return entries
      | .error e => throw (.table e)) w = (recordedRows config id w, w) := by
  rw [Action.exec_bind_of_ok (Action.exec_localization w id), Action.exec_bind,
    Action.exec_readText, recordedRows]
  cases w.files.readText (w.localization id).stringFile config.encoding with
  | error e => rfl
  | ok text =>
      dsimp only
      cases StringTable.decode text <;> rfl

theorem exec_loadTable_of_recorded (hpath : (w.localization id).stringFile ≠ .null) :
    (loadTable config p id entries).exec w = (recordedRows config id w, w) := by
  rw [loadTable, Action.exec_bind_of_ok (Action.exec_localization w id)]
  dsimp only
  split
  · rename_i hnull
    exact absurd hnull hpath
  · rw [if_neg Bool.false_ne_true]
    exact exec_readRecorded config w

theorem exec_loadTable_of_null (hpath : (w.localization id).stringFile = .null) :
    (loadTable config p id entries).exec w =
      match (generateTable config p (w.localization id).localeCode entries).exec w with
      | (.error e, u) => (.error e, u)
      | (.ok target, u) =>
        let recorded := u.setLocalization id { u.localization id with stringFile := .text target }
        (recordedRows config id recorded, recorded) := by
  rw [loadTable, Action.exec_bind_of_ok (Action.exec_localization w id)]
  simp only [hpath, if_true]
  rw [Action.exec_bind]
  rcases (generateTable config p (w.localization id).localeCode entries).exec w with ⟨_ | target, u⟩
  · rfl
  · dsimp only
    rw [Action.exec_bind_of_ok (Action.exec_updateLocalization _ _ _)]
    exact exec_readRecorded config _

/-- The path of a table is on record when the table is read. -/
theorem loadTable_spec (hid : id < w.localizations.size)
    {result : Except Fault (List StringTable.Entry)}
    (h : (loadTable config p id entries).exec w = (result, v)) :
    w.Recorded id v ∧ ∀ rows, result = .ok rows → recordedRows config id v = .ok rows := by
  by_cases hpath : (w.localization id).stringFile = .null
  · rw [exec_loadTable_of_null config p entries hpath] at h
    have hself : w.Recorded id w := .of_sameStore (.refl w)
    have hkeeps := keeps_generateTable config p entries (w.localization id).localeCode w hself
    rcases hgenerate : (generateTable config p (w.localization id).localeCode entries).exec w
      with ⟨e | target, u⟩
    · rw [hgenerate] at h hkeeps
      obtain ⟨rfl, rfl⟩ := Prod.mk.inj h
      exact ⟨hkeeps, by simp⟩
    · rw [hgenerate] at h hkeeps
      obtain ⟨hresult, rfl⟩ := Prod.mk.inj h
      exact ⟨hkeeps.setLocalization hid hpath _, fun rows hrows => hresult.trans hrows⟩
  · rw [exec_loadTable_of_recorded config p entries hpath] at h
    obtain ⟨hresult, rfl⟩ := Prod.mk.inj h
    exact ⟨.of_sameStore (.refl w), fun rows hrows => hresult.trans hrows⟩

end Load

end Build

end Dialogue
