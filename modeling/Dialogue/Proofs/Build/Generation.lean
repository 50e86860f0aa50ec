import Dialogue.Proofs.Build.Forecast
import Dialogue.Proofs.Config
import Dialogue.Proofs.StringTable.RoundTrip

/-! A language without a table gets one with the entries of the base, next to the project. Where
files keep what is written the language is loaded from it, unless an entry cannot be read back. -/

namespace Dialogue

namespace Build

/-! ## Where tables are generated -/

section Path

variable {fs : FileSystem} {config : Config} {p : Project} {code : Value}

/-- The code of the language comes before the suffix of the project's path. -/
theorem tablePath_of_append {stem suffix : String} (hpath : p.path.truthy = true)
    (habsolute : fs.absolute p.path = .ok (.text (stem ++ suffix)))
    (hsuffix : config.projectSuffix = .text suffix) (hne : suffix ≠ "") :
    tablePath fs config p code = .ok (stem ++ "(" ++ code.display ++ ").csv" ++ suffix) := by
  have hstem : withoutSuffix (stem ++ suffix).toList suffix.toList = stem.toList := by
    have hempty : suffix.toList.isEmpty = false := by simpa using hne
    simp [withoutSuffix, hempty]
  simp only [tablePath, hpath, habsolute, hsuffix, hstem, String.ofList_toList]
  rfl

/-- A project with a path has a place for the table, or the build ends. -/
theorem skipMessage?_of_tablePath {path : Value} {e : Fault} (hpath : p.path.truthy = true)
    (habsolute : fs.absolute p.path = .ok path) (h : tablePath fs config p code = .error e)
    (p' : Project) (code' : Value) : skipMessage? p' code' e = none := by
  rw [tablePath, hpath, habsolute] at h
  simp only [Bool.not_true, Bool.false_eq_true, if_false] at h
  split at h
  · rename_i hpath'
    cases hpath'
  · split at h
    · cases h
    · cases h
      rfl
  · cases h
    rfl
  · cases h
    rfl

end Path

/-! ## A table in its turn -/

section Run

variable {c : Context} {ids : List LocalizationId} {w u v w' : World} {k j : LocalizationId}
  {i : Nat} {report report' : BuildReport}

/-- How far a run has come with a language that has no table: it has none yet, or its table has been
generated and is there. -/
structure Awaited (c : Context) (ids : List LocalizationId) (w : World) (k : LocalizationId)
    (u : World) : Prop
    extends Underway c ids w u where
  table : (u.localization k).stringFile = .null ∨
    ∃ p, target c w.files (w.localization k).localeCode = .ok p ∧
      (u.localization k).stringFile = .text p ∧
      u.files.readText (.text p) c.config.encoding = .ok (StringTable.encode c.entries)

def regained (c : Context) : Except Fault (List StringTable.Entry) :=
  (StringTable.decode (StringTable.encode c.entries)).mapError Fault.table

theorem rowsAt_of_readText {fs : FileSystem} {path : Value}
    (h : fs.readText path c.config.encoding = .ok (StringTable.encode c.entries)) :
    rowsAt c.config fs path = regained c := by
  rw [rowsAt, h, regained]

variable (hr : Registered c ids w) (hk : k ∈ ids)
  (htable : hasTable c (w.localization k).localeCode = true)
  (hkeeps : ∀ p, target c w.files (w.localization k).localeCode = .ok p →
    w.files.KeepsText p (StringTable.encode c.entries) c.config.encoding)

include hkeeps

/-- Whenever it is its turn, the table of the language is found as it has been generated. -/
theorem Awaited.resolve (h : Awaited c ids w k u) :
    (∃ e, target c w.files (w.localization k).localeCode = .error e ∧
      resolve c u.files (w.localization k).localeCode (u.localization k).stringFile =
        ⟨.error e, .null, u.files⟩) ∨
    ∃ p fs, target c w.files (w.localization k).localeCode = .ok p ∧
      resolve c u.files (w.localization k).localeCode (u.localization k).stringFile =
        ⟨regained c, .text p, fs⟩ ∧
      fs.readText (.text p) c.config.encoding = .ok (StringTable.encode c.entries) := by
  rcases h.table with hnull | ⟨p, htarget, hpath, hread⟩
  · rw [hnull]
    cases htarget : target c w.files (w.localization k).localeCode with
    | error e =>
        exact .inl ⟨e, rfl, resolve_of_noTarget (by rw [target_of_later h.later, htarget])⟩
    | ok p =>
        have hkept := hkeeps p htarget
        have hwrite : (writeTable c u.files p).1 = .ok () := hkept.taken h.later
        have hread : (writeTable c u.files p).2.readText (.text p) c.config.encoding =
            .ok (StringTable.encode c.entries) := hkept.back h.later
        refine .inr ⟨p, _, rfl, ?_, hread⟩
        rw [resolve_of_written (by rw [target_of_later h.later, htarget]) hwrite,
          rowsAt_of_readText hread]
  · have hne : (u.localization k).stringFile ≠ .null := by
      rw [hpath]
      simp
    refine .inr ⟨p, _, htarget, ?_, hread⟩
    rw [resolve_of_ne_null hne, hpath, rowsAt_of_readText hread]

include hr hk htable

/-- The language comes to what is read back from its table. -/
theorem Awaited.settlement (h : Awaited c ids w k u) :
    (∃ e, target c w.files (w.localization k).localeCode = .error e ∧
      (settlementOf c k u).outcome = judge c (w.localization k).localeCode (.error e) ∧
      (settlementOf c k u).path = .null) ∨
    ∃ p, target c w.files (w.localization k).localeCode = .ok p ∧
      (settlementOf c k u).outcome = judge c (w.localization k).localeCode (regained c) ∧
      (settlementOf c k u).path = .text p ∧
      (settlementOf c k u).files.readText (.text p) c.config.encoding =
        .ok (StringTable.encode c.entries) := by
  rw [settlementOf, h.frame.localeCode k (hr.listed k hk), settle_of_hasTable htable]
  rcases h.resolve hkeeps with ⟨e, htarget, hresolve⟩ | ⟨p, fs, htarget, hresolve, hread⟩
  · rw [hresolve]
    exact .inl ⟨e, htarget, rfl, rfl⟩
  · rw [hresolve]
    dsimp only
    exact .inr ⟨p, htarget, rfl, rfl, hread⟩

/-- A slot keeps the table of the language, whichever language it is the slot of. -/
theorem Awaited.slot (h : Awaited c ids w k u) (hj : ids[i]? = some j)
    (hslot : (syncSlot c (0 + i) j report).exec u = (.ok report', v)) : Awaited c ids w k v := by
  obtain ⟨hunderway, hframe, hfiles, hpath⟩ := h.toUnderway.slot hr hj hslot
  refine ⟨hunderway, ?_⟩
  by_cases hjk : j = k
  · subst hjk
    rw [hpath, hfiles]
    rcases h.settlement hr hk htable hkeeps with ⟨e, -, -, hnull⟩ | ⟨p, htarget, -, htext, hread⟩
    · exact .inl hnull
    · exact .inr ⟨p, htarget, htext, hread⟩
  · have hkept : v.localization k = u.localization k :=
      hframe.untouched k (Nat.lt_of_lt_of_le (hr.listed k hk) h.frame.size)
        (by simpa using Ne.symm hjk)
    rw [hkept, hfiles]
    refine h.table.imp_right fun ⟨p, htarget, htext, hread⟩ => ⟨p, htarget, htext, ?_⟩
    -- A table that another language gets has the same text, even if it gets into the same file.
    rcases settlement_cases c j u with ⟨-, hsame⟩ | ⟨q, -, hwritten, -⟩
    · rw [hsame, hread]
    · rw [hwritten]
      exact (hkeeps p htarget).stays h.later q hread

variable (hmissing : (w.localization k).stringFile = .null)

include hmissing

theorem awaited_of_run (hrun : (syncSlots c {} 0 ids).exec w = (.ok report, w'))
    (hi : i ≤ ids.length) : Awaited c ids w k (worldAt c {} 0 ids w i) :=
  invariant_worldAt ⟨.refl _ _ _, .inl hmissing⟩
    (fun hget hu hslot => hu.slot hr hk htable hkeeps hget hslot) hrun hi

/-- A language without a table, in its place of the list. There is nowhere to generate the table, or
it is there at the end, and what it is read back to has decided the outcome. -/
theorem passage_of_awaited (hrun : (syncSlots c {} 0 ids).exec w = (.ok report, w'))
    (hi : ids[i]? = some k) (hother : k ≠ c.base) :
    (∃ e o, target c w.files (w.localization k).localeCode = .error e ∧
      judge c (w.localization k).localeCode (.error e) = .ok o) ∨
    ∃ p o, target c w.files (w.localization k).localeCode = .ok p ∧
      judge c (w.localization k).localeCode (regained c) = .ok o ∧
      Passage c 0 ids w w' i k o (worldAt c {} 0 ids w i) (worldAt c {} 0 ids w (i + 1)) ∧
      (w'.localization k).stringFile = .text p ∧
      w'.files.readText (.text p) c.config.encoding = .ok (StringTable.encode c.entries) := by
  have hlt := (List.getElem?_eq_some_iff.mp hi).1
  obtain ⟨o, houtcome, hpassage⟩ := passage_of_turn hr hrun hi hother
  have hturn := awaited_of_run hr hk htable hkeeps hmissing hrun (Nat.le_of_lt hlt)
  have hend := awaited_of_run hr hk htable hkeeps hmissing hrun (Nat.le_refl _)
  rw [worldAt_length hrun] at hend
  rcases hturn.settlement hr hk htable hkeeps with
    ⟨e, htarget, hjudge, -⟩ | ⟨p, htarget, hjudge, hpath, -⟩
  · exact .inl ⟨e, o, htarget, hjudge.symm.trans houtcome⟩
  · rw [← path_of_turn hr hrun hi] at hpath
    have hrecorded : (w'.localization k).stringFile = .text p := by
      rw [(recorded_after hr hi hpassage).stringFile (by simp [hpath]), hpath]
    refine .inr ⟨p, o, htarget, hjudge.symm.trans houtcome, hpassage, hrecorded, ?_⟩
    rcases hend.table with hnull | ⟨q, -, hq, hread⟩
    · rw [hrecorded] at hnull
      cases hnull
    · rw [hrecorded] at hq
      cases hq
      exact hread

end Run

/-! ## Reading back -/

/-- No base entry has a comment, so that a field which is unreadable has another one behind it. -/
theorem exists_column_of_unreadable {language : Value} {length : Option Int} {lines : Table Line}
    {entries : List StringTable.Entry}
    (hentries : entries = lines.map fun e => baseEntry language length e.1 e.2)
    (h : ¬∀ e ∈ entries, ∀ column, Csv.Readable (e.field column).toList) :
    ∃ e ∈ entries, ∃ column : StringTable.Column,
      column ≠ .comment ∧ ¬Csv.Readable (e.field column).toList := by
  simp only [not_forall] at h
  obtain ⟨e, he, column, hunreadable⟩ := h
  refine ⟨e, he, column, ?_, hunreadable⟩
  rintro rfl
  rw [hentries] at he
  obtain ⟨line, -, rfl⟩ := List.mem_map.mp he
  exact hunreadable (show Csv.Readable "".toList by decide)

theorem regained_of_readable {c : Context}
    (h : ∀ e ∈ c.entries, ∀ column, Csv.Readable (e.field column).toList) :
    regained c = .ok c.entries := by
  rw [regained, StringTable.decode_encode _ h]
  rfl

theorem judge_of_unreadable {c : Context} (code : Value)
    (h : ∃ e ∈ c.entries, ∃ column : StringTable.Column,
      column ≠ .comment ∧ ¬Csv.Readable (e.field column).toList) :
    ∃ message, judge c code (regained c) = .ok (.skipped message) := by
  obtain ⟨f, hf⟩ := StringTable.decode_encode_of_unreadable h
  rw [regained, hf]
  exact ⟨_, rfl⟩

/-! ## Languages at the end -/

/-- A localization that has been loaded from the table at a path, which has the entries of the
base. -/
structure LoadedFrom (config : Config) (entries : List StringTable.Entry) (p : String) (w' : World)
    (k' : LocalizationId) : Prop where
  path : (w'.localization k').stringFile = .text p
  table : rowsAt config w'.files (.text p) = .ok entries
  texts : (w'.localization k').texts = Table.ofEntries (textsOf entries)

section Foreseen

variable {compiler : Compiler} {config : Config} {id : ProjectId} {w w' u v : World}
  {report : BuildReport} {c : Compilation} {blob : Bytes} {base : LocalizationId}
  {entries : List StringTable.Entry} {i : Nat} {k : LocalizationId}
  (h : Foreseen compiler config id w report w' c blob base entries u v)

include h

/-- A base with a language holds the entries of the compiler's lines at the end of a build. -/
theorem Foreseen.texts_base (hlanguage : (w.project id).baseLanguage.truthy = true) :
    (w'.localization base).texts = Table.ofEntries (textsOf entries) := by
  obtain ⟨i, o, hi, hpassage⟩ := base_passage h.toPublished h.begun.sound
  have hr := h.begun.isRegistered blob
  have htruthy : (context config id base blob entries u).project.baseLanguage.truthy = true := by
    rw [(h.begun.alike blob).language]
    exact hlanguage
  obtain rfl := loaded_of_base hr hi hpassage rfl htruthy
  exact (loaded_of_passage hr hi hpassage).texts

/-- A language without a table, in its place of the list of a build. -/
theorem Foreseen.passage_of_missing
    (hcan : config.canWriteTables.truthy = true)
    (htable : hasTable (prospect config id base entries w) (w.localization k).localeCode = true)
    (hmissing : (w.localization k).stringFile = .null) (hother : k ≠ base)
    (hkeeps : ∀ p, tablePath w.files config (w.project id) (w.localization k).localeCode = .ok p →
      w.files.KeepsText p (StringTable.encode entries) config.encoding)
    (hi : (registerBase base (u.project id).localizations)[i]? = some k) :
    let ctx := context config id base blob entries u
    let ids := registerBase base (u.project id).localizations
    let start := registered id base blob u
    (∃ e o, tablePath w.files config (w.project id) (w.localization k).localeCode = .error e ∧
      judge ctx (w.localization k).localeCode (.error e) = .ok o) ∨
    ∃ p o, tablePath w.files config (w.project id) (w.localization k).localeCode = .ok p ∧
      judge ctx (w.localization k).localeCode (regained ctx) = .ok o ∧
      Passage ctx 0 ids start w' i k o (worldAt ctx {} 0 ids start i)
        (worldAt ctx {} 0 ids start (i + 1)) ∧
      (w'.localization k).stringFile = .text p ∧
      w'.files.readText (.text p) config.encoding = .ok (StringTable.encode entries) := by
  intro ctx ids start
  have hr := h.begun.isRegistered blob
  have halike := h.begun.alike blob
  have hstart : start.localization k = w.localization k := h.begun.localization_registered hother
  have htarget : target ctx start.files (w.localization k).localeCode =
      tablePath w.files config (w.project id) (w.localization k).localeCode := by
    have hfiles : start.files = w.files := h.begun.files_registered
    have hprospect : target (prospect config id base entries w) w.files
        (w.localization k).localeCode =
        tablePath w.files config (w.project id) (w.localization k).localeCode := if_pos hcan
    rw [hfiles, halike.target, hprospect]
  have hcases := passage_of_awaited (c := ctx) hr (List.mem_of_getElem? hi)
    (by rw [hstart, halike.hasTable, htable])
    (fun p hp => by
      rw [hstart, htarget] at hp
      rw [h.begun.files_registered]
      exact hkeeps p hp)
    (by rw [hstart, hmissing]) h.languages hi hother
  rw [hstart, htarget] at hcases
  rw [h.final]
  exact hcases.imp_right fun ⟨p, o, hpath, hjudge, hpassage, hrecorded, hread⟩ =>
    ⟨p, o, hpath, hjudge, hpassage.setBuilding false, hrecorded, hread⟩

/-- There is a place for the table of a language without one, or the build would have ended. -/
theorem Foreseen.exists_tablePath {path : Value} (hcan : config.canWriteTables.truthy = true)
    (hpath : (w.project id).path.truthy = true)
    (habsolute : w.files.absolute (w.project id).path = .ok path)
    (htable : hasTable (prospect config id base entries w) (w.localization k).localeCode = true)
    (hmissing : (w.localization k).stringFile = .null) (hother : k ≠ base)
    (hi : (registerBase base (u.project id).localizations)[i]? = some k) :
    ∃ p, tablePath w.files config (w.project id) (w.localization k).localeCode = .ok p := by
  cases htablePath : tablePath w.files config (w.project id) (w.localization k).localeCode with
  | ok p => exact ⟨p, rfl⟩
  | error e =>
      rcases h.passage_of_missing hcan htable hmissing hother
        (fun p hp => by rw [htablePath] at hp; cases hp) hi with ⟨e', o, he', hjudge⟩ |
          ⟨p, -, hp, -⟩
      · have hskips := skipMessage?_of_tablePath hpath habsolute he'
        rw [judge] at hjudge
        simp only [hskips] at hjudge
        cases hjudge
      · rw [htablePath] at hp
        cases hp

section Kept

variable {p : String} (hcan : config.canWriteTables.truthy = true)
  (htable : hasTable (prospect config id base entries w) (w.localization k).localeCode = true)
  (hmissing : (w.localization k).stringFile = .null) (hother : k ≠ base)
  (hpath : tablePath w.files config (w.project id) (w.localization k).localeCode = .ok p)
  (hkeeps : w.files.KeepsText p (StringTable.encode entries) config.encoding)
  (hi : (registerBase base (u.project id).localizations)[i]? = some k)

include hcan htable hmissing hother hpath hkeeps hi

/-- A table that can be kept is there at the end, and decides what becomes of its language. -/
theorem Foreseen.passage_of_kept :
    let ctx := context config id base blob entries u
    let ids := registerBase base (u.project id).localizations
    let start := registered id base blob u
    ∃ o, judge ctx (w.localization k).localeCode (regained ctx) = .ok o ∧
      Passage ctx 0 ids start w' i k o (worldAt ctx {} 0 ids start i)
        (worldAt ctx {} 0 ids start (i + 1)) ∧
      (w'.localization k).stringFile = .text p ∧
      w'.files.readText (.text p) config.encoding = .ok (StringTable.encode entries) := by
  intro ctx ids start
  have hsame : ∀ q, tablePath w.files config (w.project id) (w.localization k).localeCode = .ok q →
      p = q := fun q hq => Except.ok.inj (hpath.symm.trans hq)
  rcases h.passage_of_missing hcan htable hmissing hother
    (fun q hq => by rw [← hsame q hq]; exact hkeeps) hi with
    ⟨e, o, he, -⟩ | ⟨q, o, hq, hjudge, hpassage, hrecorded, hread⟩
  · rw [hpath] at he
    cases he
  · obtain rfl := hsame q hq
    exact ⟨o, hjudge, hpassage, hrecorded, hread⟩

theorem Foreseen.loaded_of_readable
    (hreadable : ∀ e ∈ entries, ∀ column, Csv.Readable (e.field column).toList) :
    Accounted (context config id base blob entries u)
        (registerBase base (u.project id).localizations) (registered id base blob u) w' i k
        (.rebuilt entries) ∧
      ∃ k', (w'.project id).localizations[i]? = some k' ∧ LoadedFrom config entries p w' k' := by
  have hr := h.begun.isRegistered blob
  obtain ⟨o, hjudge, hpassage, hrecorded, hread⟩ :=
    h.passage_of_kept hcan htable hmissing hother hpath hkeeps hi
  have hregained := regained_of_readable (c := context config id base blob entries u) hreadable
  rw [hregained] at hjudge
  obtain rfl : .rebuilt entries = o := Except.ok.inj hjudge
  obtain ⟨k', hslot, hfinal⟩ := final_of_passage hr hi hother hpassage
  refine ⟨accounted_of_passage hr hi hpassage, k', hslot, ?_, ?_, ?_⟩
  · rw [hfinal, stringFile_settled, hrecorded]
  · exact (rowsAt_of_readText (c := context config id base blob entries u) hread).trans hregained
  · rw [hfinal]
    rfl

theorem Foreseen.skipped_of_unreadable
    (hunreadable : ∃ e ∈ entries, ∃ column : StringTable.Column,
      column ≠ .comment ∧ ¬Csv.Readable (e.field column).toList) :
    ∃ message, Accounted (context config id base blob entries u)
        (registerBase base (u.project id).localizations) (registered id base blob u) w' i k
        (.skipped message) ∧
      message ∈ report.warnings ∧ (w.localization k).localeCode ∈ report.skipped := by
  obtain ⟨o, hjudge, hpassage, -⟩ :=
    h.passage_of_kept hcan htable hmissing hother hpath hkeeps hi
  obtain ⟨message, hskipped⟩ :=
    judge_of_unreadable (c := context config id base blob entries u) (w.localization k).localeCode
      hunreadable
  obtain rfl : o = .skipped message := Except.ok.inj (hjudge.symm.trans hskipped)
  have haccounted := accounted_of_passage (h.begun.isRegistered blob) hi hpassage
  obtain ⟨hwarned, hnoted⟩ := h.noted_of_accounted h.begun.sound hi haccounted
  rw [h.begun.localization_registered hother] at hnoted
  exact ⟨message, haccounted, hwarned, hnoted⟩

end Kept

end Foreseen

end Build

/-- A build that reports success has found a place next to the project for the table of a language
without one. If the text of the table can be kept there, the language is loaded from it in every
place of the list, unless an entry of the base cannot be read back: then it is skipped. -/
theorem generated_table_loads {compiler : Compiler} {config : Config} {settings : Value}
    {id : ProjectId} {w w' : World} {report : BuildReport} {k : LocalizationId} {path : Value}
    (hsound : w.Sound) (hcompiler : compiler.KeepsStore id)
    (hsettings : Config.ofValue settings = .ok config)
    (hcan : config.canWriteTables.truthy = true)
    (hpath : (w.project id).path.truthy = true)
    (habsolute : w.files.absolute (w.project id).path = .ok path)
    (hk : k ∈ (w.project id).localizations) (hother : (w.project id).base ≠ some k)
    (hcode : (w.localization k).localeCode.truthy = true)
    (hforeign : (w.localization k).localeCode.same (w.project id).baseLanguage = false)
    (hmissing : (w.localization k).stringFile = .null)
    (h : (build compiler config (some id)).exec w = (.ok report, w')) (hok : report.status = .ok) :
    ∃ c blob base entries u v p length,
      Build.Published compiler config id w report w' c blob base entries u v ∧
      (w.project id).base = some base ∧ Build.lockLength config.lockLength = .ok length ∧
      entries = (c.lines.map fun e =>
        Build.baseEntry (w.project id).baseLanguage length e.1 e.2) ∧
      Build.tablePath w.files config (w.project id) (w.localization k).localeCode = .ok p ∧
      (∀ stem suffix, path = .text (stem ++ suffix) → config.projectSuffix = .text suffix →
        p = stem ++ "(" ++ (w.localization k).localeCode.display ++ ").csv" ++ suffix) ∧
      let ctx := Build.context config id base blob entries u
      let ids := Build.registerBase base (u.project id).localizations
      let start := Build.registered id base blob u
      k ∈ ids ∧ (w.files.KeepsText p (StringTable.encode entries) config.encoding →
        ∀ i, ids[i]? = some k →
          ((∀ e ∈ entries, ∀ column, Csv.Readable (e.field column).toList) →
            Build.Accounted ctx ids start w' i k (.rebuilt entries) ∧
            ∃ k', (w'.project id).localizations[i]? = some k' ∧
              Build.LoadedFrom config entries p w' k' ∧
              ((w.project id).baseLanguage.truthy = true →
                (w'.localization k').texts = (w'.localization base).texts)) ∧
          ((¬∀ e ∈ entries, ∀ column, Csv.Readable (e.field column).toList) →
            ∃ message, Build.Accounted ctx ids start w' i k (.skipped message) ∧
              message ∈ report.warnings ∧ (w.localization k).localeCode ∈ report.skipped)) := by
  obtain ⟨c, blob, base, entries, u, v, hpublished⟩ := Build.published_of_build h hok
  have hforeseen := Build.foreseen_of_published hsound hcompiler
    (Build.lt_size_of_precondition (Build.precondition_of_build h hok)) hpublished
  have hbase : k ≠ base := fun hk => hother (by rw [hforeseen.begun.isBase, hk])
  have htable : Build.hasTable (Build.prospect config id base entries w)
      (w.localization k).localeCode = true := by
    simp [Build.hasTable, Build.prospect, hcode, hforeign]
  obtain ⟨length, hlength⟩ := Build.exists_lockLength (Config.isLockLength_of_ofValue hsettings)
  have hentries : entries = c.lines.map fun e =>
      Build.baseEntry (w.project id).baseLanguage length e.1 e.2 := by
    have hrows := hforeseen.begun.rows
    rw [Build.baseEntries_of_lockLength hlength] at hrows
    exact (Except.ok.inj hrows).symm
  obtain ⟨i₀, hi₀⟩ := hforeseen.begun.exists_place hk hbase
  obtain ⟨p, htablePath⟩ :=
    hforeseen.exists_tablePath hcan hpath habsolute htable hmissing hbase hi₀
  refine ⟨c, blob, base, entries, u, v, p, length, hpublished, hforeseen.begun.isBase, hlength,
    hentries, htablePath, fun stem suffix hstem hsuffix => ?_, List.mem_of_getElem? hi₀,
    fun hkeeps i hi => ⟨fun hreadable => ?_, fun hunreadable => ?_⟩⟩
  · rw [hstem] at habsolute
    have hne := Config.suffix_ne_of_ofValue hsettings hsuffix
    exact Except.ok.inj (htablePath.symm.trans
      (Build.tablePath_of_append hpath habsolute hsuffix hne))
  · obtain ⟨haccounted, k', hslot, hloaded⟩ := hforeseen.loaded_of_readable hcan htable hmissing
      hbase htablePath hkeeps hi hreadable
    refine ⟨haccounted, k', hslot, hloaded, fun hlanguage => ?_⟩
    rw [hloaded.texts, hforeseen.texts_base hlanguage]
  · exact hforeseen.skipped_of_unreadable hcan htable hmissing hbase htablePath hkeeps hi
      (Build.exists_column_of_unreadable hentries hunreadable)

theorem generated_table_loads_untranslated :
    ∃ report w' k' entries, ∃ i : Nat,
      (build (.returning .greeting) {} (some 0)).exec World.untranslated = (.ok report, w') ∧
      (w'.project 0).localizations[i]? = some k' ∧
      Build.LoadedFrom {} entries "intro(de).csv.tres" w' k' ∧
      entries.map StringTable.Entry.text = ["Hello"] ∧
      (w'.localization k').texts = (w'.localization 0).texts := by
  obtain ⟨report, w', h, hok⟩ := Action.exec_eq_ok_of_map
    (a := build (.returning .greeting) {} (some 0)) (w := World.untranslated)
    (f := BuildReport.status) (y := .ok) (by decide +kernel)
  obtain ⟨c, blob, base, entries, u, v, p, length, hpublished, hbase, hlength, hentries, -, hstem,
    hmem, hplaces⟩ :=
    generated_table_loads (k := 1) World.sound_untranslated (Compiler.keepsStore_returning _ _)
      (show Config.ofValue .null = .ok {} from rfl) rfl rfl
      (show World.untranslated.files.absolute (World.untranslated.project 0).path =
        .ok (.text "intro.tres") from rfl)
      (List.mem_singleton.mpr rfl) (by decide) rfl rfl rfl h hok
  obtain ⟨job, w₁, output, -, hcall, -⟩ := Build.called_of_compiled hpublished.compiled
  cases hcall
  cases hlength
  obtain rfl : 0 = base := Option.some.inj hbase
  obtain rfl : p = "intro(de).csv.tres" := hstem "intro" ".tres" rfl rfl
  have hreadable : ∀ e ∈ entries, ∀ column, Csv.Readable (e.field column).toList := by
    rw [hentries]
    simp only [List.forall_mem_map, Compilation.greeting, List.forall_mem_singleton]
    intro column
    cases column <;> decide +kernel
  have hkeeps : World.untranslated.files.KeepsText "intro(de).csv.tres" (StringTable.encode entries)
      (.text "utf-8") := by
    refine (FileSystem.orderly_memory _).keepsText rfl (FileSystem.eq_ok_of_toOption ?_)
    rw [hentries]
    decide +kernel
  obtain ⟨i, hi⟩ := List.mem_iff_getElem?.mp hmem
  obtain ⟨-, k', hslot, hloaded, htexts⟩ := (hplaces hkeeps i hi).1 hreadable
  exact ⟨report, w', k', entries, i, h, hslot, hloaded, by rw [hentries]; rfl, htexts rfl⟩

/-- A program with one line that has a carriage return in it. -/
def Compilation.returned : Compilation where
  program := some (.bytes [1])
  lines := [(.text "line:1", { text := "one\rtwo" })]

/-- The table of a language is generated and reads back as it was written, and the language is
skipped all the same. -/
theorem no_load_returned :
    let done := (build (.returning .returned) {} (some 0)).exec World.untranslated
    done.1.toOption.map (fun r => (r.status, r.warnings)) = some (.ok,
      [Build.parsingMessage (World.untranslated.project 0) (.text "de")
        (.table (.unreadableRecord 2 .textAfterReturn))]) ∧
    (done.2.project 0).localizations = [1, 0] ∧ (done.2.localization 1).texts.isEmpty = true ∧
    (done.2.files.readText (.text "intro(de).csv.tres") (.text "utf-8")).toOption =
      some (StringTable.encode [Build.baseEntry (.text "en") (some 8) (.text "line:1")
        { text := "one\rtwo" }]) := by
  decide +kernel

end Dialogue
