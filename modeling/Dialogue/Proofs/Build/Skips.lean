import Dialogue.Proofs.Build.Generation

/-! A language that is skipped keeps its localization, with its flags, its tables and its listeners.
Two things may change. The base gets the code of the base language before any language is looked at,
and the path of a generated table is put on record before the table is read. -/

namespace Dialogue

namespace Build

section Run

variable (c : Context) (ids : List LocalizationId) (w : World)

/-- The table of a localization that had none has been written at a path when it was its turn. -/
structure GeneratedInTurn (k : LocalizationId) (p : String) : Prop where
  due : DueAt c w k p
  written : ∃ j, ids[j]? = some k ∧
    (writeTable c (worldAt c {} 0 ids w j).files p).1 = .ok ()

variable {c ids w} {i : Nat} {j k : LocalizationId} {u v w' : World} {report report' : BuildReport}

variable (hr : Registered c ids w)

include hr

/-- A slot leaves a path as it is, or it is that of a localization whose table was due and has been
written. -/
theorem Underway.stringFile_cases (h : Underway c ids w u) (hj : ids[i]? = some j)
    (hslot : (syncSlot c (0 + i) j report).exec u = (.ok report', v))
    (hk : k < w.localizations.size) :
    (v.localization k).stringFile = (u.localization k).stringFile ∨
      j = k ∧ ∃ p, DueAt c u k p ∧ (writeTable c u.files p).1 = .ok () ∧
        (v.localization k).stringFile = .text p := by
  obtain ⟨-, hframe, -, hpath⟩ := h.slot hr hj hslot
  by_cases hturn : j = k
  case neg =>
    rw [hframe.untouched k (Nat.lt_of_lt_of_le hk h.frame.size) (by simpa using Ne.symm hturn)]
    exact .inl rfl
  case pos =>
    rw [hturn] at hpath
    rw [hpath]
    rcases settlement_cases c k u with ⟨hkept, -⟩ | ⟨p, hdue, -, hkept | ⟨hwritten, hrecorded⟩⟩
    · exact .inl hkept
    · exact .inl hkept
    · exact .inr ⟨hturn, p, hdue, hwritten, hrecorded⟩

variable (hrun : (syncSlots c {} 0 ids).exec w = (.ok report, w'))

include hrun

theorem underway_of_run (hi : i ≤ ids.length) : Underway c ids w (worldAt c {} 0 ids w i) :=
  invariant_worldAt (.refl c ids w) (fun hget hu hslot => (hu.slot hr hget hslot).1) hrun hi

/-- A path stays as it is until the table is generated, and is on record from there on. -/
theorem stringFile_of_run (hk : k < w.localizations.size) (hi : i ≤ ids.length) :
    ((worldAt c {} 0 ids w i).localization k).stringFile = (w.localization k).stringFile ∨
      ∃ p, GeneratedInTurn c ids w k p ∧
        ((worldAt c {} 0 ids w i).localization k).stringFile = .text p := by
  induction i with
  | zero => exact .inl rfl
  | succ i ih =>
      have hlt : i ≤ ids.length := Nat.le_of_succ_le hi
      have hunderway := underway_of_run hr hrun hlt
      have hget := List.getElem?_eq_getElem (l := ids) hi
      obtain ⟨r, r', hslot⟩ := exec_slot_of_run hrun hget
      rcases hunderway.stringFile_cases hr hget hslot hk with
        hkept | ⟨hturn, p, hdue, hwritten, hrecorded⟩
      · rw [hkept]
        exact ih hlt
      · rw [hturn] at hget
        rcases ih hlt with hsame | ⟨q, -, hq⟩
        · exact .inr ⟨p, ⟨hunderway.dueAt hk hsame hdue, i, hget, hwritten⟩, hrecorded⟩
        · rw [hdue.missing] at hq
          cases hq

end Run

/-- A localization in `w'`, after a build in which it has been skipped. Before the base was
registered it was as it is in `u`. -/
structure LeftAlone (c : Context) (ids : List LocalizationId) (u start w' : World)
    (k : LocalizationId) : Prop where
  rest : w'.localization k = { u.localization k with
    localeCode := (w'.localization k).localeCode
    stringFile := (w'.localization k).stringFile }
  localeCode : (w'.localization k).localeCode = (u.localization k).localeCode ∨
    k = c.base ∧ c.project.baseLanguage.truthy = false ∧
      (w'.localization k).localeCode = c.project.baseLanguage
  stringFile : (w'.localization k).stringFile = (u.localization k).stringFile ∨
    ∃ p, GeneratedInTurn c ids start k p ∧ (w'.localization k).stringFile = .text p

section Published

variable {compiler : Compiler} {config : Config} {id : ProjectId} {w w' u v : World}
  {report : BuildReport} {c : Compilation} {blob : Bytes} {base : LocalizationId}
  {entries : List StringTable.Entry}

/-- Registering the base changes nothing but its code. -/
theorem localization_registered (hbase : base < u.localizations.size) (k : LocalizationId) :
    (registered id base blob u).localization k = { u.localization k with
      localeCode := ((registered id base blob u).localization k).localeCode } := by
  by_cases hk : k = base
  · rw [hk, localization_registered_self hbase]
  · rw [localization_registered_of_ne hk]

theorem leftAlone_of_skipped (h : Published compiler config id w report w' c blob base entries u v)
    (hu : u.Sound) :
    let ctx := context config id base blob entries u
    let ids := registerBase base (u.project id).localizations
    let start := registered id base blob u
    ∀ {i k message}, ids[i]? = some k →
      Passage ctx 0 ids start w' i k (.skipped message) (worldAt ctx {} 0 ids start i)
        (worldAt ctx {} 0 ids start (i + 1)) → LeftAlone ctx ids u start w' k := by
  intro ctx ids start i k message hi hpassage
  have hr := h.isRegistered hu
  have hbase := hu.base id base h.hasBase
  have hold := (skipped_of_passage hr hi hpassage).old
  have hstart : start.localization k = { u.localization k with
      localeCode := (start.localization k).localeCode } := localization_registered hbase k
  constructor
  case rest =>
    rw [hold.rest, hstart]
  case localeCode =>
    rw [hold.localeCode]
    by_cases hk : k = base
    case neg => exact .inl (by rw [localization_registered_of_ne hk])
    case pos =>
      refine .inr ⟨hk, ?_, by rw [hk]; exact hr.code⟩
      cases hlanguage : ctx.project.baseLanguage.truthy with
      | false => rfl
      | true => cases loaded_of_base hr hi hpassage hk hlanguage
  case stringFile =>
    have hpath := stringFile_of_run hr h.languages (hr.listed k (List.mem_of_getElem? hi))
      (Nat.le_refl _)
    rw [worldAt_length h.languages, hstart] at hpath
    rw [h.final]
    exact hpath

end Published

end Build

/-- A localization that a build which reports success has skipped keeps its place and all that it
holds. Only the base may have got another code, and only if the base language is empty; and the path
of a table is on record where there was none if the build has generated the table. -/
theorem skipped_left_alone {compiler : Compiler} {config : Config} {id : ProjectId}
    {w w' : World} {report : BuildReport} (hw : w.Sound)
    (hc : ∀ job, (compiler job).Keeps World.Sound)
    (h : (build compiler config (some id)).exec w = (.ok report, w'))
    (hok : report.status = .ok) :
    ∃ c blob base entries u v,
      Build.Published compiler config id w report w' c blob base entries u v ∧
      (compiler.KeepsStore id → ∀ k, u.localization k = w.localization k) ∧
      let ctx := Build.context config id base blob entries u
      let ids := Build.registerBase base (u.project id).localizations
      let start := Build.registered id base blob u
      ∃ outcomes : List Build.Outcome, outcomes.length = ids.length ∧
        report.skipped = ((ids.zip outcomes).filter fun e => e.2.message?.isSome).map
          (fun e => (start.localization e.1).localeCode) ∧
        report.warnings = (outcomes.filterMap Build.Outcome.message?).eraseDups ∧
        ∀ i k message, ids[i]? = some k → outcomes[i]? = some (.skipped message) →
          Build.Skipped ctx ids start w' i k message ∧ Build.LeftAlone ctx ids u start w' k := by
  obtain ⟨c, blob, base, entries, u, v, hpublished⟩ := Build.published_of_build h hok
  have hu := hpublished.sound hw hc
  have hr := hpublished.isRegistered hu
  obtain ⟨-, outcomes, hlength, hreport, hpassages⟩ := hpublished.passages hu
  refine ⟨c, blob, base, entries, u, v, hpublished, fun hcompiler k => ?_, outcomes, hlength,
    ?_, ?_, fun i k message hi ho => ?_⟩
  · have hp := Build.lt_size_of_precondition (Build.precondition_of_build h hok)
    exact (Build.sameStore_of_compiled hcompiler hp hpublished.compiled).localization k
  · rw [hreport]
    exact Build.skipped_zip _ outcomes
  · rw [hreport]
    exact Build.warnings_zip _ outcomes (by simp [hlength])
  · have hpassage := hpassages i k _ hi ho
    exact ⟨Build.skipped_of_passage hr hi hpassage,
      Build.leftAlone_of_skipped hpublished hu hi hpassage⟩

/-- A project without a base language, and a localization that has no table yet. -/
def World.unspoken : World where
  localizations := #[{ localeCode := .text "en" }, { localeCode := .text "de" }]
  projects := #[{
    path := .text "intro.tres", sources := [.text "main"], baseLanguage := .text ""
    base := some 0, localizations := [0, 1] }]
  files := .memory { files := [("main", .bytes (Text.Utf8.encode "title: Start".toList))] }

theorem World.sound_unspoken : World.unspoken.Sound :=
  .of_mem (by simp [unspoken, Value.same, Scalar.same, Scalar.number?])
    (by simp [unspoken, Table.Distinct])

/-- Both languages are skipped. The base gets an empty code, and the other localization the path of
its table, which does not read back. -/
theorem skipped_changed_unspoken :
    let done := (build (.returning .returned) {} (some 0)).exec World.unspoken
    done.1.toOption.map (fun r => (r.status, r.skipped.map Value.text?)) =
      some (.ok, [some "", some "de"]) ∧
    (done.2.project 0).localizations = [0, 1] ∧
    (World.unspoken.localization 0).localeCode.text? = some "en" ∧
    (done.2.localization 0).localeCode.text? = some "" ∧
    (World.unspoken.localization 1).stringFile.text? = none ∧
    (done.2.localization 1).stringFile.text? = some "intro(de).csv.tres" := by
  decide +kernel

theorem skipped_left_alone_unspoken :
    ∃ report w', (build (.returning .returned) {} (some 0)).exec World.unspoken =
        (.ok report, w') ∧
      report.skipped.map Value.text? = [some "", some "de"] ∧
      w'.localization 1 = { World.unspoken.localization 1 with
        stringFile := (w'.localization 1).stringFile } := by
  obtain ⟨report, w', h, hreport⟩ := Action.exec_eq_ok_of_map
    (a := build (.returning .returned) {} (some 0)) (w := World.unspoken)
    (f := fun r => (r.status, r.skipped.map Value.text?)) (y := (.ok, [some "", some "de"]))
    (by decide +kernel)
  obtain ⟨hok, hskipped⟩ := Prod.mk.inj hreport
  obtain ⟨c, blob, base, entries, u, v, hpublished, hkept, outcomes, hlength, hnoted, -, hleft⟩ :=
    skipped_left_alone World.sound_unspoken (Compiler.keeps_returning _ _) h hok
  have hstore := Build.sameStore_of_compiled (Compiler.keepsStore_returning _ _) (by decide)
    hpublished.compiled
  have hbase := hpublished.hasBase
  rw [hstore.project] at hbase
  obtain rfl : 0 = base := Option.some.inj hbase
  have hids : Build.registerBase 0 (u.project 0).localizations = [0, 1] := by
    rw [hstore.project]
    rfl
  rw [hids] at hlength hnoted hleft
  obtain ⟨o, o', rfl⟩ : ∃ o o', outcomes = [o, o'] := List.length_eq_two.mp hlength
  obtain ⟨message, rfl⟩ : ∃ message, o' = .skipped message := by
    rw [hnoted] at hskipped
    cases o <;> cases o' <;> first | exact ⟨_, rfl⟩ | cases congrArg List.length hskipped
  obtain ⟨-, hrest, hcode, -⟩ := hleft 1 1 message rfl rfl
  rw [hkept (Compiler.keepsStore_returning _ _)] at hrest hcode
  rcases hcode with hcode | ⟨hbase, -⟩
  · rw [hcode] at hrest
    exact ⟨report, w', h, hskipped, hrest⟩
  · cases hbase

end Dialogue
