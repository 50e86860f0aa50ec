import Dialogue.Proofs.Build.Forecast
import Dialogue.Proofs.Files.Writes
import Dialogue.Proofs.Text.Utf8

/-! What a build makes of one language does not depend on the other languages of the project: on
which there are, in which order they are listed, and what is wrong with their tables. -/

namespace Dialogue

namespace Build

open FileSystem (SameFile)

/-- The tables that a build generates leave the file at a path alone: none of them is due there, or
it is refused without a trace. -/
def Undisturbed (config : Config) (id : ProjectId) (c : Compilation) (w : World)
    (path : Value) : Prop :=
  ∀ base entries, (w.project id).base = some base →
    baseEntries (w.project id).baseLanguage config c.lines = .ok entries →
    Spared (prospect config id base entries w) ((w.project id).localizations.filter (· ≠ base)) w
      path

/-- It is enough that no table is due at the path. -/
theorem Undisturbed.of_not_due {config : Config} {id : ProjectId} {c : Compilation} {w : World}
    {path : Value}
    (h : ∀ k ∈ (w.project id).localizations, ∀ base entries p,
      DueAt (prospect config id base entries w) w k p → path ≠ .text p) :
    Undisturbed config id c w path :=
  fun base entries _ _ k hk p hdue hp =>
    absurd hp (h k (List.mem_filter.mp hk).1 base entries p hdue)

/-- What has become of a localization in a build that reports success: in every place of the list it
has come to the outcome `o`, a localization like `l` stands there, and a skip is in the report. -/
def EndsAs (compiler : Compiler) (config : Config) (id : ProjectId) (w : World)
    (report : BuildReport) (w' : World) (k : LocalizationId) (o : Outcome) (l : Localization) :
    Prop :=
  ∃ c blob base entries u v,
    Published compiler config id w report w' c blob base entries u v ∧
    let ctx := context config id base blob entries u
    let ids := registerBase base (u.project id).localizations
    let start := registered id base blob u
    k ∈ ids ∧
    (∀ i, ids[i]? = some k → Accounted ctx ids start w' i k o ∧
      ∃ k', (w'.project id).localizations[i]? = some k' ∧ l.Alike (w'.localization k')) ∧
    ∀ message, o.message? = some message →
      message ∈ report.warnings ∧ l.localeCode ∈ report.skipped

section Foreseen

variable {compiler : Compiler} {config : Config} {id : ProjectId} {w w' u v : World}
  {report : BuildReport} {c : Compilation} {blob : Bytes} {base : LocalizationId}
  {entries : List StringTable.Entry} {i : Nat} {k : LocalizationId}

/-- A language ends as it is settled beforehand, and so does its file. -/
theorem Foreseen.endsAs (h : Foreseen compiler config id w report w' c blob base entries u v)
    (hsep : w.files.Separate) (hk : k ∈ (w.project id).localizations) (hother : k ≠ base)
    (hspared : Spared (prospect config id base entries w)
      ((w.project id).localizations.filter (· ≠ base)) w (w.localization k).stringFile) :
    let s := settlementOf (prospect config id base entries w) k w
    SameFile s.path s.files w'.files ∧ ∃ o, s.outcome = .ok o ∧
      ∀ l, l.Alike (settled (w.localization k) o s.path) →
        EndsAs compiler config id w report w' k o l := by
  intro s
  obtain ⟨i, hi⟩ := h.begun.exists_place hk hother
  obtain ⟨o, ho, haccounted, -⟩ := h.outcome_eq hsep hi hother hspared
  refine ⟨(h.file_eq hsep hi hother hspared).2, o, ho, fun l hl =>
    ⟨c, blob, base, entries, u, v, h.toPublished, List.mem_of_getElem? hi, ?_, ?_⟩⟩
  · intro j hj
    obtain ⟨o', ho', haccounted', k', hslot, hfinal⟩ := h.outcome_eq hsep hj hother hspared
    rw [ho] at ho'
    obtain rfl := Except.ok.inj ho'
    refine ⟨haccounted', k', hslot, ?_⟩
    rw [hfinal]
    exact hl
  · intro message hmessage
    cases o with
    | skipped m =>
        cases hmessage
        have hcode : l.localeCode = ((registered id base blob u).localization k).localeCode := by
          rw [h.begun.localization_registered hother, ← hl.localeCode]
          rfl
        rw [hcode]
        exact h.noted_of_accounted h.begun.sound hi haccounted
    | loaded | rebuilt _ => cases hmessage

end Foreseen

end Build

/-- A language ends the same in any two builds that begin with the same files, settings and
compilation, for projects of the same name, path and base language, whatever other languages the
projects have. -/
theorem language_isolated {compiler₁ compiler₂ : Compiler} {config : Config} {c : Compilation}
    {id₁ id₂ : ProjectId} {w₁ w₂ w₁' w₂' : World} {report₁ report₂ : BuildReport}
    {k₁ k₂ : LocalizationId} (hsound₁ : w₁.Sound) (hsound₂ : w₂.Sound)
    (hreturns₁ : compiler₁.Returns id₁ c) (hreturns₂ : compiler₂.Returns id₂ c)
    (hfiles : w₂.files = w₁.files) (hsep : w₁.files.Separate)
    (hname : (w₂.project id₂).name = (w₁.project id₁).name)
    (hpath : (w₂.project id₂).path = (w₁.project id₁).path)
    (hlanguage : (w₂.project id₂).baseLanguage = (w₁.project id₁).baseLanguage)
    (hk₁ : k₁ ∈ (w₁.project id₁).localizations) (hk₂ : k₂ ∈ (w₂.project id₂).localizations)
    (hother₁ : (w₁.project id₁).base ≠ some k₁) (hother₂ : (w₂.project id₂).base ≠ some k₂)
    (halike : (w₁.localization k₁).Alike (w₂.localization k₂))
    (hspared₁ : Build.Undisturbed config id₁ c w₁ (w₁.localization k₁).stringFile)
    (hspared₂ : Build.Undisturbed config id₂ c w₂ (w₂.localization k₂).stringFile)
    (h₁ : (build compiler₁ config (some id₁)).exec w₁ = (.ok report₁, w₁'))
    (h₂ : (build compiler₂ config (some id₂)).exec w₂ = (.ok report₂, w₂'))
    (hok₁ : report₁.status = .ok) (hok₂ : report₂.status = .ok) :
    ∃ o l, Build.EndsAs compiler₁ config id₁ w₁ report₁ w₁' k₁ o l ∧
      Build.EndsAs compiler₂ config id₂ w₂ report₂ w₂' k₂ o l ∧
      FileSystem.SameFile l.stringFile w₁'.files w₂'.files := by
  obtain ⟨_, base₁, entries, u₁, v₁, hforeseen₁⟩ :=
    Build.foreseen_of_build hsound₁ hreturns₁ h₁ hok₁
  obtain ⟨_, base₂, entries₂, u₂, v₂, hforeseen₂⟩ :=
    Build.foreseen_of_build hsound₂ hreturns₂ h₂ hok₂
  have hrows₁ := hforeseen₁.begun.rows
  have hrows₂ := hforeseen₂.begun.rows
  obtain rfl : entries = entries₂ := by
    rw [hlanguage, hrows₁] at hrows₂
    exact Except.ok.inj hrows₂
  have hbase₁ : k₁ ≠ base₁ := fun hk => hother₁ (by rw [hforeseen₁.begun.isBase, hk])
  have hbase₂ : k₂ ≠ base₂ := fun hk => hother₂ (by rw [hforeseen₂.begun.isBase, hk])
  obtain ⟨hfile₁, o, ho, hends₁⟩ := hforeseen₁.endsAs hsep hk₁ hbase₁
    (hspared₁ base₁ entries hforeseen₁.begun.isBase hrows₁)
  obtain ⟨hfile₂, o₂, ho₂, hends₂⟩ := hforeseen₂.endsAs (by rwa [hfiles]) hk₂ hbase₂
    (hspared₂ base₂ entries hforeseen₂.begun.isBase hrows₂)
  -- The two settlements are one, for they begin with the same.
  have hcontexts : (Build.prospect config id₁ base₁ entries w₁).Alike
      (Build.prospect config id₂ base₂ entries w₂) := ⟨rfl, hname, hpath, hlanguage, rfl⟩
  have hsettled : Build.settlementOf (Build.prospect config id₂ base₂ entries w₂) k₂ w₂ =
      Build.settlementOf (Build.prospect config id₁ base₁ entries w₁) k₁ w₁ := by
    rw [Build.settlementOf, Build.settlementOf, halike.localeCode, halike.stringFile, hfiles,
      hcontexts.settle]
  rw [hsettled] at hfile₂ ho₂ hends₂
  rw [ho] at ho₂
  obtain rfl := Except.ok.inj ho₂
  refine ⟨o, _, hends₁ _ (.refl _), hends₂ _ (Build.settled_alike halike o _), ?_⟩
  rw [Build.stringFile_settled]
  exact hfile₁.symm.trans hfile₂

/-- The project in two languages with two languages more, whose tables are missing and malformed. -/
def World.multilingual : World := { World.bilingual with
  localizations := #[{ localeCode := .text "en" },
    { localeCode := .text "fr", stringFile := .text "fr.csv" },
    { localeCode := .text "de", stringFile := .text "de.csv" },
    { localeCode := .text "it", stringFile := .text "main" }]
  projects := #[{ sources := [.text "main"], base := some 0, localizations := [3, 1, 2] }] }

theorem World.sound_multilingual : World.multilingual.Sound :=
  .of_mem (by simp [multilingual, Value.same, Scalar.same, Scalar.number?])
    (by simp [multilingual, Table.Distinct])

theorem language_isolated_multilingual :
    ∃ report₁ report₂ w₁' w₂' o l,
      (build (.returning .greeting) {} (some 0)).exec World.bilingual = (.ok report₁, w₁') ∧
      (build (.returning .greeting) {} (some 0)).exec World.multilingual = (.ok report₂, w₂') ∧
      Build.EndsAs (.returning .greeting) {} 0 World.bilingual report₁ w₁' 1 o l ∧
      Build.EndsAs (.returning .greeting) {} 0 World.multilingual report₂ w₂' 2 o l ∧
      FileSystem.SameFile l.stringFile w₁'.files w₂'.files := by
  obtain ⟨report₁, w₁', h₁, hok₁⟩ := Build.build_bilingual
  obtain ⟨report₂, w₂', h₂, hok₂⟩ := Action.exec_eq_ok_of_map
    (a := build (.returning .greeting) {} (some 0)) (w := World.multilingual)
    (f := BuildReport.status) (y := .ok) (by decide +kernel)
  have hspared : ∀ w : World, (w.project 0).path = .null → ∀ path,
      Build.Undisturbed {} 0 .greeting w path := fun w hnull path =>
    .of_not_due fun k _ base entries p hdue => by
      have htarget := hdue.target
      simp [Build.target, Build.tablePath, Build.prospect, hnull, Value.truthy,
        Scalar.truthy] at htarget
  obtain ⟨o, l, hends⟩ := language_isolated World.sound_bilingual World.sound_multilingual
    (Compiler.returns_returning _ _) (Compiler.returns_returning _ _) rfl
    (FileSystem.orderly_memory _).separate rfl rfl rfl
    (show 1 ∈ (World.bilingual.project 0).localizations by decide)
    (show 2 ∈ (World.multilingual.project 0).localizations by decide) (by decide) (by decide)
    (.refl _) (hspared _ rfl _) (hspared _ rfl _) h₁ h₂ hok₁ hok₂
  exact ⟨report₁, report₂, w₁', w₂', o, l, h₁, h₂, hends⟩

/-! ## Languages that are not isolated -/

/-- A volume with one source that takes no text but a table, and this only where `take` says so. At
each path the table stands as many times as there are `copies`. -/
def Volume.ofTable (table : String) (copies : Bytes → String → Nat)
    (take : Bytes → String → Option Bytes) : Volume where
  existsAt store path := path = "main" || 0 < copies store path
  readText store path _ :=
    if path = "main" then .ok "title: Start"
    else if copies store path = 0 then .error (.file (.notFound (.text path)))
    else .ok (String.join (List.replicate (copies store path) table))
  writeText store path text _ :=
    match if text = table then take store path else none with
    | some store' => (.ok (), store')
    | none => (.error (.file (.medium "refused")), store)
  absolute path := path

theorem Volume.strict_ofTable {table : String} {copies : Bytes → String → Nat}
    {take : Bytes → String → Option Bytes}
    (h : ∀ store path store', take store path = some store' →
      ∀ other, other ≠ path → copies store' other = copies store other) :
    (FileSystem.volume (.ofTable table copies take)).Strict := by
  have hcopies : ∀ store path text encoding other, other ≠ path →
      copies ((Volume.ofTable table copies take).writeText store path text encoding).2 other =
        copies store other := by
    intro store path text encoding other hother
    simp only [ofTable]
    split
    · next store' htake =>
        split at htake
        · exact h store path store' htake other hother
        · cases htake
    · rfl
  refine FileSystem.strict_volume ?_ ?_ ?_
  · intro store path text encoding other hother
    exact congrArg (fun n => decide (other = "main") || decide (0 < n))
      (hcopies store path text encoding other hother)
  · intro store path text encoding other hother
    funext encoding'
    simp only [ofTable] at hcopies ⊢
    rw [hcopies store path text encoding other hother]
  · intro store path text encoding e he
    simp only [ofTable] at he ⊢
    split at he
    · cases he
    · rfl

def Compilation.greetingTable : String :=
  match Build.baseEntries (.text "en") {} Compilation.greeting.lines with
  | .ok entries => StringTable.encode entries
  | .error _ => ""

def Volume.mark (path : String) : Bytes :=
  0 :: Text.Utf8.encode path.toList

theorem Volume.mark_injective : Function.Injective Volume.mark := by
  intro path other h
  have hbytes : Text.Utf8.encode path.toList = Text.Utf8.encode other.toList :=
    (List.cons.inj h).2
  have hback := Text.Encoding.decodeUtf8_encode path.toList
  rw [hbytes, Text.Encoding.decodeUtf8_encode] at hback
  exact String.toList_injective (Except.ok.inj hback).symm

/-- A volume with room for one table. -/
def Volume.scarce : Volume :=
  .ofTable Compilation.greetingTable
    (fun store path => if store = mark path then 1 else 0)
    (fun store path => if store = [] ∨ store = mark path then some (mark path) else none)

/-- A volume on which the table of one language is taken, and not twice. -/
def Volume.archive : Volume :=
  .ofTable Compilation.greetingTable
    (fun store path => if path = "intro(de).csv.tres" then store.length else 0)
    (fun store path => if path = "intro(de).csv.tres" ∧ store = [] then some [0] else none)

/-- A volume on which the table of one language is taken, and put behind what has been there. -/
def Volume.ledger : Volume :=
  .ofTable Compilation.greetingTable
    (fun store path => if path = "intro(de).csv.tres" then store.length else 0)
    (fun store path => if path = "intro(de).csv.tres" then some (0 :: store) else none)

/-- A volume on which the table of one language is stored twice over behind that of another. -/
def Volume.uneven : Volume :=
  .ofTable Compilation.greetingTable
    (fun store path =>
      if path = "intro(de).csv.tres" then store.count 1
      else if path = "intro(fr).csv.tres" then store.count 2
      else 0)
    (fun store path =>
      if path = "intro(de).csv.tres" then
        some (if 1 ∈ store then store else if 2 ∈ store then 1 :: 1 :: store else 1 :: store)
      else if path = "intro(fr).csv.tres" then some (if 2 ∈ store then store else 2 :: store)
      else none)

theorem Volume.strict_scarce : (FileSystem.volume .scarce).Strict := by
  refine strict_ofTable fun store path store' htake other hother => ?_
  have hmark : mark path ≠ mark other := fun h => hother (mark_injective h).symm
  split at htake
  · next hroom =>
      cases htake
      rw [if_neg hmark]
      rcases hroom with rfl | rfl
      · rfl
      · rw [if_neg hmark]
  · cases htake

theorem Volume.strict_archive : (FileSystem.volume .archive).Strict := by
  refine strict_ofTable fun store path store' htake other hother => ?_
  split at htake
  · next h => rw [if_neg (h.1 ▸ hother), if_neg (h.1 ▸ hother)]
  · cases htake

theorem Volume.strict_ledger : (FileSystem.volume .ledger).Strict := by
  refine strict_ofTable fun store path store' htake other hother => ?_
  split at htake
  · next h => rw [if_neg (h ▸ hother), if_neg (h ▸ hother)]
  · cases htake

theorem Volume.strict_uneven : (FileSystem.volume .uneven).Strict := by
  refine strict_ofTable fun store path store' htake other hother => ?_
  split at htake
  · next hde =>
      cases htake
      subst hde
      have hkept : (if 1 ∈ store then store else if 2 ∈ store then 1 :: 1 :: store
          else 1 :: store).count 2 = store.count 2 := by
        split
        · rfl
        · split <;> rfl
      rw [if_neg hother, if_neg hother, hkept]
  · split at htake
    · next hfr =>
        cases htake
        subst hfr
        have hkept : (if 2 ∈ store then store else 2 :: store).count 1 = store.count 1 := by
          split <;> rfl
        rw [if_neg hother, if_neg hother, hkept]
    · cases htake

/-- A project on a volume in the languages of `ids`, none of which has a table yet. -/
def World.onVolume (v : Volume) (ids : List LocalizationId) : World where
  localizations := #[{ localeCode := .text "en" }, { localeCode := .text "de" },
    { localeCode := .text "fr" }, { localeCode := .text "de" }]
  projects := #[
    { path := .text "intro.tres", sources := [.text "main"], base := some 0,
      localizations := ids }]
  files := .volume v

theorem World.sound_onVolume (v : Volume) {ids : List LocalizationId} (h : ∀ k ∈ ids, k < 4) :
    (World.onVolume v ids).Sound :=
  .of_mem (by simpa [onVolume, Value.same, Scalar.same, Scalar.number?] using h)
    (by simp [onVolume, Table.Distinct])

namespace Build

/-- Two projects on a volume that differ only in their lists, in both of which `k` stands and is not
the base: both are built, and `k` does not end the same in the two builds. -/
def EndsOtherwise (v : Volume) (k : LocalizationId) (ids₁ ids₂ : List LocalizationId) : Prop :=
  (World.onVolume v ids₁).Sound ∧ (World.onVolume v ids₂).Sound ∧ k ∈ ids₁ ∧ k ∈ ids₂ ∧ k ≠ 0 ∧
    ∃ report₁ report₂ w₁' w₂',
      (build (.returning .greeting) {} (some 0)).exec (World.onVolume v ids₁) =
        (.ok report₁, w₁') ∧
      (build (.returning .greeting) {} (some 0)).exec (World.onVolume v ids₂) =
        (.ok report₂, w₂') ∧
      report₁.status = .ok ∧ report₂.status = .ok ∧
      ¬∃ o l,
        EndsAs (.returning .greeting) {} 0 (World.onVolume v ids₁) report₁ w₁' k o l ∧
        EndsAs (.returning .greeting) {} 0 (World.onVolume v ids₂) report₂ w₂' k o l

/-- A localization that ends in one way stands in its place at the end. -/
theorem EndsAs.exists_alike {compiler : Compiler} {config : Config} {id : ProjectId}
    {w w' : World} {report : BuildReport} {base : LocalizationId} {i : Nat} {k : LocalizationId}
    {o : Outcome} {l : Localization} (h : EndsAs compiler config id w report w' k o l)
    (hw : w.Sound) (hcompiler : compiler.KeepsStore id) (hp : id < w.projects.size)
    (hbase : (w.project id).base = some base)
    (honce : (w.project id).localizations.count base = 1)
    (hi : (w.project id).localizations[i]? = some k) :
    ∃ k', (w'.project id).localizations[i]? = some k' ∧ l.Alike (w'.localization k') := by
  obtain ⟨c, blob, base', entries, u, v, hpublished, -, hplaces, -⟩ := h
  have hbegun := (foreseen_of_published hw hcompiler hp hpublished).begun
  obtain rfl : base = base' := Option.some.inj (hbase.symm.trans hbegun.isBase)
  refine (hplaces i ?_).2
  rw [hbegun.project_eq, registerBase_of_count honce]
  exact hi

/-- What can be told of a localization after a build on a volume: whether it has a table, and how
many texts. -/
def remains (v : Volume) (k : LocalizationId) (ids : List LocalizationId) :
    Option BuildStatus × Option (Bool × Nat) :=
  let run := (build (.returning .greeting) {} (some 0)).exec (World.onVolume v ids)
  (run.1.toOption.map BuildReport.status, (run.2.project 0).localizations[ids.idxOf k]?.map
    fun k' => ((run.2.localization k').stringFile.truthy, (run.2.localization k').texts.length))

theorem exists_alike_of_remains {v : Volume} {k : LocalizationId} {ids : List LocalizationId}
    {found : Option (Bool × Nat)} (hids : ∀ j ∈ ids, j < 4) (honce : ids.count 0 = 1)
    (hk : k ∈ ids) (h : remains v k ids = (some .ok, found)) :
    ∃ report w', (build (.returning .greeting) {} (some 0)).exec (World.onVolume v ids) =
        (.ok report, w') ∧ report.status = .ok ∧
      ∀ o l, EndsAs (.returning .greeting) {} 0 (World.onVolume v ids) report w' k o l →
        found = some (l.stringFile.truthy, l.texts.length) := by
  obtain ⟨hstatus, hfound⟩ := Prod.mk.inj h
  obtain ⟨report, w', hrun, hok⟩ := Action.exec_eq_ok_of_map hstatus
  refine ⟨report, w', hrun, hok, fun o l hends => ?_⟩
  have hi : ((World.onVolume v ids).project 0).localizations[ids.idxOf k]? = some k :=
    List.getElem?_idxOf hk
  obtain ⟨k', hk', halike⟩ := hends.exists_alike (World.sound_onVolume v hids)
    (Compiler.keepsStore_returning _ _) Nat.one_pos rfl honce hi
  rw [hrun, hk'] at hfound
  rw [← hfound, Option.map_some, halike.stringFile, halike.texts]

theorem endsOtherwise_of_remains {v : Volume} {k : LocalizationId} {ids₁ ids₂ : List LocalizationId}
    {found₁ found₂ : Option (Bool × Nat)} (hids₁ : ∀ j ∈ ids₁, j < 4) (hids₂ : ∀ j ∈ ids₂, j < 4)
    (honce₁ : ids₁.count 0 = 1) (honce₂ : ids₂.count 0 = 1) (hk₁ : k ∈ ids₁) (hk₂ : k ∈ ids₂)
    (hk : k ≠ 0) (h₁ : remains v k ids₁ = (some .ok, found₁))
    (h₂ : remains v k ids₂ = (some .ok, found₂)) (hne : found₁ ≠ found₂) :
    EndsOtherwise v k ids₁ ids₂ := by
  obtain ⟨report₁, w₁', hrun₁, hok₁, hfound₁⟩ := exists_alike_of_remains hids₁ honce₁ hk₁ h₁
  obtain ⟨report₂, w₂', hrun₂, hok₂, hfound₂⟩ := exists_alike_of_remains hids₂ honce₂ hk₂ h₂
  refine ⟨World.sound_onVolume v hids₁, World.sound_onVolume v hids₂, hk₁, hk₂, hk,
    report₁, report₂, w₁', w₂', hrun₁, hrun₂, hok₁, hok₂, ?_⟩
  rintro ⟨o, l, hends₁, hends₂⟩
  exact hne ((hfound₁ o l hends₁).trans (hfound₂ o l hends₂).symm)

end Build

/-- That different paths are different files does not isolate a language from others: one of them
may take the room that its table needs or change how its table is stored, or its table may be
written twice for two localizations of one code, where it is taken but once or put behind what has
been there. -/
theorem language_not_isolated :
    ((FileSystem.volume .scarce).Strict ∧ Build.EndsOtherwise .scarce 1 [0, 1] [2, 0, 1]) ∧
    ((FileSystem.volume .uneven).Strict ∧ Build.EndsOtherwise .uneven 1 [0, 1] [2, 0, 1]) ∧
    ((FileSystem.volume .archive).Strict ∧ Build.EndsOtherwise .archive 1 [0, 1] [0, 3, 1]) ∧
    ((FileSystem.volume .ledger).Strict ∧ Build.EndsOtherwise .ledger 1 [0, 1] [0, 3, 1]) := by
  refine ⟨⟨Volume.strict_scarce, ?_⟩, ⟨Volume.strict_uneven, ?_⟩, ⟨Volume.strict_archive, ?_⟩,
    ⟨Volume.strict_ledger, ?_⟩⟩
  · have h₁ : Build.remains .scarce 1 [0, 1] = (some .ok, some (true, 1)) := by decide +kernel
    have h₂ : Build.remains .scarce 1 [2, 0, 1] = (some .ok, some (false, 0)) := by decide +kernel
    exact Build.endsOtherwise_of_remains (by decide) (by decide) rfl rfl (by decide) (by decide)
      (by decide) h₁ h₂ (by decide)
  · have h₁ : Build.remains .uneven 1 [0, 1] = (some .ok, some (true, 1)) := by decide +kernel
    have h₂ : Build.remains .uneven 1 [2, 0, 1] = (some .ok, some (true, 2)) := by decide +kernel
    exact Build.endsOtherwise_of_remains (by decide) (by decide) rfl rfl (by decide) (by decide)
      (by decide) h₁ h₂ (by decide)
  · have h₁ : Build.remains .archive 1 [0, 1] = (some .ok, some (true, 1)) := by decide +kernel
    have h₂ : Build.remains .archive 1 [0, 3, 1] = (some .ok, some (false, 0)) := by
      decide +kernel
    exact Build.endsOtherwise_of_remains (by decide) (by decide) rfl rfl (by decide) (by decide)
      (by decide) h₁ h₂ (by decide)
  · have h₁ : Build.remains .ledger 1 [0, 1] = (some .ok, some (true, 1)) := by decide +kernel
    have h₂ : Build.remains .ledger 1 [0, 3, 1] = (some .ok, some (true, 2)) := by decide +kernel
    exact Build.endsOtherwise_of_remains (by decide) (by decide) rfl rfl (by decide) (by decide)
      (by decide) h₁ h₂ (by decide)

end Dialogue
