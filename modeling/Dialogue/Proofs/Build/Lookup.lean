import Dialogue.Proofs.Build.Base
import Dialogue.Proofs.Build.Skips
import Dialogue.Session

/-! Localizations are looked up by their codes, and the first one counts. After a build the base has
the code of the base language, and so may others that were listed with it. These are skipped and
stay in the list, so that the base is found unless one of them stands before it. -/

namespace Dialogue

namespace Build

/-! ## Lists -/

/-- A search that stops at an element which stays stops there in the other list, too. -/
theorem find?_eq_of_forall₂ {p q : LocalizationId → Bool} {ids ids' : List LocalizationId}
    (h : List.Forall₂ (fun k k' => q k' = p k ∧ (p k = true → k' = k)) ids ids') :
    ids'.find? q = ids.find? p := by
  induction h with
  | nil => rfl
  | @cons k k' _ _ hk _ ih =>
      cases hp : p k with
      | true =>
          obtain rfl := hk.2 hp
          rw [List.find?_cons_of_pos (hk.1.trans hp), List.find?_cons_of_pos hp]
      | false =>
          have hq : q k' = false := hk.1.trans hp
          rw [List.find?_cons_of_neg (by simp [hq]), List.find?_cons_of_neg (by simp [hp]), ih]

theorem find?_registerBase {base : LocalizationId} {p : LocalizationId → Bool}
    (hbase : p base = true) (ids : List LocalizationId) :
    (registerBase base ids).find? p =
      some (((ids.takeWhile (· ≠ base)).find? p).getD base) := by
  rw [registerBase_eq, List.find?_append, List.find?_cons_of_pos hbase]
  cases (ids.takeWhile (· ≠ base)).find? p <;> rfl

/-! ## Twins of the base -/

/-- The other localizations in the base language that are listed before the base. -/
def twins (w : World) (base : LocalizationId) (p : Project) : List LocalizationId :=
  (p.localizations.takeWhile (· ≠ base)).filter fun k =>
    (w.localization k).localeCode.same p.baseLanguage

theorem twins_of_sameStore {w u : World} (h : w.SameStore u) (base : LocalizationId)
    (id : ProjectId) : twins u base (u.project id) = twins w base (w.project id) := by
  rw [twins, h.project, funext h.localization, twins]

theorem ne_of_mem_twins {w : World} {base k : LocalizationId} {p : Project}
    (h : k ∈ twins w base p) : k ≠ base := by
  rintro rfl
  exact not_mem_takeWhile_ne _ _ (List.mem_filter.mp h).1

section Passage

variable {c : Context} {ids : List LocalizationId} {w w' u v : World} {i : Nat}
  {k : LocalizationId} {o : Outcome}

/-- Another localization in the base language is always skipped. -/
theorem exists_message_of_twin (hr : Registered c ids w) (hi : ids[i]? = some k)
    (h : Passage c 0 ids w w' i k o u v) (hother : k ≠ c.base)
    (hsame : (w.localization k).localeCode.same c.project.baseLanguage = true) :
    ∃ message, o = .skipped message := by
  rw [← (recorded_before hr hi h).localeCode] at hsame
  have hstep := h.step
  cases hstep with
  | loaded isBase => exact absurd isBase hother
  | rebuilt _ foreign =>
      rw [hsame] at foreign
      cases foreign
  | @skipped message => exact ⟨message, rfl⟩

/-- No table is generated for a localization in the base language. -/
theorem LeftAlone.eq_of_twin {start : World} (h : LeftAlone c ids u start w' k)
    (hother : k ≠ c.base)
    (hsame : (start.localization k).localeCode.same c.project.baseLanguage = true) :
    w'.localization k = u.localization k := by
  have hcode := h.localeCode.resolve_right fun hbase => hother hbase.1
  have hpath := h.stringFile.resolve_right fun ⟨p, hgenerated, _⟩ => by
    have htable := hgenerated.due.table
    rw [hasTable, hsame] at htable
    simp at htable
  have hrest := h.rest
  rw [hcode, hpath] at hrest
  exact hrest

end Passage

section Published

variable {compiler : Compiler} {config : Config} {id : ProjectId} {w w' u v : World}
  {report : BuildReport} {c : Compilation} {blob : Bytes} {base : LocalizationId}
  {entries : List StringTable.Entry}
  (h : Published compiler config id w report w' c blob base entries u v) (hu : u.Sound)

include h hu

/-- Every slot has the code that it had, and one in the base language has the localization that it
had. -/
theorem forall₂_code_of_published :
    let start := registered id base blob u
    List.Forall₂ (fun k k' => (w'.localization k').localeCode = (start.localization k).localeCode ∧
        ((start.localization k).localeCode.same (u.project id).baseLanguage = true → k' = k))
      (registerBase base (u.project id).localizations) (w'.project id).localizations := by
  intro start
  have hr := h.isRegistered hu
  obtain ⟨hframe, -⟩ := h.passages hu
  refine forall₂_of_passages h hu fun {i k k' o} hk hk' hpassage => ?_
  rcases (accounted_of_passage hr hk hpassage).slot hk' with rfl | ⟨hother, -, -, hcode⟩
  · exact ⟨hframe.localeCode k' (hr.listed k' (List.mem_of_getElem? hk)), fun _ => rfl⟩
  · refine ⟨hcode, fun hsame => ?_⟩
    rw [← baseLanguage_context h.hasBase config blob entries] at hsame
    obtain ⟨message, rfl⟩ := exists_message_of_twin hr hk hpassage hother hsame
    exact Option.some.inj (hk'.symm.trans (skipped_of_passage hr hk hpassage).slot)

/-- The first localization in the base language is the first twin of the base, or else the base. -/
theorem find?_of_published :
    (w'.project id).localizations.find? (fun k =>
        (w'.localization k).localeCode.same (w'.project id).baseLanguage) =
      some ((twins u base (u.project id)).head?.getD base) := by
  let language := (u.project id).baseLanguage
  let start := registered id base blob u
  have hslots : List.Forall₂ (fun k k' =>
      (w'.localization k').localeCode.same language =
          (start.localization k).localeCode.same language ∧
        ((start.localization k).localeCode.same language = true → k' = k))
      (registerBase base (u.project id).localizations) (w'.project id).localizations :=
    (forall₂_code_of_published h hu).imp fun k k' hk => ⟨by rw [hk.1], hk.2⟩
  have hbase : (start.localization base).localeCode.same language = true := by
    rw [localization_registered_self (hu.base id base h.hasBase)]
    exact hu.language id
  have htwins : (((u.project id).localizations.takeWhile (· ≠ base)).filter fun k =>
      (start.localization k).localeCode.same language) = twins u base (u.project id) := by
    refine List.filter_congr fun k hk => ?_
    have hother : k ≠ base := by simpa using List.mem_takeWhile_imp hk
    rw [localization_registered_of_ne hother]
  rw [baseLanguage_of_published h hu, find?_eq_of_forall₂ hslots,
    find?_registerBase (p := fun k => (start.localization k).localeCode.same language) hbase,
    ← List.head?_filter, htwins]

variable {k : LocalizationId} (hk : k ∈ twins u base (u.project id))

include hk

/-- A twin of the base is reported and left as it is. -/
theorem twin_of_published :
    k ∈ (w'.project id).localizations ∧ w'.localization k = u.localization k ∧
      (u.localization k).localeCode ∈ report.skipped := by
  have hr := h.isRegistered hu
  have hother := ne_of_mem_twins hk
  obtain ⟨hbefore, hsame⟩ := List.mem_filter.mp hk
  obtain ⟨-, outcomes, hlength, -, hpassages⟩ := h.passages hu
  have hmem : k ∈ registerBase base (u.project id).localizations := by
    rw [registerBase_eq]
    exact List.mem_append_left _ hbefore
  obtain ⟨i, hi⟩ := List.mem_iff_getElem?.mp hmem
  obtain ⟨hlt, -⟩ := List.getElem?_eq_some_iff.mp hi
  have hpassage := hpassages i k _ hi (List.getElem?_eq_getElem (by rwa [hlength]))
  have hstart : (registered id base blob u).localization k = u.localization k :=
    localization_registered_of_ne hother
  rw [← baseLanguage_context h.hasBase config blob entries, ← hstart] at hsame
  obtain ⟨message, ho⟩ := exists_message_of_twin hr hi hpassage hother hsame
  rw [ho] at hpassage
  have haccounted := accounted_of_passage hr hi hpassage
  refine ⟨List.mem_of_getElem? (skipped_of_passage hr hi hpassage).slot,
    (leftAlone_of_skipped h hu hi hpassage).eq_of_twin hother hsame, ?_⟩
  rw [← hstart]
  exact (h.noted_of_accounted hu hi haccounted).2

end Published

end Build

namespace Session

variable {w : World} {p : Project} {code : Value}

theorem findLocalization_of_find? {k : LocalizationId} (hcode : code ≠ .null)
    (h : (p.localizations.find? fun k => (w.localization k).localeCode.same code) = some k) :
    findLocalization w p code = some k := by
  rw [findLocalization, h]
  exact hcode

theorem findLocalization_of_forall
    (h : ∀ k ∈ p.localizations, (w.localization k).localeCode.same code = false) :
    findLocalization w p code = p.base := by
  have hnone : (p.localizations.find? fun k => (w.localization k).localeCode.same code) = none :=
    List.find?_eq_none.mpr fun k hk => by simp [h k hk]
  by_cases hcode : code = .null
  · rw [hcode]
    rfl
  · rw [findLocalization, hnone]
    exact hcode

end Session

/-- After a build that reports success the base is found where no language is asked for, and for
every code that no localization has. In the base language it is found exactly if no other
localization in that language has been listed before it. Otherwise the first of these is found,
which has been reported as skipped and is what it was. -/
theorem base_found {compiler : Compiler} {config : Config} {id : ProjectId} {w w' : World}
    {report : BuildReport} (hw : w.Sound) (hc : ∀ job, (compiler job).Keeps World.Sound)
    (h : (build compiler config (some id)).exec w = (.ok report, w'))
    (hok : report.status = .ok) (hlanguage : (w'.project id).baseLanguage.truthy = true) :
    ∃ job c w₁ output blob base, Build.IsJob w.files config.encoding (w.project id) job ∧
      (compiler job).exec (w.setBuilding id true) = (.ok c, w₁) ∧
      c.program = some output ∧ output.serialize = .ok blob ∧
      Build.BasePublished id c blob base w₁ w' ∧
      let p := w'.project id
      let twins := Build.twins w₁ base (w₁.project id)
      p.baseLanguage = (w₁.project id).baseLanguage ∧
      Session.findLocalization w' p .null = some base ∧
      (∀ code, (∀ k ∈ p.localizations, (w'.localization k).localeCode.same code = false) →
        Session.findLocalization w' p code = some base) ∧
      (Session.findLocalization w' p p.baseLanguage = some base ↔ twins = []) ∧
      (∀ k rest, twins = k :: rest → Session.findLocalization w' p p.baseLanguage = some k) ∧
      ∀ k ∈ twins, k ∈ p.localizations ∧ w'.localization k = w₁.localization k ∧
        (w₁.localization k).localeCode ∈ report.skipped := by
  obtain ⟨c, blob, base, entries, u, v, hpublished⟩ := Build.published_of_build h hok
  obtain ⟨job, w₁, output, hjob, hcall, hsame, -, hprogram, hserialize⟩ :=
    Build.called_of_compiled hpublished.compiled
  have hu := hpublished.sound hw hc
  have hbase := Build.basePublished_of_published hpublished hu
  refine ⟨job, c, w₁, output, blob, base, hjob, hcall, hprogram, hserialize,
    .of_sameStore hsame hbase, ?_⟩
  intro p twins
  have htwins : Build.twins u base (u.project id) = twins :=
    Build.twins_of_sameStore hsame base id
  have hfound : Session.findLocalization w' p p.baseLanguage = some (twins.head?.getD base) := by
    refine Session.findLocalization_of_find? (fun hnull => ?_) ?_
    · rw [hnull] at hlanguage
      cases hlanguage
    · rw [Build.find?_of_published hpublished hu, htwins]
  have hkept : p.baseLanguage = (w₁.project id).baseLanguage := by
    rw [← hsame.project]
    exact Build.baseLanguage_of_published hpublished hu
  refine ⟨hkept, hbase.isBase, fun code hcode => ?_, ?_, fun k rest hcons => ?_, fun k hk => ?_⟩
  · rw [Session.findLocalization_of_forall hcode, hbase.isBase]
  · rw [hfound, Option.some.injEq]
    cases hcases : twins with
    | nil => simp
    | cons k rest =>
        have hother : k ≠ base := Build.ne_of_mem_twins (hcases ▸ List.mem_cons_self)
        simp [hother]
  · rw [hfound, hcons]
    rfl
  · rw [← htwins] at hk
    rw [← hsame.localization]
    exact Build.twin_of_published hpublished hu hk

/-- A project with two localizations in its language. The base is the second one in the list. -/
def World.shadowed : World where
  localizations := #[{ localeCode := .text "en" },
    { localeCode := .text "en", texts := [(.text "line:1", .text "Hi")] }]
  projects := #[{ sources := [.text "main"], base := some 0, localizations := [1, 0] }]
  files := .memory { files := [("main", .bytes (Text.Utf8.encode "title: Start".toList))] }

theorem World.sound_shadowed : World.shadowed.Sound :=
  .of_mem (by simp [shadowed, Value.same, Scalar.same, Scalar.number?])
    (by simp [shadowed, Table.Distinct])

/-- The base has been brought up to date, and the other localization is found. -/
theorem base_not_found_shadowed :
    let done := (build (.returning .greeting) {} (some 0)).exec World.shadowed
    let p := done.2.project 0
    done.1.toOption.map (fun r => (r.status, r.skipped.map Value.text?)) =
      some (.ok, [some "en"]) ∧
    p.base = some 0 ∧ p.baseLanguage.text? = some "en" ∧
    Session.findLocalization done.2 p (.text "en") = some 1 ∧
    ((done.2.localization 0).texts.map fun e => e.2.text?) = [some "Hello"] ∧
    ((done.2.localization 1).texts.map fun e => e.2.text?) = [some "Hi"] := by
  decide +kernel

theorem base_found_shadowed :
    ∃ report w', (build (.returning .greeting) {} (some 0)).exec World.shadowed =
        (.ok report, w') ∧
      Session.findLocalization w' (w'.project 0) .null = some 0 ∧
      Session.findLocalization w' (w'.project 0) (w'.project 0).baseLanguage = some 1 ∧
      w'.localization 1 = World.shadowed.localization 1 := by
  obtain ⟨hok, hlanguage⟩ : ((build (.returning .greeting) {} (some 0)).exec
        World.shadowed).1.toOption.map BuildReport.status = some .ok ∧
      (((build (.returning .greeting) {} (some 0)).exec
        World.shadowed).2.project 0).baseLanguage.truthy = true := by decide +kernel
  obtain ⟨report, w', h, hstatus⟩ := Action.exec_eq_ok_of_map hok
  rw [h] at hlanguage
  obtain ⟨job, c, w₁, output, blob, base, -, hcall, -, -, hpublished, -, hnull, -, -, hfound,
    htwins⟩ :=
    base_found World.sound_shadowed (Compiler.keeps_returning _ _) h hstatus hlanguage
  cases hcall
  obtain rfl : 0 = base := Option.some.inj hpublished.wasBase
  exact ⟨report, w', h, hnull, hfound 1 [] rfl, (htwins 1 (List.mem_singleton.mpr rfl)).2.1⟩

end Dialogue
