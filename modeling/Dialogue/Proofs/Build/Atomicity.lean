import Dialogue.Proofs.Build.Publish

/-! A build that does not report success has changed nothing: not the project, its localizations or
any file, and no listener has been called. -/

namespace Dialogue

def World.withSources (w : World) (project : Option ProjectId) (sources : List Value) : World :=
  match project with
  | none => w
  | some id => w.setProject id { w.project id with sources := sources }

namespace Build

variable {compiler : Compiler} {config : Config} {id : ProjectId} {w w' : World}
  {report : BuildReport}

/-- What a run reports as a failure has been rejected before anything was changed. -/
theorem run_failed (hc : compiler.KeepsStore id) (hbuilding : (w.project id).building = true)
    (h : (run compiler config id).exec w = (.ok report, w')) (hfailed : report.status ≠ .ok) :
    w.SameStore w' ∧ report.warnings = [] ∧ report.skipped = [] := by
  rcases run_eq_ok h with ⟨r, hrejected, rfl⟩ | ⟨c, blob, u, -, hpublish⟩
  · have hharmless := harmless_compile (Action.ignoresLog_sameStore w) (hc.keeps hbuilding) config
      (w.project id) w (.refl w)
    rw [hrejected] at hharmless
    exact ⟨hharmless.1, rfl, rfl⟩
  · exact absurd (status_publish hpublish) hfailed

theorem build_some_failed (hc : compiler.KeepsStore id)
    (h : (build compiler config (some id)).exec w = (.ok report, w'))
    (hfailed : report.status ≠ .ok) :
    w.SameStore w' ∧ report.warnings = [] ∧ report.skipped = [] := by
  rcases build_eq_ok h with ⟨e, rfl, rfl⟩ | ⟨hp, hbuilding, v, hrun, rfl⟩
  · exact ⟨.logged w _ _, rfl, rfl⟩
  · have hmarked : ((w.setBuilding id true).project id).building = true := by
      rw [World.project_setBuilding hp]
    obtain ⟨hsame, hwarnings, hskipped⟩ := run_failed hc hmarked hrun hfailed
    refine ⟨?_, hwarnings, hskipped⟩
    have hunmarked : w = (w.setBuilding id true).setBuilding id false := by
      rw [World.setBuilding_setBuilding hp, World.setBuilding_self hbuilding]
    rw [World.setBuilding, hsame.project]
    conv => left; rw [hunmarked]
    exact hsame.setProject id _

theorem build_failed {project : Option ProjectId} (hc : ∀ id ∈ project, compiler.KeepsStore id)
    (h : (build compiler config project).exec w = (.ok report, w'))
    (hfailed : report.status ≠ .ok) :
    w.SameStore w' ∧ report.warnings = [] ∧ report.skipped = [] := by
  cases project with
  | some id => exact build_some_failed (hc id rfl) h hfailed
  | none =>
      obtain ⟨reason, hnone⟩ := exec_build_none compiler config w
      rw [hnone] at h
      obtain ⟨hreport, rfl⟩ := Prod.mk.inj h
      rw [← Except.ok.inj hreport]
      exact ⟨.logged w _ _, rfl, rfl⟩

/-- New sources are built like those that are there, and reported on in the log. -/
theorem setSources_eq_ok {project : Option ProjectId} {sources : List Value}
    (h : (setSources compiler config project sources).exec w = (.ok report, w')) :
    ∃ u, (build compiler config project).exec (w.withSources project sources) = (.ok report, u) ∧
      u.SameStore w' := by
  cases project with
  | none => exact ⟨w', h, .refl w'⟩
  | some id =>
      rw [setSources, Action.exec_bind_of_ok (Action.exec_updateProject _ _ _)] at h
      obtain ⟨report₁, u, hbuild, hrest⟩ := Action.exec_bind_eq_ok.mp h
      rw [Action.exec_bind_of_ok (Action.exec_project _ _),
        Action.exec_bind_of_ok (Action.exec_log _ _ _)] at hrest
      obtain ⟨hreport, rfl⟩ := Prod.mk.inj hrest
      rw [← Except.ok.inj hreport]
      exact ⟨u, hbuild, .logged u _ _⟩

end Build

/-- A build that reports a failure leaves the store as it was, and so does one with new sources but
for these sources. Its report notes no language. -/
theorem store_unchanged_of_failed (compiler : Compiler) (config : Config)
    (project : Option ProjectId) (hc : ∀ id ∈ project, compiler.KeepsStore id) (w : World) :
    (∀ report w', (build compiler config project).exec w = (.ok report, w') →
      report.status ≠ .ok →
      w.SameStore w' ∧ report.warnings = [] ∧ report.skipped = []) ∧
    ∀ sources report w',
      (setSources compiler config project sources).exec w = (.ok report, w') →
      report.status ≠ .ok →
      (w.withSources project sources).SameStore w' ∧ report.warnings = [] ∧
        report.skipped = [] := by
  refine ⟨fun report w' h hfailed => Build.build_failed hc h hfailed, ?_⟩
  intro sources report w' h hfailed
  obtain ⟨u, hbuild, hsame⟩ := Build.setSources_eq_ok h
  obtain ⟨hstore, hnotes⟩ := Build.build_failed hc hbuild hfailed
  exact ⟨hstore.trans hsame, hnotes⟩

theorem store_unchanged_of_diagnostic :
    let compiler : Compiler := .returning { diagnostics := [⟨.error, "no node", none, none⟩] }
    ∃ report w', (build compiler {} (some 0)).exec World.bilingual = (.ok report, w') ∧
      report.status = .compilationFailed ∧ World.bilingual.SameStore w' ∧ report.warnings = [] ∧
      report.skipped = [] := by
  intro compiler
  have hstatus : ((build compiler {} (some 0)).exec World.bilingual).1.toOption.map
      BuildReport.status = some .compilationFailed := by decide +kernel
  obtain ⟨report, w', h, hfailed⟩ := Action.exec_eq_ok_of_map hstatus
  exact ⟨report, w', h, hfailed,
    (store_unchanged_of_failed compiler {} (some 0)
      (fun id _ => Compiler.keepsStore_returning _ id) World.bilingual).1 report w' h
      (by simp [hfailed])⟩

end Dialogue
