import Dialogue.Proofs.Build.Base
import Dialogue.Proofs.Build.Progress

/-! What all localizations of a list come to can be told when none of them has been looked at, and
so can it be told whether a run over the list ends the build. -/

namespace Dialogue.Build

open FileSystem (SameFile)

/-- What a localization comes to, as it can be told at the beginning of a run. -/
def foretold (c : Context) (w : World) (k : LocalizationId) : Except Fault Outcome :=
  if k = c.base then
    .ok (if c.project.baseLanguage.truthy then .loaded else .skipped (noCodeMessage c.project))
  else (settlementOf c k w).outcome

def refilled (c : Context) (l : Localization) : Localization :=
  if c.project.baseLanguage.truthy then
    { l with texts := Table.ofEntries (textsOf c.entries), assets := [] }
  else l

theorem Context.Alike.refilled {c c' : Context} (h : c.Alike c') (l : Localization) :
    refilled c' l = Build.refilled c l := by
  rw [Build.refilled, h.language, h.entries, Build.refilled]

/-- No listener of the base fails when it is told of the compiler's texts. -/
def Quiet (c : Context) (w : World) : Prop :=
  c.project.baseLanguage.truthy = true → textsOf c.entries ≠ [] →
    ∀ l ∈ (w.localization c.base).listeners, l.reaction ≠ .fail

/-- The paths that the languages of a list are looked up at are spared. -/
def AllSpared (c : Context) (ids : List LocalizationId) (w : World) : Prop :=
  ∀ k ∈ ids, k ≠ c.base → Spared c ids w (w.localization k).stringFile

/-- The place of a localization in a list and at the end of a run: the base stays there, and all
others are as it can be told at the beginning. -/
structure Succession (c : Context) (w w' : World) (k k' : LocalizationId) : Prop where
  isBase : k = c.base ↔ k' = c.base
  final : k ≠ c.base → ∃ o, (settlementOf c k w).outcome = .ok o ∧
    w'.localization k' = settled (w.localization k) o (settlementOf c k w).path
  file : k ≠ c.base → SameFile (settlementOf c k w).path (settlementOf c k w).files w'.files

section Run

variable {c : Context} {ids : List LocalizationId} {w w' u v : World} {i : Nat}
  {k : LocalizationId} {o : Outcome} {report : BuildReport}

theorem foretold_of_eq (h : k = c.base) :
    foretold c w k = .ok (if c.project.baseLanguage.truthy then .loaded
      else .skipped (noCodeMessage c.project)) :=
  if_pos h

theorem foretold_of_ne (h : k ≠ c.base) : foretold c w k = (settlementOf c k w).outcome :=
  if_neg h

/-! ## The base -/

section Base

variable (hr : Registered c ids w) (hi : ids[i]? = some k)

include hr hi

theorem foretold_of_base (h : Passage c 0 ids w w' i k o u v) (hbase : k = c.base) :
    foretold c w k = .ok o := by
  rw [foretold_of_eq hbase]
  cases htruthy : c.project.baseLanguage.truthy with
  | true => rw [loaded_of_base hr hi h hbase htruthy, if_pos rfl]
  | false =>
      have hcode := code_before hr hi h hbase
      rw [← hcode] at htruthy
      have hstep := h.step
      cases hstep with
      | loaded _ code => simp [code] at htruthy
      | rebuilt code => simp [code] at htruthy
      | skipped reason =>
          cases reason with
          | noCode => rfl
          | duplicate code => simp [code] at htruthy
          | unread code => simp [code] at htruthy

end Base

/-! ## Listeners -/

/-- In no slot is a listener of the base registered. -/
theorem listeners_of_slot {slot : Nat} {r r' : BuildReport} (hbase : c.base < u.localizations.size)
    (hp : c.projectId < u.projects.size)
    (hcode : k = c.base → (u.localization k).localeCode.same c.project.baseLanguage = true)
    (h : (syncSlot c slot k r).exec u = (.ok r', v)) :
    (v.localization c.base).listeners ⊆ (u.localization c.base).listeners := by
  obtain ⟨o, hsynced, -⟩ := syncSlot_eq_ok h
  by_cases hk : k = c.base
  case neg =>
    rw [(hsynced.frame hp).untouched c.base hbase (by simpa using Ne.symm hk)]
    exact fun _ hl => hl
  case pos =>
    cases htruthy : (u.localization k).localeCode.truthy with
    | true =>
        have hleft := endsIn_syncSlot_of_base htruthy (hcode hk) hk slot r
        rw [Action.endsIn_of_ok h, hk] at hleft
        exact hleft.listeners
    | false =>
        rw [exec_syncSlot_of_noCode c slot k r htruthy] at h
        cases h
        exact fun _ hl => hl

/-- How far a run has come in which no listener of the base has been registered. -/
structure Advanced (c : Context) (ids : List LocalizationId) (w u : World) : Prop
    extends Progress c ids w u where
  listeners : (u.localization c.base).listeners ⊆ (w.localization c.base).listeners

theorem Advanced.refl (c : Context) (ids : List LocalizationId) (w : World) :
    Advanced c ids w w :=
  ⟨.refl c ids w, fun _ h => h⟩

theorem Underway.listeners_base (h : Underway c ids w u) (hr : Registered c ids w) {i : Nat}
    {r r' : BuildReport} (hslot : (syncSlot c (0 + i) k r).exec u = (.ok r', v)) :
    (v.localization c.base).listeners ⊆ (u.localization c.base).listeners := by
  refine listeners_of_slot ?_ ?_ ?_ hslot
  · exact Nat.lt_of_lt_of_le (hr.listed c.base hr.mem) h.frame.size
  · rw [h.frame.projects]
    exact hr.project
  · intro hbase
    rw [h.code_base hr hbase]
    exact hr.language

theorem Advanced.slot (hr : Registered c ids w) (hsep : w.files.Separate)
    (h : Advanced c ids w u) {i : Nat} (hi : ids[i]? = some k) {r r' : BuildReport}
    (hslot : (syncSlot c (0 + i) k r).exec u = (.ok r', v)) : Advanced c ids w v where
  toProgress := h.toProgress.slot hr hsep hi hslot
  listeners := List.Subset.trans (h.toUnderway.listeners_base hr hslot) h.listeners

/-! ## Runs that return -/

/-- A slot does not end the build if this can be told at the beginning. -/
theorem Advanced.slot_returns (hr : Registered c ids w) (hsep : w.files.Separate)
    (h : Advanced c ids w u) (hk : k ∈ ids)
    (hspared : k ≠ c.base → Spared c ids w (w.localization k).stringFile)
    (hquiet : Quiet c w) (ho : foretold c w k = .ok o) (slot : Nat) (r : BuildReport) :
    ∃ r' v, (syncSlot c slot k r).exec u = (.ok r', v) := by
  by_cases hbase : k = c.base
  case neg =>
    rw [foretold_of_ne hbase] at ho
    obtain ⟨v, hslot, -⟩ := settles_of_other (w := u) slot r hbase
    have hagree := h.settlement hsep (hr.listed k hk) (hspared hbase)
    rw [hagree.outcome, ho] at hslot
    exact ⟨_, v, hslot⟩
  case pos =>
    have hcode := h.code_base hr hbase
    cases htruthy : c.project.baseLanguage.truthy with
    | false =>
        rw [exec_syncSlot_of_noCode c slot k r (by rw [hcode, htruthy])]
        exact ⟨_, _, rfl⟩
    | true =>
        have hends := endsIn_syncSlot_of_base (by rw [hcode, htruthy])
          (by rw [hcode]; exact hr.language) hbase slot r
        refine (?_ : ∃ r' v, _ ∧ Action.Left k u v).imp fun _ => .imp fun _ => And.left
        refine Action.EndsIn.returns (hends.mono (fun _ hv => hv) fun e he => ?_)
        obtain ⟨htexts, l, hl, hfail, -⟩ := he
        rw [hbase] at hl
        exact hquiet htruthy htexts l (h.listeners hl) hfail

theorem returns_of_foretold (hr : Registered c ids w) (hsep : w.files.Separate)
    (hspared : AllSpared c ids w) (hquiet : Quiet c w)
    (ho : ∀ k ∈ ids, ∃ o, foretold c w k = .ok o) :
    ∃ report w', (syncSlots c {} 0 ids).exec w = (.ok report, w') := by
  have hends : Action.EndsIn (Advanced c ids w) (fun _ => False) (syncSlots c {} 0 ids) w := by
    refine endsIn_syncSlots (.refl c ids w) fun {i k u} r hi hu => ?_
    have hk := List.mem_of_getElem? hi
    obtain ⟨o, ho⟩ := ho k hk
    obtain ⟨r', v, hslot⟩ := hu.slot_returns hr hsep hk (hspared k hk) hquiet ho (0 + i) r
    rw [Action.endsIn_of_ok hslot]
    exact hu.slot hr hsep hi hslot
  obtain ⟨report, w', hrun, -⟩ := hends.returns
  exact ⟨report, w', hrun⟩

/-! ## At the end of a run -/

section End

variable (hr : Registered c ids w) (hrun : (syncSlots c {} 0 ids).exec w = (.ok report, w'))
  (hsep : w.files.Separate)

include hr hrun hsep

theorem advanced_of_run : Advanced c ids w w' := by
  have hend := invariant_worldAt (I := Advanced c ids w) (.refl c ids w)
    (fun hget hu hslot => hu.slot hr hsep hget hslot) hrun (Nat.le_refl _)
  rwa [worldAt_length hrun] at hend

theorem base_of_run (hi : ids[i]? = some c.base) :
    (refilled c (w.localization c.base)).Alike (w'.localization c.base) := by
  obtain ⟨o, hpassage⟩ := exists_passage hr hrun hi
  have hpath : (w'.localization c.base).stringFile = (w.localization c.base).stringFile := by
    have hend := (advanced_of_run hr hrun hsep).toProgress
    rcases hend.path c.base (hr.listed _ (List.mem_of_getElem? hi)) with hpath | ⟨p, hdue, -⟩
    · exact hpath
    · have htable := hdue.table
      simp [hasTable, hr.code, hr.language] at htable
  have hforetold := foretold_of_base hr hi hpassage rfl
  rw [foretold_of_eq rfl] at hforetold
  cases htruthy : c.project.baseLanguage.truthy with
  | false =>
      simp only [htruthy, Bool.false_eq_true, if_false, Except.ok.injEq] at hforetold
      subst hforetold
      have hsame : w'.localization c.base = w.localization c.base := by
        rw [(skipped_of_passage hr hi hpassage).old.rest, hpath]
      rw [refilled, htruthy, if_neg Bool.false_ne_true, hsame]
      exact .refl _
  | true =>
      simp only [htruthy, if_true, Except.ok.injEq] at hforetold
      subst hforetold
      rw [refilled, htruthy, if_pos rfl, base_of_passage hr hi hpassage, hpath]
      exact ⟨rfl, rfl, rfl, rfl, rfl, rfl⟩

/-- Where the base has been told of texts none of its listeners fails. -/
theorem quiet_of_run (hi : ids[i]? = some c.base) : Quiet c w' := by
  intro htruthy htexts l hl
  obtain ⟨o, hpassage⟩ := exists_passage hr hrun hi
  obtain ⟨r, r', hslot⟩ := exec_slot_of_run hrun hi
  have hcode := code_before hr hi hpassage rfl
  have hquiet := noFailure_of_base (by rw [hcode, htruthy]) (by rw [hcode]; exact hr.language) rfl
    htexts hslot
  rw [hpassage.before.untouched c.base (hr.listed _ (List.mem_of_getElem? hi))
    (not_mem_of_count_eq_one hr.once hi).1] at hquiet
  exact hquiet l ((advanced_of_run hr hrun hsep).listeners hl)

/-- Every outcome is the one that has been foretold. -/
theorem foretold_of_passage (hspared : AllSpared c ids w) (hi : ids[i]? = some k)
    (h : Passage c 0 ids w w' i k o (worldAt c {} 0 ids w i) (worldAt c {} 0 ids w (i + 1))) :
    foretold c w k = .ok o := by
  by_cases hbase : k = c.base
  case pos => exact foretold_of_base hr hi h hbase
  case neg =>
    obtain ⟨o', ho', hpassage⟩ :=
      passage_of_run hr hrun hi hsep (hspared k (List.mem_of_getElem? hi) hbase) hbase
    have hsame := (accounted_of_passage hr hi h).unique
      (accounted_of_passage hr hi hpassage) hr hi h
    rw [foretold_of_ne hbase, ho', hsame]

/-- The report notes the skips that have been foretold. -/
theorem report_of_run (hspared : AllSpared c ids w) :
    ∃ outcomes : List Outcome, ids.map (foretold c w) = outcomes.map Except.ok ∧
      report = noteAll {} ((ids.map fun k => (w.localization k).localeCode).zip outcomes) := by
  obtain ⟨-, outcomes, hlength, hreport, hpassages⟩ := syncSlots_eq_ok hr.listed hr.project hrun
  refine ⟨outcomes, ?_, hreport⟩
  refine List.ext_getElem (by simp [hlength]) fun i hi hi' => ?_
  rw [List.length_map] at hi hi'
  have hk := List.getElem?_eq_getElem hi
  have ho := List.getElem?_eq_getElem hi'
  rw [List.getElem_map, List.getElem_map]
  exact foretold_of_passage hr hrun hsep hspared hk (hpassages i _ _ hk ho)

theorem succession_of_run (hspared : AllSpared c ids w) :
    List.Forall₂ (Succession c w w') ids (w'.project c.projectId).localizations := by
  obtain ⟨hframe, outcomes, hlength, -, hpassages⟩ := syncSlots_eq_ok hr.listed hr.project hrun
  have hsize := hframe.length
  rw [hr.list] at hsize
  refine List.forall₂_iff_get.mpr ⟨hsize.symm, fun i hi hi' => ?_⟩
  have hk := List.getElem?_eq_getElem hi
  have hk' := List.getElem?_eq_getElem hi'
  have ho := List.getElem?_eq_getElem (show i < outcomes.length by rwa [hlength])
  have hpassage := hpassages i _ _ hk ho
  have hmem := List.getElem_mem hi
  simp only [List.get_eq_getElem]
  constructor
  case isBase =>
    rcases (accounted_of_passage hr hk hpassage).slot hk' with hsame | ⟨hforeign, hnew, -, -⟩
    · rw [hsame]
    · have hlt := Nat.lt_of_lt_of_le (hr.listed c.base hr.mem) hnew
      exact ⟨fun h => absurd h hforeign, fun h => absurd h (Nat.ne_of_gt hlt)⟩
  case final =>
    intro hother
    have hspared' := hspared _ hmem hother
    obtain ⟨o, ho, hpassage'⟩ := passage_of_run hr hrun hk hsep hspared' hother
    obtain ⟨k', hslot, hfinal⟩ := final_of_passage hr hk hother hpassage'
    rw [hk', Option.some.injEq] at hslot
    rw [path_of_run hr hrun hk hsep hspared', ← hslot] at hfinal
    exact ⟨o, ho, hfinal⟩
  case file =>
    intro hother
    exact file_of_run hr hrun hk hsep (hspared _ hmem hother)

end End

end Run

end Dialogue.Build
