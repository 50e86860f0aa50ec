import Dialogue.Proofs.Build.Accounting
import Dialogue.Proofs.Build.Resolution

/-! Languages share the files. As every generated table has the same content, a language comes to
the same in its turn as it would come to at the beginning, whatever the languages before it came
to. -/

namespace Dialogue.Build

open FileSystem (SameFile)

section Files

variable (c : Context) (ids : List LocalizationId) (w : World)

/-- A localization without a table, which is to be generated at a path. -/
structure DueAt (k : LocalizationId) (p : String) : Prop where
  table : hasTable c (w.localization k).localeCode = true
  missing : (w.localization k).stringFile = .null
  target : target c w.files (w.localization k).localeCode = .ok p

/-- A path at which the file stays the same when the tables that are due are written. -/
def Spared (path : Value) : Prop :=
  ∀ k ∈ ids, ∀ p, DueAt c w k p → path = .text p → SameFile path w.files (writeTable c w.files p).2

/-- A run on its way from `w` to `u`, whatever files share what is written to them. -/
structure Underway (u : World) : Prop where
  frame : Frame c 0 ids w u
  later : w.files.Later u.files

/-- How far a run has come in `u` that was begun in `w`: each path is the one that was on record, or
that of a table which has been generated, and each file is the one that was there, or such a
table. -/
structure Progress (u : World) : Prop
    extends Underway c ids w u where
  path : ∀ k < w.localizations.size,
    (u.localization k).stringFile = (w.localization k).stringFile ∨
    ∃ p, DueAt c w k p ∧ (writeTable c w.files p).1 = .ok () ∧
      (u.localization k).stringFile = .text p ∧
        SameFile (.text p) (writeTable c w.files p).2 u.files
  files : ∀ path, SameFile path w.files u.files ∨
    ∃ k ∈ ids, ∃ p, path = .text p ∧ DueAt c w k p ∧
      SameFile path (writeTable c w.files p).2 u.files

end Files

section Run

variable {c : Context} {ids : List LocalizationId} {w u v : World} {k : LocalizationId}

theorem Underway.refl (c : Context) (ids : List LocalizationId) (w : World) :
    Underway c ids w w :=
  ⟨.refl _ _ _ _, .refl⟩

theorem Progress.refl (c : Context) (ids : List LocalizationId) (w : World) :
    Progress c ids w w where
  toUnderway := .refl c ids w
  path _ _ := .inl rfl
  files _ := .inl (.refl _ _)

/-- A generated table is written once more as it was before. -/
theorem writeTable_of_written {fs fs' : FileSystem} {p : String} (hsep : fs.Separate)
    (h : SameFile (.text p) fs fs' ∨ SameFile (.text p) (writeTable c fs p).2 fs') :
    (writeTable c fs' p).1 = (writeTable c fs p).1 ∧
      SameFile (.text p) (writeTable c fs p).2 (writeTable c fs' p).2 := by
  rcases h with h | h
  · exact ⟨h.writeText_fst _ _, h.writeText_snd _ _⟩
  · exact ⟨(h.writeText_fst _ _).trans (hsep.again .refl _ _ _),
      (hsep.same .refl _ _ _).trans (h.writeText_snd _ _)⟩

theorem Progress.table (h : Progress c ids w u) (p : String) :
    SameFile (.text p) w.files u.files ∨ SameFile (.text p) (writeTable c w.files p).2 u.files := by
  rcases h.files (.text p) with hsame | ⟨_, -, _, hp, -, hwritten⟩
  · exact .inl hsame
  · cases hp
    exact .inr hwritten

theorem target_of_later {fs fs' : FileSystem} (h : fs.Later fs') (code : Value) :
    target c fs' code = target c fs code := by
  rw [target, target, tablePath, tablePath, h.absolute]

/-- What is due in the middle of a run was due at its beginning, if nothing has been recorded. -/
theorem Underway.dueAt (h : Underway c ids w u) (hk : k < w.localizations.size)
    (hpath : (u.localization k).stringFile = (w.localization k).stringFile) {p : String}
    (hdue : DueAt c u k p) : DueAt c w k p where
  table := by rw [← h.frame.localeCode k hk, hdue.table]
  missing := by rw [← hpath, hdue.missing]
  target := by rw [← h.frame.localeCode k hk, ← target_of_later h.later, hdue.target]

/-- A table that is due now was due at the beginning. -/
theorem Progress.dueAt (h : Progress c ids w u) (hk : k < w.localizations.size) {p : String}
    (hdue : DueAt c u k p) : DueAt c w k p := by
  rcases h.path k hk with hpath | ⟨_, _, _, hpath, _⟩
  · exact h.toUnderway.dueAt hk hpath hdue
  · rw [hdue.missing] at hpath
    cases hpath

/-! ## One slot -/

/-- What becomes of the path and the files of a localization: nothing, or the table that is due has
been written, and its path recorded unless it was refused. -/
theorem settlement_cases (c : Context) (k : LocalizationId) (u : World) :
    ((settlementOf c k u).path = (u.localization k).stringFile ∧
      (settlementOf c k u).files = u.files) ∨
    ∃ p, DueAt c u k p ∧ (settlementOf c k u).files = (writeTable c u.files p).2 ∧
      ((settlementOf c k u).path = (u.localization k).stringFile ∨
        (writeTable c u.files p).1 = .ok () ∧ (settlementOf c k u).path = .text p) := by
  let code := (u.localization k).localeCode
  cases htable : hasTable c code with
  | false =>
      rw [settlementOf, settle_of_hasTable_eq_false htable]
      exact .inl ⟨rfl, rfl⟩
  | true =>
      rw [settlementOf, settle_of_hasTable htable]
      rcases resolve_cases c u.files code (u.localization k).stringFile with
        ⟨-, hr⟩ | ⟨hpath, e, htarget, hr⟩ | ⟨hpath, p, e, htarget, hwrite, hr⟩ |
        ⟨hpath, p, htarget, hwrite, hr⟩ <;> rw [hr]
      · exact .inl ⟨rfl, rfl⟩
      · exact .inl ⟨hpath.symm, rfl⟩
      · exact .inr ⟨p, ⟨htable, hpath, htarget⟩, rfl, .inl hpath.symm⟩
      · exact .inr ⟨p, ⟨htable, hpath, htarget⟩, rfl, .inr ⟨hwrite, rfl⟩⟩

theorem Underway.code_base (h : Underway c ids w u) (hr : Registered c ids w) (hk : k = c.base) :
    (u.localization k).localeCode = c.project.baseLanguage := by
  rw [hk, h.frame.localeCode c.base (hr.listed c.base hr.mem), hr.code]

theorem Underway.slot (h : Underway c ids w u) (hr : Registered c ids w) {i : Nat}
    (hi : ids[i]? = some k) {report report' : BuildReport}
    (hslot : (syncSlot c (0 + i) k report).exec u = (.ok report', v)) :
    Underway c ids w v ∧ Frame c (0 + i) [k] u v ∧ v.files = (settlementOf c k u).files ∧
      (v.localization k).stringFile = (settlementOf c k u).path := by
  have hlt := (List.getElem?_eq_some_iff.mp hi).1
  obtain ⟨o, hsynced, -⟩ := syncSlot_eq_ok hslot
  have hframe := hsynced.frame (by rw [h.frame.projects]; exact hr.project)
  obtain ⟨hfiles, hpath⟩ := effect_of_slot
    (fun hbase => by rw [h.code_base hr hbase]; exact hr.language) hslot
  refine ⟨⟨h.frame.trans (hframe.mono ?_ (Nat.zero_le _) ?_), ?_⟩, hframe, hfiles, hpath⟩
  · simpa using List.mem_of_getElem? hi
  · simp only [List.length_singleton]
    omega
  · rw [hfiles]
    rcases settlement_cases c k u with ⟨-, hsame⟩ | ⟨p, -, hwritten, -⟩
    · rw [hsame]
      exact h.later
    · rw [hwritten]
      exact h.later.write _ _ _

theorem Progress.unmoved (h : Progress c ids w u) (hv : Underway c ids w v)
    (hpath : ∀ j < w.localizations.size,
      (v.localization j).stringFile = (u.localization j).stringFile)
    (hfiles : v.files = u.files) : Progress c ids w v where
  toUnderway := hv
  path j hj := by
    rw [hpath j hj, hfiles]
    exact h.path j hj
  files := by
    rw [hfiles]
    exact h.files

/-- A table that is due has been written, and its path recorded unless it was refused. -/
theorem Progress.written (hsep : w.files.Separate) (h : Progress c ids w u)
    (hv : Underway c ids w v) (hk : k ∈ ids) (hsize : k < w.localizations.size) {p : String}
    (hdue : DueAt c u k p) (hfiles : v.files = (writeTable c u.files p).2)
    (hother : ∀ j < w.localizations.size, j ≠ k →
      (v.localization j).stringFile = (u.localization j).stringFile)
    (hpath : (v.localization k).stringFile = (u.localization k).stringFile ∨
      (writeTable c u.files p).1 = .ok () ∧ (v.localization k).stringFile = .text p) :
    Progress c ids w v := by
  have hdue' := h.dueAt hsize hdue
  obtain ⟨hresult, hwritten⟩ := writeTable_of_written hsep (h.table p)
  rw [← hfiles] at hwritten
  have hapart : ∀ path, path ≠ .text p → SameFile path u.files v.files := by
    rw [hfiles]
    exact hsep.apart h.later p _ _
  -- A table that was generated before is written over with itself, or it is in another file.
  have hkeep : ∀ p', SameFile (.text p') (writeTable c w.files p').2 u.files →
      SameFile (.text p') (writeTable c w.files p').2 v.files := fun p' hp' => by
    by_cases hp : p' = p
    · rw [hp]
      exact hwritten
    · exact hp'.trans (hapart _ (by simpa using hp))
  refine ⟨hv, fun j hj => ?_, fun path => ?_⟩
  · by_cases hj' : j = k
    · subst hj'
      rcases hpath with hkept | ⟨hok, htext⟩
      · exact .inl (by rw [hkept, hdue.missing, hdue'.missing])
      · exact .inr ⟨p, hdue', by rw [← hresult, hok], htext, hwritten⟩
    · rw [hother j hj hj']
      exact (h.path j hj).imp_right fun ⟨p', hdue, hok, htext, hsame⟩ =>
        ⟨p', hdue, hok, htext, hkeep p' hsame⟩
  · by_cases hp : path = .text p
    · exact .inr ⟨k, hk, p, hp, hdue', hp ▸ hwritten⟩
    · exact (h.files path).imp (fun hsame => hsame.trans (hapart path hp))
        fun ⟨j, hj, p', hp', hdue, hsame⟩ => ⟨j, hj, p', hp', hdue, hsame.trans (hapart path hp)⟩

theorem Progress.slot (hr : Registered c ids w) (hsep : w.files.Separate)
    (h : Progress c ids w u) {i : Nat} (hi : ids[i]? = some k) {report report' : BuildReport}
    (hslot : (syncSlot c (0 + i) k report).exec u = (.ok report', v)) : Progress c ids w v := by
  have hk := List.mem_of_getElem? hi
  have hsize := hr.listed k hk
  obtain ⟨hunderway, hframe, hfiles, hpath⟩ := h.toUnderway.slot hr hi hslot
  have hother : ∀ j < w.localizations.size, j ≠ k →
      (v.localization j).stringFile = (u.localization j).stringFile := fun j hj hne => by
    rw [hframe.untouched j (Nat.lt_of_lt_of_le hj h.frame.size) (by simpa using hne)]
  rcases settlement_cases c k u with ⟨hkept, hsame⟩ | ⟨p, hdue, hwrite, hrecorded⟩
  · refine h.unmoved hunderway (fun j hj => ?_) (hfiles.trans hsame)
    by_cases hj' : j = k
    · rw [hj', hpath, hkept]
    · exact hother j hj hj'
  · exact h.written hsep hunderway hk hsize hdue (hfiles.trans hwrite) hother (by rwa [hpath])

theorem progress_of_run (hr : Registered c ids w) (hsep : w.files.Separate) {report : BuildReport}
    {w' : World} (h : (syncSlots c {} 0 ids).exec w = (.ok report, w')) {i : Nat}
    (hi : i ≤ ids.length) : Progress c ids w (worldAt c {} 0 ids w i) :=
  invariant_worldAt (.refl c ids w) (fun hget hu hslot => hu.slot hr hsep hget hslot) h hi

/-! ## Languages in their turn -/

structure Resolution.Agree (r r' : Resolution) : Prop where
  rows : r'.rows = r.rows
  path : r'.path = r.path
  file : SameFile r.path r.files r'.files

structure Settlement.Agree (s s' : Settlement) : Prop where
  outcome : s'.outcome = s.outcome
  path : s'.path = s.path
  file : SameFile s.path s.files s'.files

theorem Progress.spared (h : Progress c ids w u) {path : Value} (hspared : Spared c ids w path) :
    SameFile path w.files u.files := by
  rcases h.files path with hsame | ⟨j, hj, p, hp, hdue, hsame⟩
  · exact hsame
  · exact (hspared j hj p hdue hp).trans hsame

theorem spared_null (c : Context) (ids : List LocalizationId) (w : World) : Spared c ids w .null :=
  fun _ _ _ _ hp => by cases hp

/-- A path is on record as it was, unless a table has been generated for it. -/
theorem Progress.stringFile_eq (h : Progress c ids w u) (hk : k < w.localizations.size)
    (hnone : ∀ p, DueAt c w k p → (writeTable c w.files p).1 ≠ .ok ()) :
    (u.localization k).stringFile = (w.localization k).stringFile := by
  rcases h.path k hk with hpath | ⟨p, hdue, hok, -⟩
  · exact hpath
  · exact absurd hok (hnone p hdue)

/-- A table is found in its turn as it would be found at the beginning. -/
theorem Progress.resolve (hsep : w.files.Separate) (h : Progress c ids w u)
    (hk : k < w.localizations.size) (hspared : Spared c ids w (w.localization k).stringFile) :
    let code := (w.localization k).localeCode
    (resolve c w.files code (w.localization k).stringFile).Agree
      (resolve c u.files code (u.localization k).stringFile) := by
  intro code
  have hnull : SameFile .null w.files u.files := h.spared (spared_null c ids w)
  have htarget : ∀ code, target c u.files code = target c w.files code := target_of_later h.later
  rcases resolve_cases c w.files code (w.localization k).stringFile with
    ⟨hw, hr⟩ | ⟨hw, e, hnone, hr⟩ | ⟨hw, p, e, hp, hwrite, hr⟩ | ⟨hw, p, hp, hwrite, hr⟩
  · have hu := h.stringFile_eq hk fun p hdue => absurd hdue.missing hw
    have hsame := h.spared hspared
    rw [hr, hu, resolve_of_ne_null hw]
    exact ⟨rowsAt_of_sameFile _ hsame, rfl, hsame⟩
  · have hu := h.stringFile_eq hk fun p hdue => by
      rw [hdue.target] at hnone
      cases hnone
    rw [hr, hu, hw, resolve_of_noTarget ((htarget code).trans hnone)]
    exact ⟨rfl, rfl, hnull⟩
  · have hu := h.stringFile_eq hk fun p' hdue hok => by
      rw [hdue.target] at hp
      rw [← Except.ok.inj hp, hok] at hwrite
      cases hwrite
    have hwrite' := (writeTable_of_written hsep (h.table p)).1.trans hwrite
    rw [hr, hu, hw, resolve_of_refused ((htarget code).trans hp) hwrite']
    have hapart :=
      hsep.apart .refl p (StringTable.encode c.entries) c.config.encoding .null (by simp)
    exact ⟨rfl, rfl, hapart.symm.trans (hnull.trans (hsep.apart h.later p _ _ .null (by simp)))⟩
  · obtain ⟨hresult, hwritten⟩ := writeTable_of_written hsep (h.table p)
    rw [hr]
    rcases h.path k hk with hu | ⟨p', hdue, -, hu, hsame⟩
    · rw [hu, hw, resolve_of_written ((htarget code).trans hp) (hresult.trans hwrite)]
      exact ⟨rowsAt_of_sameFile _ hwritten, rfl, hwritten⟩
    · rw [hdue.target] at hp
      obtain rfl := Except.ok.inj hp
      rw [hu, resolve_of_ne_null (by simp)]
      exact ⟨rowsAt_of_sameFile _ hsame, rfl, hsame⟩

/-- A localization comes to the same in its turn as it would come to at the beginning. -/
theorem Progress.settlement (hsep : w.files.Separate) (h : Progress c ids w u)
    (hk : k < w.localizations.size) (hspared : Spared c ids w (w.localization k).stringFile) :
    (settlementOf c k w).Agree (settlementOf c k u) := by
  rw [settlementOf, settlementOf, h.frame.localeCode k hk]
  cases htable : hasTable c (w.localization k).localeCode with
  | false =>
      have hpath := h.stringFile_eq hk fun p hdue => by
        rw [hdue.table] at htable
        cases htable
      rw [settle_of_hasTable_eq_false htable, settle_of_hasTable_eq_false htable]
      exact ⟨rfl, hpath, h.spared hspared⟩
  | true =>
      obtain ⟨hrows, hpath, hfile⟩ := h.resolve hsep hk hspared
      rw [settle_of_hasTable htable, settle_of_hasTable htable]
      exact ⟨by rw [hrows], hpath, hfile⟩

end Run

/-! ## At the end of a run -/

def settled (l : Localization) (o : Outcome) (path : Value) : Localization :=
  match o with
  | .rebuilt rows => { l with
      stringFile := path, texts := Table.ofEntries (textsOf rows), runtime := [], listeners := [] }
  | _ => { l with stringFile := path }

@[simp] theorem stringFile_settled (l : Localization) (o : Outcome) (path : Value) :
    (settled l o path).stringFile = path := by
  cases o <;> rfl

/-- What has been settled is not changed when the same is settled again. -/
theorem settled_settled (l : Localization) (o : Outcome) (path : Value) :
    settled (settled l o path) o path = settled l o path := by
  cases o <;> rfl

theorem settled_alike {l l' : Localization} (h : l.Alike l') (o : Outcome) (path : Value) :
    (settled l o path).Alike (settled l' o path) := by
  cases o with
  | rebuilt rows => exact ⟨h.localeCode, rfl, h.containsAssets, h.addressableAssets, rfl, h.assets⟩
  | loaded | skipped _ =>
      exact ⟨h.localeCode, rfl, h.containsAssets, h.addressableAssets, h.texts, h.assets⟩

section End

variable {c : Context} {ids : List LocalizationId} {w w' : World} {i : Nat} {k : LocalizationId}
  {o : Outcome} {report : BuildReport}

/-- What is settled for a table that is due and is taken. -/
theorem settlementOf_of_dueAt {p : String} (hdue : DueAt c w k p)
    (hwrite : (writeTable c w.files p).1 = .ok ()) :
    (settlementOf c k w).path = .text p ∧
      (settlementOf c k w).files = (writeTable c w.files p).2 := by
  rw [settlementOf, settle_of_hasTable hdue.table, hdue.missing,
    resolve_of_written hdue.target hwrite]
  exact ⟨rfl, rfl⟩

/-- The localization that stands in a slot at the end of a run. -/
theorem final_of_passage (hr : Registered c ids w) (hi : ids[i]? = some k)
    (hother : k ≠ c.base)
    (h : Passage c 0 ids w w' i k o (worldAt c {} 0 ids w i) (worldAt c {} 0 ids w (i + 1))) :
    ∃ k', (w'.project c.projectId).localizations[i]? = some k' ∧
      w'.localization k' = settled (w.localization k) o (w'.localization k).stringFile := by
  obtain ⟨hbefore, hstep, hafter⟩ := h
  cases o with
  | loaded =>
      cases hstep with
      | loaded isBase => exact absurd isBase hother
  | skipped message =>
      have hskipped := skipped_of_passage hr hi ⟨hbefore, hstep, hafter⟩
      exact ⟨k, hskipped.slot, hskipped.old.rest⟩
  | rebuilt rows =>
      generalize hv : worldAt c {} 0 ids w (i + 1) = v at hstep hafter
      cases hstep with
      | @rebuilt _ u' code foreign recorded load =>
          have hpassage : Passage c 0 ids w w' i k (.rebuilt rows) (worldAt c {} 0 ids w i)
              (replaced c (0 + i) (rebuilt (u'.localization k) rows) u') :=
            ⟨hbefore, .rebuilt code foreign recorded load, hafter⟩
          obtain ⟨hold, hfresh⟩ := renewed_of_passage hr hi hpassage recorded load
          refine ⟨_, slot_of_passage hr hi hpassage recorded, ?_⟩
          have hkept := ((recorded_before hr hi hpassage).trans recorded.self).rest
          rw [hfresh, hold]
          rw [hkept]
          rfl

section Run

variable (hr : Registered c ids w) (hrun : (syncSlots c {} 0 ids).exec w = (.ok report, w'))
  (hi : ids[i]? = some k)

include hr hrun hi

theorem exists_passage : ∃ o,
    Passage c 0 ids w w' i k o (worldAt c {} 0 ids w i) (worldAt c {} 0 ids w (i + 1)) := by
  obtain ⟨-, outcomes, hlength, -, hpassages⟩ := syncSlots_eq_ok hr.listed hr.project hrun
  obtain ⟨hlt, -⟩ := List.getElem?_eq_some_iff.mp hi
  exact ⟨_, hpassages i k _ hi (List.getElem?_eq_getElem (by rwa [hlength]))⟩

/-- A slot of the list comes to the outcome that is settled when it is its turn. -/
theorem passage_of_turn (hother : k ≠ c.base) :
    ∃ o, (settlementOf c k (worldAt c {} 0 ids w i)).outcome = .ok o ∧
      Passage c 0 ids w w' i k o (worldAt c {} 0 ids w i) (worldAt c {} 0 ids w (i + 1)) := by
  obtain ⟨_, hpassage⟩ := exists_passage hr hrun hi
  obtain ⟨r, r', hslot⟩ := exec_slot_of_run hrun hi
  obtain ⟨v, hslot', -, -, hsynced⟩ :=
    settles_of_other (w := worldAt c {} 0 ids w i) (0 + i) r hother
  rw [hslot] at hslot'
  obtain ⟨hresult, rfl⟩ := Prod.mk.inj hslot'
  cases houtcome : (settlementOf c k (worldAt c {} 0 ids w i)).outcome with
  | error e =>
      rw [houtcome] at hresult
      cases hresult
  | ok o => exact ⟨o, rfl, hpassage.before, hsynced o houtcome, hpassage.after⟩

/-- The path that is settled when it is its turn is on record after it. -/
theorem path_of_turn : ((worldAt c {} 0 ids w (i + 1)).localization k).stringFile =
    (settlementOf c k (worldAt c {} 0 ids w i)).path := by
  obtain ⟨o, hpassage⟩ := exists_passage hr hrun hi
  obtain ⟨r, r', hslot⟩ := exec_slot_of_run hrun hi
  have hbase : k = c.base → ((worldAt c {} 0 ids w i).localization k).localeCode.same
      c.project.baseLanguage = true := fun hbase => by
    rw [code_before hr hi hpassage hbase]
    exact hr.language
  exact (effect_of_slot hbase hslot).2

variable (hsep : w.files.Separate) (hspared : Spared c ids w (w.localization k).stringFile)

include hsep hspared

theorem agree_of_run : (settlementOf c k w).Agree (settlementOf c k (worldAt c {} 0 ids w i)) := by
  obtain ⟨hlt, -⟩ := List.getElem?_eq_some_iff.mp hi
  exact (progress_of_run hr hsep hrun (Nat.le_of_lt hlt)).settlement hsep
    (hr.listed k (List.mem_of_getElem? hi)) hspared

/-- A slot of the list comes to the outcome that is settled at the beginning. -/
theorem passage_of_run (hother : k ≠ c.base) :
    ∃ o, (settlementOf c k w).outcome = .ok o ∧
      Passage c 0 ids w w' i k o (worldAt c {} 0 ids w i) (worldAt c {} 0 ids w (i + 1)) := by
  rw [← (agree_of_run hr hrun hi hsep hspared).outcome]
  exact passage_of_turn hr hrun hi hother

/-- The path that is settled for a localization at the beginning is on record at the end. -/
theorem path_of_run : (w'.localization k).stringFile = (settlementOf c k w).path := by
  have hk := hr.listed k (List.mem_of_getElem? hi)
  obtain ⟨o, hpassage⟩ := exists_passage hr hrun hi
  have hafter := recorded_after hr hi hpassage
  have hturn : ((worldAt c {} 0 ids w (i + 1)).localization k).stringFile =
      (settlementOf c k w).path := by
    rw [path_of_turn hr hrun hi, (agree_of_run hr hrun hi hsep hspared).path]
  by_cases hnull : (settlementOf c k w).path = .null
  -- No slot can have recorded a path, for it would have been settled.
  case pos =>
    have hend := progress_of_run hr hsep hrun (Nat.le_refl _)
    rw [worldAt_length hrun] at hend
    rcases hend.path k hk with hpath | ⟨p, hdue, hwrite, -⟩
    · rcases settlement_cases c k w with ⟨hkept, -⟩ | ⟨p, hdue, -⟩
      · rw [hpath, hkept]
      · rw [hpath, hdue.missing, hnull]
    · rw [(settlementOf_of_dueAt hdue hwrite).1] at hnull
      cases hnull
  case neg =>
    rw [hafter.stringFile (by rwa [hturn]), hturn]

/-- The file that is settled for a localization at the beginning is there at the end. -/
theorem file_of_run :
    SameFile (settlementOf c k w).path (settlementOf c k w).files w'.files := by
  have hk := hr.listed k (List.mem_of_getElem? hi)
  have hend := progress_of_run hr hsep hrun (Nat.le_refl _)
  rw [worldAt_length hrun] at hend
  rcases settlement_cases c k w with ⟨hpath, hfiles⟩ | ⟨p, hdue, hfiles, hpath⟩
  · rw [hpath, hfiles]
    exact hend.spared hspared
  · rw [hfiles]
    rcases hpath with hpath | ⟨hwrite, hpath⟩
    · rw [hpath, hdue.missing]
      have hapart := hsep.apart .refl p (StringTable.encode c.entries) c.config.encoding .null
        (by simp)
      exact hapart.symm.trans (hend.spared (spared_null c ids w))
    · have hfinal := path_of_run hr hrun hi hsep hspared
      rw [hpath] at hfinal ⊢
      rcases hend.path k hk with hkept | ⟨p', hdue', -, htext, hsame⟩
      · rw [hkept, hdue.missing] at hfinal
        cases hfinal
      · rw [hfinal] at htext
        cases htext
        exact hsame

end Run

end End

end Dialogue.Build
