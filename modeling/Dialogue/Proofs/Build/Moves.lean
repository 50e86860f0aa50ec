import Dialogue.Proofs.Build.Progress
import Dialogue.Proofs.Files.Repeats
import Dialogue.Proofs.Project.Equality

/-! A table that has been written once may be written again, and a path that is on record is found.
What the slot of one localization does to the world around it follows, whether the build goes on or
not. -/

namespace Dialogue.Build

open FileSystem (Holds Bars Spread Repeats)

/-! ## Paths on record -/

section Paths

variable (c : Context) (fs : FileSystem) (code path path' : Value)

/-- A path that no slot will change: it is on record, or no table is ever written for it. -/
def Stays : Prop :=
  path = .null → hasTable c code = true → ∀ p, target c fs code = .ok p →
    fs.Bars p (StringTable.encode c.entries) c.config.encoding

/-- The paths of a language in two builds: the same, or one on record and none, where the table has
been written already. -/
def Ahead : Prop :=
  path' = path ∨ path' = .null ∧ hasTable c code = true ∧ ∃ p, path = .text p ∧
    target c fs code = .ok p ∧ fs.Holds p (StringTable.encode c.entries) c.config.encoding

variable {c fs code path path'} {fs' : FileSystem}

theorem target_of_spread (h : fs.Spread (StringTable.encode c.entries) c.config.encoding fs')
    (code : Value) : target c fs' code = target c fs code :=
  target_of_later h.later code

theorem Stays.spread (h : Stays c fs code path)
    (hspread : fs.Spread (StringTable.encode c.entries) c.config.encoding fs') :
    Stays c fs' code path := by
  intro hnull htable p htarget
  rw [target_of_spread hspread] at htarget
  exact Bars.spread (h hnull htable p htarget) hspread

theorem Ahead.spread (h : Ahead c fs code path path')
    (hspread : fs.Spread (StringTable.encode c.entries) c.config.encoding fs') :
    Ahead c fs' code path path' := by
  rcases h with hsame | ⟨hnull, htable, p, hpath, htarget, hholds⟩
  · exact .inl hsame
  · exact .inr ⟨hnull, htable, p, hpath, by rw [target_of_spread hspread, htarget],
      hholds.spread hspread⟩

theorem spread_writeTable (c : Context) (fs : FileSystem) (p : String) :
    fs.Spread (StringTable.encode c.entries) c.config.encoding (writeTable c fs p).2 :=
  Spread.step fs p _ _

theorem spread_settle (c : Context) (fs : FileSystem) (code path : Value) :
    fs.Spread (StringTable.encode c.entries) c.config.encoding (settle c fs code path).files := by
  cases htable : hasTable c code with
  | false =>
      rw [settle_of_hasTable_eq_false htable]
      exact .refl
  | true =>
      rw [settle_of_hasTable htable]
      rcases resolve_cases c fs code path with ⟨-, hr⟩ | ⟨-, _, -, hr⟩ | ⟨-, p, _, -, -, hr⟩ |
        ⟨-, p, -, -, hr⟩
      all_goals rw [hr]
      · exact .refl
      · exact .refl
      · exact spread_writeTable c fs p
      · exact spread_writeTable c fs p

/-- A table that has been written already is written again without a difference, and then found at
the path that is on record. -/
theorem settle_of_ahead (h : Ahead c fs code path path') :
    settle c fs code path' = settle c fs code path := by
  rcases h with rfl | ⟨rfl, htable, p, rfl, htarget, hholds⟩
  · rfl
  · have hwrite : writeTable c fs p = (.ok (), fs) := hholds .refl
    have hrecorded : resolve c fs code (.text p) = ⟨rowsAt c.config fs (.text p), .text p, fs⟩ :=
      resolve_of_ne_null (by simp)
    have hagain : resolve c fs code .null = ⟨rowsAt c.config fs (.text p), .text p, fs⟩ := by
      rw [resolve_of_written htarget (by rw [hwrite]), hwrite]
    rw [settle_of_hasTable htable, settle_of_hasTable htable, hrecorded, hagain]

theorem isOptionalText_settle (hpath : path.IsOptionalText) :
    (settle c fs code path).path.IsOptionalText := by
  cases htable : hasTable c code with
  | false =>
      rw [settle_of_hasTable_eq_false htable]
      exact hpath
  | true =>
      rw [settle_of_hasTable htable]
      rcases resolve_cases c fs code path with ⟨-, hr⟩ | ⟨-, _, -, hr⟩ | ⟨-, _, _, -, -, hr⟩ |
        ⟨-, p, -, -, hr⟩
      all_goals rw [hr]
      · exact hpath
      · exact .inl rfl
      · exact .inl rfl
      · exact .inr ⟨p, rfl⟩

theorem Stays.path_settle (h : Stays c fs code path) : (settle c fs code path).path = path := by
  cases htable : hasTable c code with
  | false => rw [settle_of_hasTable_eq_false htable]
  | true =>
      rw [settle_of_hasTable htable]
      rcases resolve_cases c fs code path with ⟨-, hr⟩ | ⟨hnull, _, -, hr⟩ |
        ⟨hnull, _, _, -, -, hr⟩ | ⟨hnull, p, htarget, hwrite, hr⟩
      all_goals rw [hr]
      · exact hnull.symm
      · exact hnull.symm
      · obtain ⟨e, he⟩ := h hnull htable p htarget .refl
        rw [writeTable, he] at hwrite
        cases hwrite

section Repeats

variable (hrepeats : fs.Repeats (StringTable.encode c.entries) c.config.encoding)

include hrepeats

theorem stays_settle (code path : Value) :
    Stays c (settle c fs code path).files code (settle c fs code path).path := by
  intro hnull htable p htarget
  rw [target_of_spread (spread_settle c fs code path)] at htarget
  rw [settle_of_hasTable htable] at hnull ⊢
  rcases resolve_cases c fs code path with ⟨hpath, hr⟩ | ⟨-, e, he, hr⟩ |
    ⟨-, q, e, hq, hwrite, hr⟩ | ⟨-, q, -, -, hr⟩
  · rw [hr] at hnull
    exact absurd hnull hpath
  · rw [he] at htarget
    cases htarget
  · rw [hq] at htarget
    cases htarget
    rw [hr]
    exact hrepeats.bars .refl p e hwrite
  · rw [hr] at hnull
    cases hnull

/-- What a slot records of a localization that is listed again is ahead of a later slot. -/
theorem Ahead.settle (h : Ahead c fs code path path') :
    Ahead c (settle c fs code path).files code (settle c fs code path).path path' := by
  cases htable : hasTable c code with
  | false =>
      rw [settle_of_hasTable_eq_false htable]
      exact h
  | true =>
      have hspread := h.spread (spread_settle c fs code path)
      rw [settle_of_hasTable htable] at hspread ⊢
      rcases resolve_cases c fs code path with ⟨-, hr⟩ | ⟨hnull, e, -, hr⟩ |
        ⟨hnull, p, e, -, -, hr⟩ | ⟨hnull, p, htarget, hwrite, hr⟩
      all_goals rw [hr] at hspread ⊢
      · exact hspread
      · exact hnull ▸ hspread
      · exact hnull ▸ hspread
      · -- The path was not on record in either of the two.
        have hnull' : path' = .null := by
          rcases h with hsame | ⟨hnull', -⟩
          · rw [hsame, hnull]
          · exact hnull'
        have htarget' : target c (writeTable c fs p).2 code = .ok p := by
          rw [target_of_spread (spread_writeTable c fs p), htarget]
        exact .inr ⟨hnull', htable, p, rfl, htarget', hrepeats.holds .refl p hwrite⟩

end Repeats

end Paths

/-! ## The slot of one build -/

def leftIn (s : Settlement) (l : Localization) : Localization :=
  match s.outcome with
  | .ok o => settled l o s.path
  | .error _ => { l with stringFile := s.path }

/-- The base with the texts of the compiler, if it has a language at all. -/
def filled (c : Context) (l : Localization) : Localization :=
  if c.project.baseLanguage.truthy then { l with texts := Table.ofEntries (textsOf c.entries) }
  else l

/-- What the slot of a localization other than the base does: `fresh` stands in the slot then. -/
structure Moved (c : Context) (slot : Nat) (k fresh : LocalizationId) (u v : World) : Prop where
  projects : v.projects.size = u.projects.size
  project : v.project c.projectId = { u.project c.projectId with
    localizations := (u.project c.projectId).localizations.set slot fresh }
  files : v.files = (settlementOf c k u).files
  size : u.localizations.size ≤ v.localizations.size
  other : ∀ j < u.localizations.size, j ≠ k → v.localization j = u.localization j
  self : v.localization k = { u.localization k with stringFile := (settlementOf c k u).path }
  place : fresh = k ∨ fresh = u.localizations.size
  listed : fresh < v.localizations.size
  result : (leftIn (settlementOf c k u) (u.localization k)).SameDocument (v.localization fresh)

structure Filled (c : Context) (u v : World) : Prop where
  projects : v.projects = u.projects
  files : v.files = u.files
  size : v.localizations.size = u.localizations.size
  other : ∀ j, j ≠ c.base → v.localization j = u.localization j
  base : (filled c (u.localization c.base)).SameDocument (v.localization c.base)
  listeners : (v.localization c.base).listeners ⊆ (u.localization c.base).listeners

section Slot

variable {c : Context} {slot : Nat} {k : LocalizationId} {u v : World}

theorem sameDocument_rebuilt (l : Localization) (rows : List StringTable.Entry) (path : Value) :
    (settled l (.rebuilt rows) path).SameDocument (rebuilt { l with stringFile := path } rows) := by
  rw [rebuilt, Localization.foldl_storeText, Localization.renewed, Localization.addObjects_eq]
  exact ⟨rfl, rfl, rfl, rfl, .refl _⟩

/-- A language that does not end in an outcome leaves no more than a path. -/
theorem recorded_of_error {report : BuildReport} {e : Fault} (hother : k ≠ c.base)
    (h : (syncSlot c slot k report).exec u = (.error e, v)) : u.Recorded k v := by
  cases hcode : (u.localization k).localeCode.truthy with
  | false =>
      rw [exec_syncSlot_of_noCode c slot k report hcode] at h
      cases h
  | true =>
      cases hsame : (u.localization k).localeCode.same c.project.baseLanguage with
      | true =>
          rw [exec_syncSlot_of_duplicate c slot k report hcode hsame hother] at h
          cases h
      | false =>
          rw [exec_syncSlot_of_foreign c slot k report hcode hsame] at h
          rcases hload : (loadTable c.config c.project k c.entries).exec (announced k u)
            with ⟨fault | rows, w⟩
          · obtain ⟨hrecorded, -⟩ := loadTable_spec c.config c.project c.entries
              (w := announced k u) (lt_size_of_truthy hcode) hload
            rw [hload] at h
            dsimp only at h
            split at h
            · cases h
            · cases h
              exact (recorded_announced k u).trans hrecorded
          · rw [hload] at h
            cases h

/-- A localization that is not rebuilt stays in its slot. -/
theorem moved_of_recorded (hslot : (u.project c.projectId).localizations[slot]? = some k)
    (hk : k < u.localizations.size) (hrecorded : u.Recorded k v)
    (hfiles : v.files = (settlementOf c k u).files)
    (hpath : (v.localization k).stringFile = (settlementOf c k u).path)
    (hleft : leftIn (settlementOf c k u) (u.localization k) =
      { u.localization k with stringFile := (settlementOf c k u).path }) :
    Moved c slot k k u v := by
  have hself : v.localization k = { u.localization k with
      stringFile := (settlementOf c k u).path } := by
    rw [hrecorded.self.rest, hpath]
  constructor
  case projects => rw [hrecorded.projects]
  case project =>
    obtain ⟨hlt, hget⟩ := List.getElem?_eq_some_iff.mp hslot
    have hset : (u.project c.projectId).localizations.set slot k =
        (u.project c.projectId).localizations := by
      conv => left; rw [← hget]
      exact List.set_getElem_self hlt
    rw [hset, World.project, hrecorded.projects, World.project]
  case files => exact hfiles
  case size => rw [hrecorded.size]
  case other => exact fun j _ hj => hrecorded.other j hj
  case self => exact hself
  case place => exact .inl rfl
  case listed => rwa [hrecorded.size]
  case result =>
    rw [hleft, hself]
    exact .refl _

theorem moved_of_rebuilt {rows : List StringTable.Entry} {w : World}
    (hp : c.projectId < u.projects.size) (hk : k < u.localizations.size)
      (hrecorded : u.Recorded k w)
    (hfiles : w.files = (settlementOf c k u).files)
    (hpath : (w.localization k).stringFile = (settlementOf c k u).path)
    (houtcome : (settlementOf c k u).outcome = .ok (.rebuilt rows)) :
    Moved c slot k w.localizations.size u
      (replaced c slot (rebuilt (w.localization k) rows) w) := by
  have hself : w.localization k = { u.localization k with
      stringFile := (settlementOf c k u).path } := by
    rw [hrecorded.self.rest, hpath]
  have hsize := hrecorded.size
  constructor
  case projects => rw [size_projects_replaced, hrecorded.projects]
  case project =>
    have hproject : w.project c.projectId = u.project c.projectId := by
      rw [World.project, hrecorded.projects, World.project]
    rw [project_replaced c slot _ (by rwa [hrecorded.projects]), hproject]
  case files => exact hfiles
  case size =>
    rw [size_replaced, hsize]
    exact Nat.le_succ _
  case other =>
    intro j hj hne
    rw [localization_replaced_of_lt c slot _ (by rwa [hsize]), hrecorded.other j hne]
  case self => rw [localization_replaced_of_lt c slot _ (by rwa [hsize]), hself]
  case place => exact .inr hsize
  case listed =>
    rw [size_replaced]
    exact Nat.lt_succ_self _
  case result =>
    rw [localization_replaced_new, leftIn, houtcome, hself]
    exact sameDocument_rebuilt _ rows _

/-- What is done in the slot of a localization other than the base, whether the build goes on or
not. -/
theorem exec_syncSlot_moved (report : BuildReport)
    (hslot : (u.project c.projectId).localizations[slot]? = some k)
    (hp : c.projectId < u.projects.size) (hk : k < u.localizations.size) (hother : k ≠ c.base) :
    ∃ v fresh, (syncSlot c slot k report).exec u =
        ((settlementOf c k u).outcome.map fun o => o.note (u.localization k).localeCode report, v) ∧
      Moved c slot k fresh u v := by
  obtain ⟨v, hexec, hfiles, hpath, hsynced⟩ := settles_of_other slot report hother
  cases houtcome : (settlementOf c k u).outcome with
  | error e =>
      have hrecorded := recorded_of_error (e := e) (v := v) hother (by rw [hexec, houtcome]; rfl)
      refine ⟨v, k, by rw [hexec, houtcome], moved_of_recorded hslot hk hrecorded hfiles hpath ?_⟩
      rw [leftIn, houtcome]
  | ok o =>
      cases hsynced o houtcome with
      | skipped reason kept =>
          refine ⟨v, k, by rw [hexec, houtcome], moved_of_recorded hslot hk kept hfiles hpath ?_⟩
          simp only [leftIn, houtcome, settled]
      | loaded isBase => exact absurd isBase hother
      | @rebuilt rows w _ _ recorded _ =>
          have hkw : k < w.localizations.size := by rwa [recorded.size]
          rw [localization_replaced_of_lt c slot _ hkw] at hpath
          exact ⟨_, _, by rw [hexec, houtcome],
            moved_of_rebuilt hp hk recorded hfiles hpath houtcome⟩

/-- What is done in the slot of a base without a listener that fails. -/
theorem exec_syncSlot_filled (slot : Nat) (report : BuildReport)
    (hcode : (u.localization c.base).localeCode = c.project.baseLanguage)
    (hlanguage : c.project.baseLanguage.same c.project.baseLanguage = true)
    (hquiet : ∀ l ∈ (u.localization c.base).listeners, l.reaction ≠ .fail) :
    ∃ v, (syncSlot c slot c.base report).exec u =
        (.ok (if c.project.baseLanguage.truthy then report
          else report.skip c.project.baseLanguage (noCodeMessage c.project)), v) ∧
      Filled c u v := by
  cases htruthy : c.project.baseLanguage.truthy with
  | false =>
      rw [exec_syncSlot_of_noCode c slot c.base report (by rw [hcode, htruthy]), hcode]
      refine ⟨_, rfl, rfl, rfl, rfl, fun _ _ => rfl, ?_, fun _ h => h⟩
      rw [filled, htruthy]
      exact .refl _
  | true =>
      have htruthy' : (u.localization c.base).localeCode.truthy = true := by rw [hcode, htruthy]
      have hsame : (u.localization c.base).localeCode.same c.project.baseLanguage = true := by
        rw [hcode, hlanguage]
      have hends := (endsIn_syncSlot_of_base htruthy' hsame rfl slot report).mono (fun _ h => h)
        (Q := fun _ => False) fun e ⟨_, l, hl, hfail, _⟩ => hquiet l hl hfail
      obtain ⟨report', v, hexec, hleft⟩ := hends.returns
      have hslot := hexec
      rw [exec_syncSlot_of_base c slot c.base report htruthy' hsame rfl] at hslot
      obtain ⟨rfl, hpersisted, -⟩ :=
        loadBase_eq_ok (w := announced c.base u) (lt_size_of_truthy htruthy') hslot
      refine ⟨v, hexec, hpersisted.projects, hpersisted.files, hleft.size, fun j hj => ?_, ?_,
        hleft.listeners⟩
      · rw [hpersisted.other j hj]
        exact World.localization_setLocalization_of_ne _ hj _
      · rw [hpersisted.self, World.localization_setLocalization_self (announced c.base u)
          (lt_size_of_truthy htruthy'), filled, htruthy]
        exact ⟨rfl, rfl, rfl, rfl, .refl _⟩

end Slot

end Dialogue.Build
