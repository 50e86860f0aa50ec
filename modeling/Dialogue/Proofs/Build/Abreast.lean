import Dialogue.Proofs.Build.Moves
import Dialogue.Proofs.Build.Publish

/-! Two projects with the same languages are brought up to date slot by slot. In the first of them a
localization may be listed more than once, so that the path of its table is on record in a later
slot, where the second generates the table again. Both come to the same in every slot, and leave the
same files. -/

namespace Dialogue.Build

open FileSystem (Repeats Spread)

/-! ## Projects under way -/

/-- A project with a certain list whose languages are being brought up to date. -/
structure Standing (c : Context) (ids : List LocalizationId) (u : World) : Prop where
  project : c.projectId < u.projects.size
  isBase : (u.project c.projectId).base = some c.base
  list : (u.project c.projectId).localizations = ids
  listed : ∀ k ∈ c.base :: ids, k < u.localizations.size
  code : (u.localization c.base).localeCode = c.project.baseLanguage
  quiet : ∀ l ∈ (u.localization c.base).listeners, l.reaction ≠ .fail

section Standing

variable {c : Context} {ids done rest : List LocalizationId} {k fresh : LocalizationId}
  {u v : World}

theorem Standing.moved (h : Standing c (done ++ k :: rest) u) (hother : k ≠ c.base)
    (hm : Moved c done.length k fresh u v) : Standing c (done ++ fresh :: rest) v := by
  have hbase : v.localization c.base = u.localization c.base :=
    hm.other c.base (h.listed c.base (by simp)) (Ne.symm hother)
  constructor
  case project => rw [hm.projects]; exact h.project
  case isBase => rw [hm.project]; exact h.isBase
  case list => simp [hm.project, h.list]
  case listed =>
    intro j hj
    by_cases hfresh : j = fresh
    · rw [hfresh]
      exact hm.listed
    · refine Nat.lt_of_lt_of_le (h.listed j ?_) hm.size
      simp only [List.mem_cons, List.mem_append, hfresh, false_or] at hj ⊢
      tauto
  case code => rw [hbase]; exact h.code
  case quiet => rw [hbase]; exact h.quiet

theorem Moved.fresh_ne {slot : Nat} {j : LocalizationId} (hm : Moved c slot k fresh u v)
    (hj : j < u.localizations.size) (hne : j ≠ k) : j ≠ fresh := by
  rcases hm.place with hfresh | hfresh
  · rwa [hfresh]
  · rw [hfresh]
    exact Nat.ne_of_lt hj

theorem Standing.listed_of_mem {j : LocalizationId} (h : Standing c (done ++ k :: rest) u)
    (hj : j ∈ done ++ rest) : j < u.localizations.size := by
  refine h.listed j ?_
  simp only [List.mem_cons, List.mem_append] at hj ⊢
  tauto

/-- What stands in the other slots is left alone where no localization is listed twice. -/
theorem Standing.kept {j : LocalizationId} (h : Standing c (done ++ k :: rest) u)
    (hm : Moved c done.length k fresh u v) (hnodup : (done ++ k :: rest).Nodup)
    (hj : j ∈ done ++ rest) : v.localization j = u.localization j := by
  obtain ⟨hnew, -⟩ := List.nodup_cons.mp (List.nodup_middle.mp hnodup)
  exact hm.other j (h.listed_of_mem hj) fun heq => hnew (heq ▸ hj)

theorem Standing.nodup_moved (h : Standing c (done ++ k :: rest) u)
    (hm : Moved c done.length k fresh u v) (hnodup : (done ++ k :: rest).Nodup) :
    (done ++ fresh :: rest).Nodup := by
  obtain ⟨hnew, hrest⟩ := List.nodup_cons.mp (List.nodup_middle.mp hnodup)
  have hfresh : fresh ∉ done ++ rest := fun hmem =>
    hm.fresh_ne (h.listed_of_mem hmem) (fun heq => hnew (heq ▸ hmem)) rfl
  exact List.nodup_middle.mpr (List.nodup_cons.mpr ⟨hfresh, hrest⟩)

theorem localeCode_filled (c : Context) (l : Localization) :
    (filled c l).localeCode = l.localeCode := by
  rw [filled]
  split <;> rfl

theorem Standing.filled (h : Standing c ids u) (hf : Filled c u v) : Standing c ids v := by
  have hproject : v.project c.projectId = u.project c.projectId := by
    rw [World.project, hf.projects, World.project]
  constructor
  case project => rw [hf.projects]; exact h.project
  case isBase => rw [hproject]; exact h.isBase
  case list => rw [hproject]; exact h.list
  case listed => rw [hf.size]; exact h.listed
  case code => rw [hf.base.localeCode, localeCode_filled, h.code]
  case quiet => exact fun l hl => h.quiet l (hf.listeners hl)

end Standing

/-! ## Localizations of two projects -/

/-- A path that is on record in both builds, or in none, and will not change. -/
def Level (c : Context) (fs : FileSystem) (code path path' : Value) : Prop :=
  path' = path ∧ Stays c fs code path

/-- A relation of the paths of a language in two builds on which other slots have no bearing, nor
has another slot of the same localization in the first build. -/
structure Steady (c : Context) (R : FileSystem → Value → Value → Value → Prop) : Prop where
  spread : ∀ {fs fs' : FileSystem} {code path path' : Value},
    fs.Spread (StringTable.encode c.entries) c.config.encoding fs' →
    R fs code path path' → R fs' code path path'
  settle : ∀ {fs : FileSystem} {code path path' : Value},
    fs.Repeats (StringTable.encode c.entries) c.config.encoding → R fs code path path' →
    R (settle c fs code path).files code (settle c fs code path).path path'

theorem steady_level (c : Context) : Steady c (Level c) where
  spread hspread h := ⟨h.1, h.2.spread hspread⟩
  settle {fs code path path'} _ h := by
    rw [h.2.path_settle]
    exact ⟨h.1, h.2.spread (spread_settle c fs code path)⟩

theorem steady_ahead (c : Context) : Steady c (Ahead c) where
  spread hspread h := h.spread hspread
  settle hrepeats h := h.settle hrepeats

/-- Localizations in two builds that agree in all that is persisted but for their paths, which are
related. -/
structure Fellow (R : FileSystem → Value → Value → Value → Prop) (u u' : World)
    (k k' : LocalizationId) : Prop where
  typed : (u.localization k).WellTyped
  rest : { u.localization k with
    stringFile := (u'.localization k').stringFile : Localization }.SameDocument (u'.localization k')
  paths : R u.files (u.localization k).localeCode (u.localization k).stringFile
    (u'.localization k').stringFile

/-- The bases of two builds, or localizations that agree. -/
structure Matched (R : FileSystem → Value → Value → Value → Prop) (c c' : Context) (u u' : World)
    (k k' : LocalizationId) : Prop where
  isBase : k = c.base ↔ k' = c'.base
  fellow : k ≠ c.base → Fellow R u u' k k'

section Fellow

variable {R : FileSystem → Value → Value → Value → Prop} {c c' : Context} {slot slot' : Nat}
  {k k' j j' fresh fresh' : LocalizationId} {u u' v v' : World}

theorem Fellow.moved (hR : Steady c R)
    (hrepeats : u.files.Repeats (StringTable.encode c.entries) c.config.encoding)
    (h : Fellow R u u' j j') (hj : j < u.localizations.size) (hm : Moved c slot k fresh u v)
    (hj' : v'.localization j' = u'.localization j') : Fellow R v v' j j' := by
  by_cases hjk : j = k
  · subst hjk
    have hself := hm.self
    refine ⟨?_, ?_, ?_⟩
    · rw [hself]
      exact h.typed.withPath (isOptionalText_settle h.typed.stringFile)
    · rw [hself, hj']
      exact h.rest
    · rw [hself, hj', hm.files]
      exact hR.settle hrepeats h.paths
  · have hother := hm.other j hj hjk
    refine ⟨?_, ?_, ?_⟩
    · rw [hother]
      exact h.typed
    · rw [hother, hj']
      exact h.rest
    · rw [hother, hj', hm.files]
      exact hR.spread (spread_settle c _ _ _) h.paths

theorem Matched.moved (hR : Steady c R)
    (hrepeats : u.files.Repeats (StringTable.encode c.entries) c.config.encoding)
    (h : Matched R c c' u u' j j') (hj : j < u.localizations.size) (hm : Moved c slot k fresh u v)
    (hj' : v'.localization j' = u'.localization j') : Matched R c c' v v' j j' :=
  ⟨h.isBase, fun hother => (h.fellow hother).moved hR hrepeats hj hm hj'⟩

/-- The slot of the base has no bearing on other localizations. -/
theorem Matched.filled (h : Matched R c c' u u' j j') (hf : Filled c u v) (hf' : Filled c' u' v') :
    Matched R c c' v v' j j' := by
  refine ⟨h.isBase, fun hother => ?_⟩
  have hfellow := h.fellow hother
  have hleft := hf.other j hother
  have hright := hf'.other j' fun hbase => hother (h.isBase.mpr hbase)
  refine ⟨?_, ?_, ?_⟩
  · rw [hleft]
    exact hfellow.typed
  · rw [hleft, hright]
    exact hfellow.rest
  · rw [hleft, hright, hf.files]
    exact hfellow.paths

theorem Fellow.settlementOf (halike : c.Alike c') (hfiles : u'.files = u.files)
    (h : Fellow (Ahead c) u u' k k') : settlementOf c' k' u' = settlementOf c k u := by
  rw [Build.settlementOf, Build.settlementOf, halike.settle, hfiles, h.rest.localeCode]
  exact settle_of_ahead h.paths

theorem sameDocument_leftIn {l l' : Localization}
    (h : { l with stringFile := l'.stringFile : Localization }.SameDocument l') (s : Settlement) :
    (leftIn s l).SameDocument (leftIn s l') := by
  rw [leftIn, leftIn]
  cases s.outcome with
  | error e => exact ⟨h.localeCode, rfl, h.containsAssets, h.addressableAssets, h.texts⟩
  | ok o =>
      cases o with
      | rebuilt rows => exact ⟨h.localeCode, rfl, h.containsAssets, h.addressableAssets, .refl _⟩
      | _ => exact ⟨h.localeCode, rfl, h.containsAssets, h.addressableAssets, h.texts⟩

theorem stringFile_leftIn (s : Settlement) (l : Localization) :
    (leftIn s l).stringFile = s.path := by
  rw [leftIn]
  split
  · exact stringFile_settled _ _ _
  · rfl

theorem localeCode_leftIn (s : Settlement) (l : Localization) :
    (leftIn s l).localeCode = l.localeCode := by
  rw [leftIn]
  split
  · rename_i o _
    cases o <;> rfl
  · rfl

theorem wellTyped_textsOf (rows : List StringTable.Entry) :
    ∀ e ∈ textsOf rows, e.1 = .text e.1.name ∧ e.2.IsText := by
  intro e he
  obtain ⟨row, -, rfl⟩ := List.mem_map.mp he
  exact ⟨rfl, _, rfl⟩

theorem wellTyped_leftIn {l : Localization} (h : l.WellTyped) {s : Settlement}
    (hpath : s.path.IsOptionalText) : (leftIn s l).WellTyped := by
  rw [leftIn]
  cases s.outcome with
  | error e => exact h.withPath hpath
  | ok o =>
      cases o with
      | rebuilt rows =>
          have hrows := (h.withPath hpath).withEntries (wellTyped_textsOf rows)
          exact ⟨hrows.localeCode, hrows.stringFile, hrows.containsAssets, hrows.addressableAssets,
            hrows.textual, hrows.distinct, hrows.texts⟩
      | _ => exact h.withPath hpath

/-- What stands in a slot that has been brought up to date agrees in both builds, with the path. -/
theorem Fellow.result (halike : c.Alike c') (hfiles : u'.files = u.files)
    (hrepeats : u.files.Repeats (StringTable.encode c.entries) c.config.encoding)
    (h : Fellow (Ahead c) u u' k k') (hm : Moved c slot k fresh u v)
    (hm' : Moved c' slot' k' fresh' u' v') : Fellow (Level c) v v' fresh fresh' := by
  have hsettled := h.settlementOf halike hfiles
  have hresult := hm'.result
  rw [hsettled] at hresult
  have hsame := (hm.result.symm.trans (sameDocument_leftIn h.rest _)).trans hresult
  refine ⟨?_, ?_, hsame.stringFile, ?_⟩
  · exact (wellTyped_leftIn h.typed (isOptionalText_settle h.typed.stringFile)).of_sameDocument
      hm.result
  · exact ⟨hsame.localeCode, rfl, hsame.containsAssets, hsame.addressableAssets, hsame.texts⟩
  · rw [hm.result.stringFile, hm.result.localeCode, stringFile_leftIn, localeCode_leftIn, hm.files]
    exact stays_settle hrepeats _ _

end Fellow

/-! ## Two builds -/

/-- Two builds on their way through their lists: the slots of `done` and `done'` have been brought
up to date, and those of `rest` and `rest'` have not. -/
structure Abreast (c c' : Context) (done done' rest rest' : List LocalizationId) (u u' : World) :
    Prop where
  left : Standing c (done ++ rest) u
  right : Standing c' (done' ++ rest') u'
  nodup : (done' ++ rest').Nodup
  files : u'.files = u.files
  repeats : u.files.Repeats (StringTable.encode c.entries) c.config.encoding
  stored : (u'.project c'.projectId).stored .null = (u.project c.projectId).stored .null
  typed : (u.project c.projectId).WellTyped
  typedBase : (u.localization c.base).WellTyped
  base : (u.localization c.base).SameDocument (u'.localization c'.base)
  done : List.Forall₂ (Matched (Level c) c c' u u') done done'
  rest : List.Forall₂ (Matched (Ahead c) c c' u u') rest rest'

section Abreast

variable {c c' : Context} {done done' rest rest' : List LocalizationId}
  {k k' fresh fresh' : LocalizationId} {u u' v v' : World}

theorem forall₂_imp_of_mem {α β : Type} {R S : α → β → Prop} {as : List α} {bs : List β}
    (h : List.Forall₂ R as bs) (himp : ∀ a ∈ as, ∀ b ∈ bs, R a b → S a b) :
      List.Forall₂ S as bs := by
  induction h with
  | nil => exact .nil
  | @cons a b as bs hab _ ih =>
      exact .cons (himp a (by simp) b (by simp) hab)
        (ih fun a ha b hb => himp a (by simp [ha]) b (by simp [hb]))

/-- The slots of two localizations that agree have been brought up to date. -/
theorem Abreast.moved (halike : c.Alike c')
    (h : Abreast c c' done done' (k :: rest) (k' :: rest') u u') (hother : k ≠ c.base)
    (hm : Moved c done.length k fresh u v) (hm' : Moved c' done'.length k' fresh' u' v') :
    Abreast c c' (done ++ [fresh]) (done' ++ [fresh']) rest rest' v v' := by
  obtain ⟨hmatched, hrest⟩ := List.forall₂_cons.mp h.rest
  have hother' : k' ≠ c'.base := fun hbase => hother (hmatched.isBase.mpr hbase)
  have hfellow := hmatched.fellow hother
  have hlisted := h.left.listed c.base (by simp)
  have hlisted' := h.right.listed c'.base (by simp)
  have hbase : v.localization c.base = u.localization c.base :=
    hm.other c.base hlisted (Ne.symm hother)
  have hbase' : v'.localization c'.base = u'.localization c'.base :=
    hm'.other c'.base hlisted' (Ne.symm hother')
  have hkept {R : FileSystem → Value → Value → Value → Prop} (hR : Steady c R)
      {js js' : List LocalizationId} (hjs : ∀ j ∈ js, j ∈ done ++ rest)
      (hjs' : ∀ j' ∈ js', j' ∈ done' ++ rest')
      (hmatch : List.Forall₂ (Matched R c c' u u') js js') :
      List.Forall₂ (Matched R c c' v v') js js' :=
    forall₂_imp_of_mem hmatch fun j hj j' hj' hjj' =>
      hjj'.moved hR h.repeats (h.left.listed_of_mem (hjs j hj)) hm
        (h.right.kept hm' h.nodup (hjs' j' hj'))
  have hresult : Matched (Level c) c c' v v' fresh fresh' :=
    ⟨iff_of_false (hm.fresh_ne hlisted (Ne.symm hother)).symm
      (hm'.fresh_ne hlisted' (Ne.symm hother')).symm,
      fun _ => hfellow.result halike h.files h.repeats hm hm'⟩
  constructor
  case left => simpa using h.left.moved hother hm
  case right => simpa using h.right.moved hother' hm'
  case nodup => simpa using h.right.nodup_moved hm' h.nodup
  case files => rw [hm'.files, hm.files, hfellow.settlementOf halike h.files]
  case repeats =>
    rw [hm.files]
    exact h.repeats.spread (spread_settle c _ _ _)
  case stored =>
    rw [hm'.project, hm.project, Project.stored_eq, Project.stored_eq]
    have hstored := h.stored
    rw [Project.stored_eq, Project.stored_eq] at hstored
    exact hstored
  case typed =>
    rw [hm.project]
    exact ⟨h.typed.name, h.typed.sources, h.typed.declarations, h.typed.baseLanguage,
      h.typed.searchAssemblies⟩
  case typedBase =>
    rw [hbase]
    exact h.typedBase
  case base =>
    rw [hbase, hbase']
    exact h.base
  case done =>
    exact List.rel_append (hkept (steady_level c) (fun _ => List.mem_append_left rest)
      (fun _ => List.mem_append_left rest') h.done) (.cons hresult .nil)
  case rest =>
    exact hkept (steady_ahead c) (fun _ => List.mem_append_right done)
      (fun _ => List.mem_append_right done') hrest

/-- The slot of a localization other than the base. -/
theorem Abreast.exec_other (halike : c.Alike c')
    (h : Abreast c c' done done' (k :: rest) (k' :: rest') u u') (hother : k ≠ c.base)
    (report : BuildReport) :
    ∃ result v v' fresh fresh', (syncSlot c done.length k report).exec u = (result, v) ∧
      (syncSlot c' done'.length k' report).exec u' = (result, v') ∧
      Abreast c c' (done ++ [fresh]) (done' ++ [fresh']) rest rest' v v' := by
  obtain ⟨hmatched, -⟩ := List.forall₂_cons.mp h.rest
  have hother' : k' ≠ c'.base := fun hbase => hother (hmatched.isBase.mpr hbase)
  have hfellow := hmatched.fellow hother
  have hslot : (u.project c.projectId).localizations[done.length]? = some k := by simp [h.left.list]
  have hslot' : (u'.project c'.projectId).localizations[done'.length]? = some k' := by
    simp [h.right.list]
  obtain ⟨v, fresh, hexec, hm⟩ := exec_syncSlot_moved report hslot h.left.project
    (h.left.listed k (by simp)) hother
  obtain ⟨v', fresh', hexec', hm'⟩ := exec_syncSlot_moved report hslot' h.right.project
    (h.right.listed k' (by simp)) hother'
  rw [hfellow.settlementOf halike h.files, hfellow.rest.localeCode] at hexec'
  exact ⟨_, v, v', fresh, fresh', hexec, hexec', h.moved halike hother hm hm'⟩

theorem filled_sameDocument (halike : c.Alike c') {l l' : Localization} (h : l.SameDocument l') :
    (filled c l).SameDocument (filled c' l') := by
  rw [filled, filled, halike.language, halike.entries]
  split
  · exact ⟨h.localeCode, h.stringFile, h.containsAssets, h.addressableAssets, .refl _⟩
  · exact h

theorem wellTyped_filled {l : Localization} (h : l.WellTyped) (c : Context) :
    (filled c l).WellTyped := by
  rw [filled]
  split
  · exact h.withEntries (wellTyped_textsOf _)
  · exact h

theorem Abreast.exec_base (halike : c.Alike c')
    (hlanguage : c.project.baseLanguage.same c.project.baseLanguage = true)
    (h : Abreast c c' done done' (k :: rest) (k' :: rest') u u') (hbase : k = c.base)
    (report : BuildReport) :
    ∃ result v v', (syncSlot c done.length k report).exec u = (result, v) ∧
      (syncSlot c' done'.length k' report).exec u' = (result, v') ∧
      Abreast c c' (done ++ [k]) (done' ++ [k']) rest rest' v v' := by
  obtain ⟨hmatched, hrest⟩ := List.forall₂_cons.mp h.rest
  have hbase' : k' = c'.base := hmatched.isBase.mp hbase
  obtain ⟨v, hexec, hf⟩ :=
    exec_syncSlot_filled done.length report h.left.code hlanguage h.left.quiet
  obtain ⟨v', hexec', hf'⟩ := exec_syncSlot_filled done'.length report h.right.code
    (by rw [halike.language, hlanguage]) h.right.quiet
  rw [halike.language, halike.noCodeMessage] at hexec'
  subst hbase hbase'
  refine ⟨_, v, v', hexec, hexec', ?_⟩
  have hproject : v.project c.projectId = u.project c.projectId := by
    rw [World.project, hf.projects, World.project]
  have hproject' : v'.project c'.projectId = u'.project c'.projectId := by
    rw [World.project, hf'.projects, World.project]
  constructor
  case left => simpa using h.left.filled hf
  case right => simpa using h.right.filled hf'
  case nodup => simpa using h.nodup
  case files => rw [hf'.files, hf.files, h.files]
  case repeats => rw [hf.files]; exact h.repeats
  case stored => rw [hproject, hproject', h.stored]
  case typed => rw [hproject]; exact h.typed
  case typedBase => exact (wellTyped_filled h.typedBase c).of_sameDocument hf.base
  case base => exact (hf.base.symm.trans (filled_sameDocument halike h.base)).trans hf'.base
  case done =>
    refine List.rel_append (h.done.imp fun _ _ hmatch => hmatch.filled hf hf') (.cons ?_ .nil)
    exact ⟨iff_of_true rfl rfl, fun hne => absurd rfl hne⟩
  case rest => exact hrest.imp fun _ _ hmatch => hmatch.filled hf hf'

theorem Abreast.exec_slot (halike : c.Alike c')
    (hlanguage : c.project.baseLanguage.same c.project.baseLanguage = true)
    (h : Abreast c c' done done' (k :: rest) (k' :: rest') u u') (report : BuildReport) :
    ∃ result v v' fresh fresh', (syncSlot c done.length k report).exec u = (result, v) ∧
      (syncSlot c' done'.length k' report).exec u' = (result, v') ∧
      Abreast c c' (done ++ [fresh]) (done' ++ [fresh']) rest rest' v v' := by
  by_cases hbase : k = c.base
  · obtain ⟨result, v, v', hexec, hexec', hnext⟩ := h.exec_base halike hlanguage hbase report
    exact ⟨result, v, v', k, k', hexec, hexec', hnext⟩
  · exact h.exec_other halike hbase report

/-- Both builds come to the same with the slots that are left, and leave the same files. -/
theorem Abreast.exec_slots (halike : c.Alike c')
    (hlanguage : c.project.baseLanguage.same c.project.baseLanguage = true)
    (h : Abreast c c' done done' rest rest' u u') (report : BuildReport) :
    ∃ result v v', (syncSlots c report done.length rest).exec u = (result, v) ∧
      (syncSlots c' report done'.length rest').exec u' = (result, v') ∧ v'.files = v.files ∧
      ∀ report', result = .ok report' → ∃ done done', Abreast c c' done done' [] [] v v' := by
  induction rest generalizing done done' rest' u u' report with
  | nil =>
      obtain rfl := List.forall₂_nil_left_iff.mp h.rest
      exact ⟨_, u, u', rfl, rfl, h.files, fun _ _ => ⟨done, done', h⟩⟩
  | cons k rest ih =>
      obtain ⟨k', rest', -, -, rfl⟩ := List.forall₂_cons_left_iff.mp h.rest
      obtain ⟨result, v, v', fresh, fresh', hexec, hexec', hnext⟩ :=
        h.exec_slot halike hlanguage report
      rw [syncSlots, syncSlots, Action.exec_bind, Action.exec_bind, hexec, hexec']
      cases result with
      | error e => exact ⟨.error e, v, v', rfl, rfl, hnext.files, fun _ hreport => by cases hreport⟩
      | ok report => simpa using ih hnext report

end Abreast

end Dialogue.Build
