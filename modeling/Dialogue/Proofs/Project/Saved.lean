import Dialogue.Proofs.Files.Repeats
import Dialogue.Proofs.Project.Restored
import Dialogue.Proofs.Project.Yaml
import Dialogue.Proofs.Text.Utf8

/-! A project of the world is written as YAML, as a text or to a file, and added again from there.
The copy has the document of the project, with the lines of each table in the same order. This takes
that its texts are kept; one next line character in a line is enough for the line to be another one
in the copy. -/

namespace Dialogue

/-! ## Files -/

theorem plainLines_of_forall {text : List Char} (h : ∀ c ∈ text, c ≠ '\r') :
    plainLines text = text := by
  induction text with
  | nil => rfl
  | cons c text ih =>
      obtain ⟨hc, htext⟩ := List.forall_mem_cons.mp h
      rw [plainLines, ih htext]
      · rintro rest rfl
        exact absurd rfl hc
      · exact hc

namespace DirectoryTree

variable {t t' : DirectoryTree} {place : List Path.Name} {path : String} {content : Bytes}

theorem read_of_locate (hlocate : t.locate path = .ok (.entry place false))
    (hfile : t.file? place = some content) : t.read path = .ok content := by
  rw [read, hlocate]
  dsimp only
  rw [hfile]
  rfl

theorem read_rename {source : List Path.Name} (hsource : t.file? source = some content)
    (h : t.rename source path = .ok t') : t'.read path = .ok content := by
  rw [rename] at h
  split at h
  · cases h
  · cases h
  · cases h
  · next place hlocate =>
      rw [hsource] at h
      obtain rfl := Except.ok.inj h
      have hkept : ((t.erase source).put place content).directories = t.directories := rfl
      exact read_of_locate (locate_congr hkept hlocate) (file?_put_self _ place content)

/-- A file that has been replaced holds what it was replaced by. -/
theorem read_replace {trouble : Option (SaveStep × FileFault)}
    (h : t.replace path content trouble = (.ok (), t')) : t'.read path = .ok content := by
  unfold replace at h
  dsimp only at h
  split at h
  · cases h
  split at h
  · cases h
  split at h
  · cases h
  split at h
  · cases h
  · cases h
  · cases h
  split at h
  · next hrename =>
      obtain rfl : _ = t' := (Prod.mk.inj h).2
      exact read_rename (file?_put_self _ _ _) hrename
  · cases h

end DirectoryTree

/-- A text that has been saved is read from the file. -/
theorem FileSystem.readDocument_replace {fs fs' : FileSystem} {path text : String}
    {trouble : Option (SaveStep × FileFault)} (hreturn : ∀ c ∈ text.toList, c ≠ '\r')
    (h : fs.replace path (Text.Utf8.encode text.toList) trouble = (.ok (), fs')) :
    fs'.readDocument path = .ok text := by
  cases fs with
  | memory m => cases h
  | volume v => cases h
  | directory t =>
      have hpair : (directory t).replace path (Text.Utf8.encode text.toList) trouble =
          ((t.replace path (Text.Utf8.encode text.toList) trouble).1,
            .directory (t.replace path (Text.Utf8.encode text.toList) trouble).2) := rfl
      obtain ⟨hresult, rfl⟩ := Prod.mk.inj (hpair.symm.trans h)
      have hread := DirectoryTree.read_replace (Prod.ext hresult rfl)
      rw [readDocument]
      refine bind_eq_ok.mpr ⟨_, hread, ?_⟩
      rw [Text.Encoding.decodeUtf8_encode]
      change Except.ok (String.ofList (plainLines text.toList)) = _
      rw [plainLines_of_forall hreturn, String.ofList_toList]

/-! ## Copies -/

def World.projectYaml (w : World) (p : Project) : Except Fault String := do
  (← Draft.ofProject w p).toYaml

def restoreYaml (text : String) (path : Value) : Action ProjectId := do
  (← Action.ofExcept (Draft.ofYaml text path)).install

/-- A project of which all is kept that is persisted. -/
structure World.KeepsProject (w : World) (p : Project) : Prop where
  project : p.Kept
  base : ∀ base ∈ p.base, (w.localization base).Kept
  localizations : ∀ k ∈ p.localizations, (w.localization k).Kept

/-- The second project has the document of the first, and a path of its own. -/
structure CopyOf (w : World) (p : Project) (path : Value) (w' : World) (q : Project) : Prop where
  path : q.path = path
  document : ∃ v, w.projectDocument p = .ok v ∧ w'.projectDocument q = .ok v

variable {w : World} {p : Project}

theorem World.KeepsProject.draft {base : LocalizationId} (h : w.KeepsProject p)
    (hbase : p.base = some base) : (w.draft p base).Kept where
  project := h.project
  localizations := List.forall_mem_map.mpr h.localizations
  base := by
    simp only [World.draft]
    cases p.localizations.idxOf? base with
    | none => exact h.base base hbase
    | some place => trivial

theorem exec_restoreYaml {text : String} {path : Value} {d : Draft}
    (h : Draft.ofYaml text path = .ok d) (w₀ : World) :
    Action.exec (restoreYaml text path) w₀ = (.ok w₀.projects.size, d.installed w₀) := by
  rw [restoreYaml, h, Action.exec_bind_of_ok (Action.exec_ofExcept ..), Draft.exec_install]

/-- The YAML text of a project makes a copy in whatever world the project is added to. -/
theorem World.HasTyped.exists_projectYaml (h : w.HasTyped p) (hkept : w.KeepsProject p) :
    ∃ text, w.projectYaml p = .ok text ∧ (∀ c ∈ text.toList, c ≠ '\r') ∧
      ∀ path w₀, ∃ q w', Action.exec (restoreYaml text path) w₀ = (.ok q, w') ∧
        CopyOf w p path w' (w'.project q) := by
  obtain ⟨base, hbase, -⟩ := h.base
  have typed := h.draft hbase
  have hdraft := ofProject_of_base (w := w) hbase
  obtain ⟨text, htext, hprinted, -⟩ := typed.exists_ofYaml (hkept.draft hbase) .null
  refine ⟨text, ?_, fun c hc => Yaml.ne_return_of_isPrinted (hprinted c hc), fun path w₀ => ?_⟩
  · rw [World.projectYaml, hdraft]
    exact htext
  obtain ⟨v, hv, -⟩ := bind_eq_ok.mp htext
  obtain ⟨text', htext', -, hread⟩ := typed.exists_ofYaml (hkept.draft hbase) path
  obtain rfl : text = text' := Except.ok.inj (htext.symm.trans htext')
  have hstored := Draft.storedAs_stored typed.base_ne_absent path
  obtain ⟨hdocument, -⟩ := hstored.document_installed w₀ typed
  refine ⟨_, _, exec_restoreYaml hread w₀, ?_⟩
  rw [Draft.project_installed]
  constructor
  case path =>
    have hproject := congrArg Project.path hstored.project
    rw [Project.stored_eq] at hproject
    exact hproject
  case document =>
    refine ⟨v, ?_, ?_⟩
    · rw [World.projectDocument, hdraft]
      exact hv
    · rw [hdocument, Draft.toValue_stored, hv]

/-! ## Saving and loading -/

section Saving

variable {id : ProjectId} {path target : Value} {file text : String} {w' : World}
  {trouble : Option (SaveStep × FileFault)}

theorem exec_loadProject (h : w.files.readDocument file = .ok text) :
    Action.exec (loadProject file) w = Action.exec (restoreYaml text (.text file)) w := by
  rw [loadProject, Action.exec_bind_of_ok (Action.exec_get w), h,
    Action.exec_bind_of_ok (Action.exec_ofExcept ..), restoreYaml]

variable (htext : w.projectYaml (w.project id) = .ok text)

include htext

/-- Saving a project comes to what replacing its file comes to. -/
theorem exec_saveProject (htarget : saveTarget (w.project id) path = .ok (.text file))
    (trouble : Option (SaveStep × FileFault)) :
    (Action.exec (saveProject id path trouble) w).1 =
        (w.files.replace file (Text.Utf8.encode text.toList) trouble).1.map (fun _ => .text file) ∧
      (Action.exec (saveProject id path trouble) w).2.files =
        (w.files.replace file (Text.Utf8.encode text.toList) trouble).2 := by
  obtain ⟨d, hdraft, htext⟩ := bind_eq_ok.mp htext
  rw [saveProject, Action.exec_bind_of_ok (Action.exec_get w)]
  dsimp only
  rw [htarget, hdraft, Action.exec_bind_of_ok (Action.exec_ofExcept ..),
    Action.exec_bind_of_ok (Action.exec_ofExcept ..), htext,
    Action.exec_bind_of_ok (Action.exec_ofExcept ..)]
  dsimp only
  obtain ⟨result, files⟩ := w.files.replace file (Text.Utf8.encode text.toList) trouble
  dsimp only
  rw [Action.exec_bind_of_ok (Action.exec_modify ..)]
  cases result with
  | ok _ =>
      rw [Action.exec_bind_of_ok (Action.exec_ofExcept ..),
        Action.exec_bind_of_ok (Action.exec_updateProject ..)]
      exact ⟨rfl, rfl⟩
  | error e =>
      rw [Action.exec_bind_of_error (Action.exec_ofExcept ..)]
      exact ⟨rfl, rfl⟩

/-- A project that has been saved has replaced a file by its text. -/
theorem exec_saveProject_eq_ok
    (h : Action.exec (saveProject id path trouble) w = (.ok target, w')) :
    ∃ file, target = .text file ∧
      w.files.replace file (Text.Utf8.encode text.toList) trouble = (.ok (), w'.files) := by
  have hsave := h
  obtain ⟨d, hdraft, hyaml⟩ := bind_eq_ok.mp htext
  rw [saveProject, Action.exec_bind_of_ok (Action.exec_get w)] at h
  dsimp only at h
  cases htarget : saveTarget (w.project id) path with
  | error e =>
      rw [htarget, Action.exec_bind_of_error (Action.exec_ofExcept ..)] at h
      cases h
  | ok v =>
      rw [htarget, hdraft, Action.exec_bind_of_ok (Action.exec_ofExcept ..),
        Action.exec_bind_of_ok (Action.exec_ofExcept ..), hyaml,
        Action.exec_bind_of_ok (Action.exec_ofExcept ..)] at h
      split at h
      · next file =>
          obtain ⟨hresult, hfiles⟩ := exec_saveProject htext htarget trouble
          rw [hsave] at hresult hfiles
          cases hreplace : w.files.replace file (Text.Utf8.encode text.toList) trouble with
          | mk result files =>
              rw [hreplace] at hresult hfiles
              cases result with
              | ok _ => exact ⟨file, Except.ok.inj hresult,
                  hreplace.trans (Prod.ext rfl hfiles.symm)⟩
              | error e => cases hresult
      · cases h

end Saving

/-- A typed project of which all is kept is copied through YAML. Its text makes a copy in every
world. Saving it comes to what replacing its file comes to, and what has been saved is loaded as a
copy. -/
theorem exists_copyOf_yaml {w : World} {id : ProjectId} (h : w.HasTyped (w.project id))
    (hkept : w.KeepsProject (w.project id)) :
    ∃ text, w.projectYaml (w.project id) = .ok text ∧
      (∀ path w₀, ∃ q w', Action.exec (restoreYaml text path) w₀ = (.ok q, w') ∧
        CopyOf w (w.project id) path w' (w'.project q)) ∧
      ∀ path trouble,
        (∀ file, saveTarget (w.project id) path = .ok (.text file) →
          (Action.exec (saveProject id path trouble) w).1 =
            (w.files.replace file (Text.Utf8.encode text.toList) trouble).1.map
              fun _ => .text file) ∧
        ∀ target w', Action.exec (saveProject id path trouble) w = (.ok target, w') →
          ∃ file q w'', target = .text file ∧
            Action.exec (loadProject file) w' = (.ok q, w'') ∧
            CopyOf w (w.project id) target w'' (w''.project q) := by
  obtain ⟨text, htext, hreturn, hcopy⟩ := h.exists_projectYaml hkept
  refine ⟨text, htext, hcopy, fun path trouble =>
    ⟨fun file hfile => (exec_saveProject htext hfile trouble).1, fun target w' hsave => ?_⟩⟩
  obtain ⟨file, rfl, hreplace⟩ := exec_saveProject_eq_ok htext hsave
  obtain ⟨q, w'', hrestore, hcopied⟩ := hcopy (.text file) w'
  have hread := FileSystem.readDocument_replace hreturn hreplace
  exact ⟨file, q, w'', rfl, (exec_loadProject hread).trans hrestore, hcopied⟩

/-! ## A project in a file -/

def World.filed : World :=
  { archived with files := .directory {} }

theorem World.hasTyped_filed : filed.HasTyped (filed.project 0) :=
  ⟨hasTyped_archived.project, hasTyped_archived.base, hasTyped_archived.localizations⟩

theorem World.keepsProject_filed : filed.KeepsProject (filed.project 0) := by
  have hgreetings : Localization.greetings.Kept := {
    localeCode := Value.kept_text (by decide)
    stringFile := Value.kept_null
    ids := by
      simp only [Localization.greetings, List.forall_mem_cons, List.not_mem_nil, false_implies,
        implies_true, and_true]
      exact ⟨⟨_, rfl, by decide, by decide⟩, ⟨_, rfl, by decide, by decide⟩⟩
    texts := by
      simp only [Localization.greetings, List.forall_mem_cons, List.not_mem_nil, false_implies,
        implies_true, and_true]
      exact ⟨Value.kept_text (by decide), Value.kept_text (by decide)⟩ }
  have hgerman : Localization.german.Kept := {
    localeCode := Value.kept_text (by decide)
    stringFile := Value.kept_text (by decide)
    ids := by simp [Localization.german]
    texts := by simp [Localization.german] }
  constructor
  case project =>
    constructor
    case name => exact Value.kept_text (by decide)
    case sources =>
      exact List.forall_mem_cons.mpr ⟨Value.kept_text (by decide),
        List.forall_mem_singleton.mpr Value.kept_null⟩
    case declarations =>
      exact List.forall_mem_singleton.mpr
        ⟨Value.kept_text (by decide), Value.kept_text (by decide), Value.kept_null⟩
    case baseLanguage => exact Value.kept_text (by decide)
    case searchAssemblies => exact List.forall_mem_nil _
  case base =>
    rintro base hbase
    obtain rfl := Option.some.inj hbase
    exact hgreetings
  case localizations =>
    have hlisted : ∀ k ∈ [1, 0, 1, 0], (filed.localization k).Kept := by
      simp only [List.forall_mem_cons, List.not_mem_nil, false_implies, implies_true, and_true]
      exact ⟨hgerman, hgreetings, hgerman, hgreetings⟩
    exact hlisted

/-- The project is saved at its path, and loaded from there. -/
theorem exists_copyOf_filed :
    World.filed.HasTyped (World.filed.project 0) ∧
      World.filed.KeepsProject (World.filed.project 0) ∧
      ∃ file q w' w'', Action.exec (saveProject 0 .null none) World.filed = (.ok (.text file), w') ∧
        Action.exec (loadProject file) w' = (.ok q, w'') ∧
        CopyOf World.filed (World.filed.project 0) (.text file) w'' (w''.project q) := by
  refine ⟨World.hasTyped_filed, World.keepsProject_filed, ?_⟩
  obtain ⟨text, -, -, hsaving⟩ := exists_copyOf_yaml World.hasTyped_filed World.keepsProject_filed
  obtain ⟨-, hload⟩ := hsaving .null none
  have hsaved : (Action.exec (saveProject 0 .null none) World.filed).1.toOption.isSome = true := by
    decide +kernel
  cases hexec : Action.exec (saveProject 0 .null none) World.filed with
  | mk result w' =>
      rw [hexec] at hsaved
      cases result with
      | error e => cases hsaved
      | ok target =>
          obtain ⟨file, q, w'', rfl, hloaded, hcopy⟩ := hload target w' hexec
          exact ⟨file, q, w', w'', rfl, hloaded, hcopy⟩

/-! ## A line that is lost -/

/-- A line of two rows, which a next line character parts. -/
def Localization.rows : Localization where
  localeCode := .text "en"
  texts := [(.text "line:1", .text "One\u0085two")]

def Project.rows : Project where
  name := .text "Intro"
  base := some 0
  localizations := [0]

def World.rows : World where
  localizations := #[.rows]
  projects := #[.rows]

theorem World.hasTyped_rows : rows.HasTyped .rows := by
  have hlocalization : (rows.localization 0).WellTyped := {
    localeCode := ⟨_, rfl⟩
    stringFile := .inl rfl
    containsAssets := ⟨_, rfl⟩
    addressableAssets := ⟨_, rfl⟩
    textual :=
      by simp [rows, localization, Localization.rows, Table.Textual, Scalar.Named, Scalar.name]
    distinct := List.pairwise_singleton _ _
    texts := by simp [rows, localization, Localization.rows, Value.IsText] }
  exact {
    project := {
      name := ⟨_, rfl⟩
      sources := by simp [Project.rows]
      declarations := by simp [Project.rows]
      baseLanguage := ⟨_, rfl⟩
      searchAssemblies := by simp [Project.rows] }
    base := ⟨0, rfl, hlocalization⟩
    localizations := by simpa [Project.rows] using hlocalization }

/-- The document of the copy that the YAML text of a project makes. -/
def World.yamlCopy (w : World) (p : Project) (path : Value) : Except Fault Value := do
  let text ← w.projectYaml p
  let (result, w') := Action.exec (restoreYaml text path) w
  w'.projectDocument (w'.project (← result))

theorem World.yamlCopy_eq_ofYaml (w : World) (p : Project) (path : Value) :
    w.yamlCopy p path = (do
      let d ← Draft.ofYaml (← w.projectYaml p) path
      (d.installed w).projectDocument ((d.installed w).project w.projects.size)) := by
  refine bind_congr fun text => ?_
  cases hdraft : Draft.ofYaml text path with
  | error e =>
      rw [restoreYaml, hdraft, Action.exec_bind_of_error (Action.exec_ofExcept ..)]
      rfl
  | ok d =>
      rw [exec_restoreYaml hdraft]
      rfl

/-- The document of the copy can be computed without a text in between. -/
theorem World.yamlCopy_eq_parseChars (w : World) (p : Project) (path : Value) :
    w.yamlCopy p path = (do
      let v ← Yaml.parseChars (← Yaml.renderChars (← w.projectDocument p))
      let d ← Draft.ofValue (if v.truthy then v else .mapping []) path
      (d.installed w).projectDocument ((d.installed w).project w.projects.size)) := by
  rw [yamlCopy_eq_ofYaml, projectYaml, projectDocument]
  simp only [Draft.toYaml, Draft.ofYaml, bind_assoc]
  refine bind_congr fun d => bind_congr fun v => ?_
  rw [← bind_assoc, Yaml.render_bind_parse, bind_assoc]

/-- The copy of a typed project may have another line: the next line character is read as a
blank. -/
theorem not_forall_copyOf_yaml : ¬ ∀ (w : World) (p : Project) (path : Value), w.HasTyped p →
    ∃ text q w', w.projectYaml p = .ok text ∧
      Action.exec (restoreYaml text path) w = (.ok q, w') ∧ CopyOf w p path w' (w'.project q) := by
  intro hall
  obtain ⟨text, q, w', htext, hrestore, hcopy⟩ := hall .rows .rows .null World.hasTyped_rows
  obtain ⟨v, hv, hv'⟩ := hcopy.document
  have hyaml : World.rows.yamlCopy .rows .null = .ok v := by
    rw [World.yamlCopy]
    refine bind_eq_ok.mpr ⟨text, htext, ?_⟩
    rw [hrestore]
    exact hv'
  have hlost : ((World.rows.projectDocument .rows).toOption.any fun v => v.same v &&
      (World.rows.yamlCopy .rows .null).toOption.all fun v' => !v'.same v) = true := by
    rw [World.yamlCopy_eq_parseChars]
    decide +kernel
  rw [hv, hyaml] at hlost
  simp [Except.toOption] at hlost

end Dialogue
