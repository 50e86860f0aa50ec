import Dialogue.Proofs.Value.Table
import Dialogue.Proofs.World.Store

/-! A world in which every number of a localization that a project knows stands for one that there
is. -/

namespace Dialogue

/-- What holds of every world that is put together from projects and localizations: the numbers that
a project has stand for localizations that there are, and asset tables have each key once. -/
structure World.Sound (w : World) : Prop where
  base : ∀ id base, (w.project id).base = some base → base < w.localizations.size
  listed : ∀ id, ∀ k ∈ (w.project id).localizations, k < w.localizations.size
  /-- No base language is different from itself, as the value that is not a number is. -/
  language : ∀ id, (w.project id).baseLanguage.same (w.project id).baseLanguage = true
  assets : ∀ k, (w.localization k).assets.Distinct

namespace World.Sound

variable {w v : World}

/-- Soundness is a matter of the list, the base and the language of each project, and of the
localizations. -/
theorem of_projects (h : w.Sound) (hlocalizations : v.localizations = w.localizations)
    (hprojects : ∀ id, (v.project id).base = (w.project id).base ∧
      (v.project id).localizations = (w.project id).localizations ∧
      (v.project id).baseLanguage = (w.project id).baseLanguage) : v.Sound where
  base id base hbase := by
    rw [(hprojects id).1] at hbase
    rw [hlocalizations]
    exact h.base id base hbase
  listed id k hk := by
    rw [(hprojects id).2.1] at hk
    rw [hlocalizations]
    exact h.listed id k hk
  language id := by
    rw [(hprojects id).2.2]
    exact h.language id
  assets k := by
    rw [World.localization, hlocalizations]
    exact h.assets k

/-- A world stays sound when localizations are added and listed, and each has its assets under keys
of their own. -/
theorem mono (h : w.Sound) (hsize : w.localizations.size ≤ v.localizations.size)
    (hprojects : ∀ id, (v.project id).base = (w.project id).base ∧
      (v.project id).baseLanguage = (w.project id).baseLanguage ∧
      ∀ k ∈ (v.project id).localizations,
        k ∈ (w.project id).localizations ∨ k < v.localizations.size)
    (hassets : ∀ k, (v.localization k).assets.Distinct) : v.Sound where
  base id base hbase := by
    rw [(hprojects id).1] at hbase
    exact Nat.lt_of_lt_of_le (h.base id base hbase) hsize
  listed id k hk := by
    rcases (hprojects id).2.2 k hk with hold | hlt
    · exact Nat.lt_of_lt_of_le (h.listed id k hold) hsize
    · exact hlt
  language id := by
    rw [(hprojects id).2.1]
    exact h.language id
  assets := hassets

/-- Only the projects and localizations that there are need to be looked at. -/
theorem of_mem
    (hprojects : ∀ p ∈ w.projects, (∀ base ∈ p.base, base < w.localizations.size) ∧
      (∀ k ∈ p.localizations, k < w.localizations.size) ∧
      p.baseLanguage.same p.baseLanguage = true)
    (hlocalizations : ∀ l ∈ w.localizations, l.assets.Distinct) : w.Sound := by
  have hproject : ∀ id, w.project id = {} ∨ w.project id ∈ w.projects := by
    intro id
    by_cases hid : id < w.projects.size
    · exact .inr (by simp [World.project, hid])
    · exact .inl (w.project_of_size_le (Nat.le_of_not_lt hid))
  constructor
  case base =>
    intro id base hbase
    rcases hproject id with hp | hp
    · simp [hp] at hbase
    · exact (hprojects _ hp).1 base hbase
  case listed =>
    intro id k hk
    rcases hproject id with hp | hp
    · simp [hp] at hk
    · exact (hprojects _ hp).2.1 k hk
  case language =>
    intro id
    rcases hproject id with hp | hp
    · rw [hp]
      rfl
    · exact (hprojects _ hp).2.2
  case assets =>
    intro k
    by_cases hk : k < w.localizations.size
    · exact hlocalizations _ (by simp [World.localization, hk])
    · rw [w.localization_of_size_le (Nat.le_of_not_lt hk)]
      exact List.Pairwise.nil

end World.Sound

/-- A project in two languages, the second of which has a table. The base is listed twice, and one
localization has no language yet. -/
def World.bilingual : World where
  localizations := #[{ localeCode := .text "en", listeners := [{ name := "view" }] },
    { localeCode := .text "de", stringFile := .text "de.csv" }, {}]
  projects := #[{ sources := [.text "main"], base := some 0, localizations := [1, 0, 2, 0] }]
  files := .memory { files := [("main", .bytes (Text.Utf8.encode "title: Start".toList)),
    ("de.csv", .bytes (Text.Utf8.encode (StringTable.encode
      [{ id := "line:1", language := "de", text := "Hallo" }]).toList))] }

theorem World.sound_bilingual : World.bilingual.Sound :=
  .of_mem (by simp [bilingual, Value.same, Scalar.same, Scalar.number?])
    (by simp [bilingual, Table.Distinct])

/-- A project in two languages, the second of which has no table yet. The base is not listed. -/
def World.untranslated : World where
  localizations := #[{ localeCode := .text "en", listeners := [{ name := "view" }] },
    { localeCode := .text "de" }]
  projects := #[
    { path := .text "intro.tres", sources := [.text "main"], base := some 0, localizations := [1] }]
  files := .memory { files := [("main", .bytes (Text.Utf8.encode "title: Start".toList))] }

theorem World.sound_untranslated : World.untranslated.Sound :=
  .of_mem (by simp [untranslated, Value.same, Scalar.same, Scalar.number?])
    (by simp [untranslated, Table.Distinct])

theorem Action.ignoresLog_sound : Action.IgnoresLog World.Sound :=
  fun _ _ _ h => h.of_projects rfl fun _ => ⟨rfl, rfl, rfl⟩

end Dialogue
