import Dialogue.Proofs.Build.Writes

/-! A file that has changed in a build is the table of a language that had none on record. The place
of a table tells its language, and no table takes the place of the project. -/

namespace Dialogue

namespace Build

open FileSystem (SameAt)

/-! ## Places of tables -/

section Place

variable {fs : FileSystem} {config : Config} {p : Project} {code code' : Value}
  {path path' absolute : String}

/-- The parts of a place: the project's path without its suffix, the code, and the suffix. -/
theorem tablePath_eq_ok (h : tablePath fs config p code = .ok path) :
    ∃ absolute suffix, fs.absolute p.path = .ok (.text absolute) ∧
      config.projectSuffix = .text suffix ∧
      path = String.ofList (withoutSuffix absolute.toList suffix.toList) ++ "(" ++ code.display
        ++ ").csv" ++ suffix := by
  rw [tablePath] at h
  split at h
  · cases h
  · split at h
    · cases h
    · rename_i absolute habsolute
      split at h
      · rename_i suffix hsuffix
        exact ⟨absolute, suffix, habsolute, hsuffix, (Except.ok.inj h).symm⟩
      · cases h
    · cases h
    · cases h

/-- Languages with different codes have their tables at different places. -/
theorem display_eq_of_tablePath (h : tablePath fs config p code = .ok path)
    (h' : tablePath fs config p code' = .ok path) : code.display = code'.display := by
  obtain ⟨absolute, suffix, habsolute, hsuffix, hpath⟩ := tablePath_eq_ok h
  obtain ⟨absolute', suffix', habsolute', hsuffix', hpath'⟩ := tablePath_eq_ok h'
  rw [habsolute, Except.ok.injEq] at habsolute'
  cases habsolute'
  rw [hsuffix] at hsuffix'
  cases hsuffix'
  rw [hpath] at hpath'
  have hchars := congrArg String.toList hpath'
  simp only [String.toList_append, List.append_assoc, List.append_cancel_left_eq] at hchars
  rw [← List.append_assoc, ← List.append_assoc, List.append_cancel_right_eq,
    List.append_cancel_right_eq] at hchars
  exact String.toList_injective hchars

theorem length_withoutSuffix (chars : List Char) {suffix : List Char} (hsuffix : suffix ≠ []) :
    chars.length ≤ (withoutSuffix chars suffix).length + suffix.length := by
  rw [withoutSuffix]
  split
  · rw [if_neg (by simpa using hsuffix), List.length_take]
    omega
  · exact Nat.le_add_right _ _

/-- A table stands at a place with a longer path than that of the project. -/
theorem length_lt_of_tablePath (h : tablePath fs config p code = .ok path)
    (hsuffix : config.projectSuffix.truthy = true)
    (habsolute : fs.absolute p.path = .ok (.text absolute)) : absolute.length < path.length := by
  obtain ⟨absolute', suffix, habsolute', htext, rfl⟩ := tablePath_eq_ok h
  rw [habsolute, Except.ok.injEq] at habsolute'
  cases habsolute'
  have hne : suffix.toList ≠ [] := by
    rw [htext] at hsuffix
    simpa [Value.truthy, Scalar.truthy] using hsuffix
  have hlength := length_withoutSuffix absolute.toList hne
  simp only [String.length_append, String.length_ofList]
  rw [← String.length_toList, ← String.length_toList (s := suffix)]
  have hmark : "(".length = 1 := rfl
  omega

end Place

/-! ## Files that have changed -/

/-- A file that a build has left at a path: the table of a language that is listed, is not the base,
and had no table on record. -/
structure TableLeft (config : Config) (id : ProjectId) (entries : List StringTable.Entry)
    (w w' : World) (path : String) : Prop where
  awaited : ∃ k, AwaitsTable config id w k path
  content : w.files.Shows path (StringTable.encode entries) config.encoding w'.files
  /-- In memory the file holds the bytes of the table in the encoding of the settings. -/
  bytes : ∀ m, w.files = .memory m → ∃ m' e content, w'.files = .memory m' ∧
    FileSystem.encodingOf config.encoding = .ok e ∧
    e.encode (StringTable.encode entries).toList = .ok content ∧
    m'.find? path = some (.bytes content)

theorem tableLeft_of_writtenAt {config : Config} {id : ProjectId}
    {entries : List StringTable.Entry} {w w' : World} {path : String} (hstrict : w.files.Strict)
    (h : w.files.WrittenAt (fun path => ∃ k, AwaitsTable config id w k path)
      (StringTable.encode entries) config.encoding w'.files)
    (hchanged : ¬SameAt (.text path) w.files w'.files) :
    TableLeft config id entries w w' path := by
  obtain ⟨hawaited, hshows⟩ := (h.sameAt_or_shows hstrict path).resolve_left hchanged
  refine ⟨hawaited, hshows, fun m hm => ?_⟩
  rw [hm] at h hchanged
  obtain ⟨m', hm', -⟩ := FileSystem.later_memory h.later
  rw [hm'] at h hchanged
  rcases h.find?_memory path with hsame | ⟨-, e, content, hencoding, hcontent, hfile⟩
  · exact absurd (FileSystem.sameAt_memory path hsame) hchanged
  · exact ⟨m', e, content, hm', hencoding, hcontent, hfile⟩

end Build

/-- A build changes no file but the tables of languages that have none on record, and it changes
these only when it comes to its languages. Their places are different for different codes, and none
of them is the place of the project. -/
theorem changed_file_is_table {compiler : Compiler} {config : Config} {id : ProjectId}
    {w w' : World} {result : Except Fault BuildReport} (hsound : w.Sound)
    (hcompiler : compiler.KeepsStore id) (hstrict : w.files.Strict)
    (hsuffix : config.projectSuffix.truthy = true)
    (h : (build compiler config (some id)).exec w = (result, w')) :
    (∀ path, ¬FileSystem.SameAt (.text path) w.files w'.files →
      ∃ c entries, Build.ComesToLanguages compiler config id w c entries ∧
        Build.TableLeft config id entries w w' path) ∧
    ∀ code path, Build.tablePath w.files config (w.project id) (.text code) = .ok path →
      (∀ code' path', Build.tablePath w.files config (w.project id) (.text code') = .ok path' →
        code ≠ code' → path ≠ path') ∧
      w.files.absolute (w.project id).path ≠ .ok (.text path) := by
  refine ⟨fun path hchanged => ?_, fun code path hpath => ⟨fun code' path' hpath' hne => ?_, ?_⟩⟩
  · have hfiles : w'.files ≠ w.files := fun hfiles => by
      rw [hfiles] at hchanged
      exact hchanged (.refl _ _)
    cases hadmitted : Build.precondition (w.project id) with
    | error e =>
        rw [Build.exec_build_of_error compiler config hadmitted] at h
        obtain ⟨-, rfl⟩ := Prod.mk.inj h
        exact absurd rfl hfiles
    | ok _ =>
        cases hbuilding : (w.project id).building with
        | true =>
            rw [Build.exec_build_of_building compiler config hadmitted hbuilding] at h
            obtain ⟨-, rfl⟩ := Prod.mk.inj h
            exact absurd rfl hfiles
        | false =>
            rw [Build.exec_build_of_admitted compiler config hadmitted hbuilding] at h
            obtain ⟨-, rfl⟩ := Prod.mk.inj h
            obtain ⟨c, entries, hcomes, hwritten⟩ :=
              (Build.run_writes_of_languages hsound hcompiler hadmitted).resolve_left hfiles
            exact ⟨c, entries, hcomes, Build.tableLeft_of_writtenAt hstrict hwritten hchanged⟩
  · rintro rfl
    exact hne (Build.display_eq_of_tablePath hpath hpath')
  · intro habsolute
    exact Nat.lt_irrefl _ (Build.length_lt_of_tablePath hpath hsuffix habsolute)

theorem changed_file_is_table_untranslated :
    ∃ report w' c entries,
      (build (.returning .greeting) {} (some 0)).exec World.untranslated = (.ok report, w') ∧
      ¬FileSystem.SameAt (.text "intro(de).csv.tres") World.untranslated.files w'.files ∧
      Build.ComesToLanguages (.returning .greeting) {} 0 World.untranslated c entries ∧
      Build.TableLeft {} 0 entries World.untranslated w' "intro(de).csv.tres" ∧
      ∀ path, Build.tablePath World.untranslated.files {} (World.untranslated.project 0)
        (.text "fr") = .ok path → "intro(de).csv.tres" ≠ path := by
  obtain ⟨report, w', h, -⟩ := Action.exec_eq_ok_of_map
    (a := build (.returning .greeting) {} (some 0)) (w := World.untranslated)
    (f := BuildReport.status) (y := .ok) (by decide +kernel)
  obtain ⟨hchanges, hplaces⟩ := changed_file_is_table World.sound_untranslated
    (Compiler.keepsStore_returning _ _) (FileSystem.orderly_memory _).strict rfl h
  have hchanged : ¬FileSystem.SameAt (.text "intro(de).csv.tres") World.untranslated.files
      w'.files := by
    intro hsame
    have hexists : (((build (.returning .greeting) {} (some 0)).exec
        World.untranslated).2.files.existsAt (.text "intro(de).csv.tres")).toOption =
        some true := by
      decide +kernel
    rw [h, hsame.existsAt] at hexists
    revert hexists
    decide +kernel
  obtain ⟨c, entries, hcomes, hleft⟩ := hchanges _ hchanged
  exact ⟨report, w', c, entries, h, hchanged, hcomes, hleft,
    fun path hpath => (hplaces "de" _ rfl).1 "fr" path hpath (by decide)⟩

end Dialogue
