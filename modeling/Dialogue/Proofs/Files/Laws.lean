import Dialogue.Files.FileSystem

/-! What can be relied on when texts are written to files and read again, as laws of a file system
and of all that may become of it. Files in memory obey them all. -/

namespace Dialogue.FileSystem

/-- What may become of a file system when texts are written to it. -/
inductive Later (fs : FileSystem) : FileSystem → Prop
  | refl : Later fs fs
  | write {fs' : FileSystem} (h : Later fs fs') (path text : String) (encoding : Value) :
      Later fs (fs'.writeText path text encoding).2

/-- Agreement in all that can be seen at a path. -/
structure SameAt (path : Value) (fs fs' : FileSystem) : Prop where
  existsAt : fs'.existsAt path = fs.existsAt path
  readText : ∀ encoding, fs'.readText path encoding = fs.readText path encoding

/-- The files when texts have been written at a path, each in its encoding. Files are written at
texts only. -/
def writeAll (fs : FileSystem) (path : Value) (texts : List (String × Value)) : FileSystem :=
  match path with
  | .text p => texts.foldl (fun fs t => (fs.writeText p t.1 t.2).2) fs
  | _ => fs

/-- The same file at a path: no texts that are written there tell the two file systems apart. -/
structure SameFile (path : Value) (fs fs' : FileSystem) : Prop where
  seen : ∀ texts, SameAt path (fs.writeAll path texts) (fs'.writeAll path texts)
  taken : ∀ texts p, path = .text p → ∀ text encoding,
    ((fs'.writeAll path texts).writeText p text encoding).1 =
      ((fs.writeAll path texts).writeText p text encoding).1

/-- A file system in which a path stands for a file of its own, and a file is not changed by writing
once more what has just been written. -/
structure Separate (fs : FileSystem) : Prop where
  /-- What is done at a path leaves the files at all other paths alone. -/
  apart : ∀ {fs'}, fs.Later fs' → ∀ path text encoding other, other ≠ .text path →
    SameFile other fs' (fs'.writeText path text encoding).2
  /-- A text is taken or refused once more as it was before. -/
  again : ∀ {fs'}, fs.Later fs' → ∀ path text encoding,
    ((fs'.writeText path text encoding).2.writeText path text encoding).1 =
      (fs'.writeText path text encoding).1
  /-- A text is stored once more without a difference. -/
  same : ∀ {fs'}, fs.Later fs' → ∀ path text encoding,
    SameFile (.text path) (fs'.writeText path text encoding).2
      ((fs'.writeText path text encoding).2.writeText path text encoding).2

/-- A file system in which a path stands for a file of its own, a file holds what was written last,
and an access is either always possible or always refused. -/
structure Orderly (fs : FileSystem) : Prop where
  /-- What is done at a path leaves what is seen at all other paths alone. -/
  apart : ∀ {fs'}, fs.Later fs' → ∀ path text encoding other, other ≠ .text path →
    SameAt other fs' (fs'.writeText path text encoding).2
  /-- A text is always taken, or always refused for the same reason. -/
  steady : ∀ {fs'}, fs.Later fs' → ∀ path text encoding,
    (fs'.writeText path text encoding).1 = (fs.writeText path text encoding).1
  /-- The text that was written last decides what is seen, whatever was there before. -/
  lasting : ∀ {fs'}, fs.Later fs' → ∀ path text encoding,
    (fs.writeText path text encoding).1 = .ok () →
    SameAt (.text path) (fs.writeText path text encoding).2 (fs'.writeText path text encoding).2
  /-- A text that is refused is not stored. -/
  refused : ∀ {fs'}, fs.Later fs' → ∀ path text encoding e,
    (fs'.writeText path text encoding).1 = .error e →
    (fs'.writeText path text encoding).2 = fs'

/-- A file in which a text can be kept: it is taken there and reads back, and it stays whatever
files the same text is written to, be they this one under another path. -/
structure KeepsText (fs : FileSystem) (path text : String) (encoding : Value) : Prop where
  taken : ∀ {fs'}, fs.Later fs' → (fs'.writeText path text encoding).1 = .ok ()
  back : ∀ {fs'}, fs.Later fs' →
    (fs'.writeText path text encoding).2.readText (.text path) encoding = .ok text
  stays : ∀ {fs'}, fs.Later fs' → ∀ other, fs'.readText (.text path) encoding = .ok text →
    (fs'.writeText other text encoding).2.readText (.text path) encoding = .ok text

section Laws

variable {fs fs' fs'' : FileSystem} {path : Value}

theorem Later.trans (h : fs.Later fs') (h' : fs'.Later fs'') : fs.Later fs'' := by
  induction h' with
  | refl => exact h
  | write _ path text encoding ih => exact ih.write path text encoding

/-- A text that can be read off an answer is the answer. -/
theorem eq_ok_of_toOption {answer : Except Fault String} {text : String}
    (h : answer.toOption = some text) : answer = .ok text := by
  cases answer with
  | error e => cases h
  | ok text' => rw [Option.some.inj h]

/-- Absolute paths do not depend on what is in the files. -/
theorem Later.absolute (h : fs.Later fs') (path : Value) :
    fs'.absolute path = fs.absolute path := by
  induction h with
  | refl => rfl
  | @write fs' _ target text encoding ih =>
      rw [← ih]
      cases fs' with
      | memory m =>
          rw [writeText]
          split
          · rfl
          · split
            · rfl
            · split <;> rfl
      | directory t =>
          rw [writeText]
          split
          · rfl
          · split
            · rfl
            · split
              · rfl
              · split <;> rfl
      | volume v => rfl

namespace SameAt

theorem refl (path : Value) (fs : FileSystem) : SameAt path fs fs :=
  ⟨rfl, fun _ => rfl⟩

theorem trans (h : SameAt path fs fs') (h' : SameAt path fs' fs'') : SameAt path fs fs'' :=
  ⟨h'.existsAt.trans h.existsAt, fun e => (h'.readText e).trans (h.readText e)⟩

theorem symm (h : SameAt path fs fs') : SameAt path fs' fs :=
  ⟨h.existsAt.symm, fun e => (h.readText e).symm⟩

end SameAt

theorem writeAll_nil (fs : FileSystem) (path : Value) : fs.writeAll path [] = fs := by
  unfold writeAll
  split <;> rfl

/-- At what is not a text nothing is ever written. -/
theorem writeAll_of_ne (fs : FileSystem) (h : ∀ p, path ≠ .text p) (texts : List (String × Value)) :
    fs.writeAll path texts = fs := by
  rw [writeAll]
  exact h

namespace SameFile

theorem refl (path : Value) (fs : FileSystem) : SameFile path fs fs :=
  ⟨fun _ => .refl _ _, fun _ _ _ _ _ => rfl⟩

theorem trans (h : SameFile path fs fs') (h' : SameFile path fs' fs'') : SameFile path fs fs'' :=
  ⟨fun texts => (h.seen texts).trans (h'.seen texts),
    fun texts p hp text encoding =>
      (h'.taken texts p hp text encoding).trans (h.taken texts p hp text encoding)⟩

theorem symm (h : SameFile path fs fs') : SameFile path fs' fs :=
  ⟨fun texts => (h.seen texts).symm, fun texts p hp text encoding =>
    (h.taken texts p hp text encoding).symm⟩

theorem sameAt (h : SameFile path fs fs') : SameAt path fs fs' := by
  have hseen := h.seen []
  rwa [writeAll_nil, writeAll_nil] at hseen

theorem readText (h : SameFile path fs fs') (encoding : Value) :
    fs'.readText path encoding = fs.readText path encoding :=
  h.sameAt.readText encoding

variable {p : String}

theorem writeText_fst (h : SameFile (.text p) fs fs') (text : String) (encoding : Value) :
    (fs'.writeText p text encoding).1 = (fs.writeText p text encoding).1 :=
  h.taken [] p rfl text encoding

/-- The same text written to the same file gives the same file. -/
theorem writeText_snd (h : SameFile (.text p) fs fs') (text : String) (encoding : Value) :
    SameFile (.text p) (fs.writeText p text encoding).2 (fs'.writeText p text encoding).2 :=
  ⟨fun texts => h.seen ((text, encoding) :: texts),
    fun texts q hq text' encoding' => h.taken ((text, encoding) :: texts) q hq text' encoding'⟩

end SameFile

/-- The laws hold of all that becomes of an orderly file system. -/
theorem Orderly.later (h : fs.Orderly) (hlater : fs.Later fs') : fs'.Orderly where
  apart hlater' := h.apart (hlater.trans hlater')
  steady hlater' path text encoding :=
    (h.steady (hlater.trans hlater') path text encoding).trans
      (h.steady hlater path text encoding).symm
  lasting hlater' path text encoding hwritten := by
    rw [h.steady hlater] at hwritten
    exact (h.lasting hlater path text encoding hwritten).symm.trans
      (h.lasting (hlater.trans hlater') path text encoding hwritten)
  refused hlater' := h.refused (hlater.trans hlater')

/-- In an orderly file system a file is what is seen of it. -/
theorem Orderly.sameFile (h : fs.Orderly) (h' : fs.Later fs') (h'' : fs.Later fs'')
    (hsame : SameAt path fs' fs'') : SameFile path fs' fs'' := by
  by_cases hpath : ∃ p, path = .text p
  case neg =>
    have hne : ∀ p, path ≠ .text p := fun p hp => hpath ⟨p, hp⟩
    exact ⟨fun texts => by rwa [writeAll_of_ne _ hne, writeAll_of_ne _ hne],
      fun _ p hp => absurd hp (hne p)⟩
  case pos =>
    obtain ⟨p, rfl⟩ := hpath
    have hwrites : ∀ texts, fs.Later (fs'.writeAll (.text p) texts) ∧
        fs.Later (fs''.writeAll (.text p) texts) ∧
        SameAt (.text p) (fs'.writeAll (.text p) texts) (fs''.writeAll (.text p) texts) := by
      intro texts
      induction texts generalizing fs' fs'' with
      | nil => exact ⟨h', h'', hsame⟩
      | cons t texts ih =>
          refine ih (h'.write p t.1 t.2) (h''.write p t.1 t.2) ?_
          change SameAt _ (fs'.writeText p t.1 t.2).2 (fs''.writeText p t.1 t.2).2
          cases hresult : (fs.writeText p t.1 t.2).1 with
          | ok _ =>
              exact (h.lasting h' p t.1 t.2 hresult).symm.trans (h.lasting h'' p t.1 t.2 hresult)
          | error e =>
              rw [h.refused h' p t.1 t.2 e (by rw [h.steady h', hresult]),
                h.refused h'' p t.1 t.2 e (by rw [h.steady h'', hresult])]
              exact hsame
    refine ⟨fun texts => (hwrites texts).2.2, fun texts q _ text encoding => ?_⟩
    obtain ⟨hlater', hlater'', -⟩ := hwrites texts
    rw [h.steady hlater', h.steady hlater'']

theorem Orderly.separate (h : fs.Orderly) : fs.Separate where
  apart hlater path text encoding other hother :=
    h.sameFile hlater (hlater.write _ _ _) (h.apart hlater path text encoding other hother)
  again hlater path text encoding := by
    rw [h.steady (hlater.write _ _ _), h.steady hlater]
  same {fs'} hlater path text encoding := by
    refine h.sameFile (hlater.write _ _ _) ((hlater.write _ _ _).write _ _ _) ?_
    cases hresult : (fs.writeText path text encoding).1 with
    | ok _ =>
        exact (h.lasting hlater path text encoding hresult).symm.trans
          (h.lasting (hlater.write _ _ _) path text encoding hresult)
    | error e =>
        rw [h.refused (hlater.write _ _ _) path text encoding e
          (by rw [h.steady (hlater.write _ _ _), hresult])]
        exact .refl _ _

/-- An orderly file system keeps every text that reads back once. -/
theorem Orderly.keepsText (h : fs.Orderly) {path text : String} {encoding : Value}
    (htaken : (fs.writeText path text encoding).1 = .ok ())
    (hback : (fs.writeText path text encoding).2.readText (.text path) encoding = .ok text) :
    fs.KeepsText path text encoding := by
  have hagain : ∀ {fs'}, fs.Later fs' →
      (fs'.writeText path text encoding).2.readText (.text path) encoding = .ok text := by
    intro fs' hlater
    rw [(h.lasting hlater path text encoding htaken).readText, hback]
  refine ⟨fun hlater => (h.steady hlater path text encoding).trans htaken, hagain, ?_⟩
  intro fs' hlater other hread
  by_cases hother : other = path
  · rw [hother]
    exact hagain hlater
  · rw [(h.apart hlater other text encoding (.text path) (by simpa using Ne.symm hother)).readText,
      hread]

end Laws

end Dialogue.FileSystem

/-! ## Files in memory -/

namespace Dialogue.MemoryFiles

theorem find?_put (m : MemoryFiles) (path : String) (file : StoredFile) (other : String) :
    (m.put path file).find? other = if other = path then some file else m.find? other := by
  have hcons : ∀ (p : String) (f : StoredFile) (files : List (String × StoredFile)),
      ((p, f) :: files).lookup other = if other = p then some f else files.lookup other := by
    intro p f files
    by_cases h : other = p
    · simp [h]
    · simp [List.lookup_cons, beq_false_of_ne h, h]
  have hlookup : ∀ files : List (String × StoredFile),
      (put.insert path file files).lookup other =
        if other = path then some file else files.lookup other := by
    intro files
    induction files with
    | nil => exact hcons path file []
    | cons e files ih =>
        obtain ⟨p, f⟩ := e
        rw [put.insert]
        by_cases hp : p = path
        · rw [if_pos hp, hp, hcons, hcons]
          split <;> rfl
        · rw [if_neg hp, hcons, hcons, ih]
          by_cases h : other = p
          · rw [if_pos h, if_neg fun h' => hp (h.symm.trans h'), if_pos h]
          · rw [if_neg h, if_neg h]
  exact hlookup m.files

/-- Bytes are put only where they are not refused, and this does not change. -/
theorem refusal?_put {m : MemoryFiles} {path : String} (h : m.refusal? path = none)
    (content : Bytes) (other : String) :
    (m.put path (.bytes content)).refusal? other = m.refusal? other := by
  rw [refusal?, find?_put]
  by_cases hother : other = path
  · subst hother
    rw [if_pos rfl, h]
    rw [refusal?] at h
    split at h
    · cases h
    · exact h
  · rw [if_neg hother]
    rfl

end Dialogue.MemoryFiles

namespace Dialogue.FileSystem

section Memory

variable {m : MemoryFiles} {fs : FileSystem} (path text : String) (encoding : Value)

/-- In memory a text is refused, or it is stored, whatever files there are. -/
theorem writeText_memory_cases (m : MemoryFiles) :
    (∃ e, ∀ m' : MemoryFiles, m'.refusal? path = m.refusal? path →
      (memory m').writeText path text encoding = (.error e, .memory m')) ∨
    (m.refusal? path = none ∧ ∃ content, ∀ m' : MemoryFiles,
      m'.refusal? path = m.refusal? path → (memory m').writeText path text encoding =
        (.ok (), .memory (m'.put path (.bytes content)))) := by
  cases hpath : m.refusal? path with
  | some refusal =>
      refine .inl ⟨.file (.medium refusal), fun m' hm' => ?_⟩
      simp only [writeText, hm']
  | none =>
      cases hencoding : encodingOf encoding with
      | error e => exact .inl ⟨e, fun m' hm' => by simp only [writeText, hm', hencoding]⟩
      | ok e =>
          cases hcontent : e.encode text.toList with
          | error f =>
              refine .inl ⟨.encoding f, fun m' hm' => ?_⟩
              simp only [writeText, hm', hencoding, hcontent]
          | ok content =>
              refine .inr ⟨rfl, content, fun m' hm' => ?_⟩
              simp only [writeText, hm', hencoding, hcontent]

/-- Files in memory stay there, and no path begins or ceases to refuse texts. -/
theorem later_memory (h : (memory m).Later fs) :
    ∃ m' : MemoryFiles, fs = .memory m' ∧ ∀ path, m'.refusal? path = m.refusal? path := by
  induction h with
  | refl => exact ⟨m, rfl, fun _ => rfl⟩
  | write _ path text encoding ih =>
      obtain ⟨m', rfl, hrefusal⟩ := ih
      rcases writeText_memory_cases path text encoding m' with ⟨e, he⟩ | ⟨hpath, content, hcontent⟩
      · rw [he m' rfl]
        exact ⟨m', rfl, hrefusal⟩
      · rw [hcontent m' rfl]
        exact ⟨_, rfl, fun other =>
          (MemoryFiles.refusal?_put hpath content other).trans (hrefusal other)⟩

/-- What is seen in memory at a path depends on what is found there alone. -/
theorem sameAt_memory {m m' : MemoryFiles} (h : m'.find? path = m.find? path) :
    SameAt (.text path) (memory m) (.memory m') :=
  ⟨by simp only [existsAt, h], fun _ => by simp only [readText, h]⟩

theorem apart_memory (m : MemoryFiles) (file : StoredFile) {other : Value}
    (h : other ≠ .text path) : SameAt other (memory m) (.memory (m.put path file)) := by
  match other with
  | .text p =>
      refine sameAt_memory p ?_
      rw [MemoryFiles.find?_put, if_neg fun hp => h (by rw [hp])]
  | .null | .bool _ | .int _ | .float _ | .scalar (.text ⟨_, _ :: _⟩) | .scalar (.bytes _)
  | .scalar (.asset ..) | .list _ | .mapping _ => exact ⟨rfl, fun _ => rfl⟩

/-- Files in memory are orderly. -/
theorem orderly_memory (m : MemoryFiles) : (memory m).Orderly := by
  constructor
  case apart =>
    intro fs' hlater path text encoding other hother
    obtain ⟨m', rfl, -⟩ := later_memory hlater
    rcases writeText_memory_cases path text encoding m' with ⟨e, he⟩ | ⟨-, content, hcontent⟩
    · rw [he m' rfl]
      exact .refl _ _
    · rw [hcontent m' rfl]
      exact apart_memory path m' _ hother
  case steady =>
    intro fs' hlater path text encoding
    obtain ⟨m', rfl, hrefusal⟩ := later_memory hlater
    rcases writeText_memory_cases path text encoding m with ⟨e, he⟩ | ⟨-, content, hcontent⟩
    · rw [he m rfl, he m' (hrefusal path)]
    · rw [hcontent m rfl, hcontent m' (hrefusal path)]
  case lasting =>
    intro fs' hlater path text encoding hwritten
    obtain ⟨m', rfl, hrefusal⟩ := later_memory hlater
    rcases writeText_memory_cases path text encoding m with ⟨e, he⟩ | ⟨-, content, hcontent⟩
    · rw [he m rfl] at hwritten
      cases hwritten
    · rw [hcontent m rfl, hcontent m' (hrefusal path)]
      refine sameAt_memory path ?_
      rw [MemoryFiles.find?_put, MemoryFiles.find?_put, if_pos rfl, if_pos rfl]
  case refused =>
    intro fs' hlater path text encoding e hrefused
    obtain ⟨m', rfl, -⟩ := later_memory hlater
    rcases writeText_memory_cases path text encoding m' with ⟨e', he⟩ | ⟨-, content, hcontent⟩
    · rw [he m' rfl]
    · rw [hcontent m' rfl] at hrefused
      cases hrefused

end Memory

end Dialogue.FileSystem
