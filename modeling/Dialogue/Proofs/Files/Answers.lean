import Dialogue.Proofs.Files.Laws

/-! What an access may be refused for where files can be anything but their paths and the encoding
are as they should be: the medium refuses it, or bytes and texts are not of the encoding. Files in
memory answer in every encoding that there is. -/

namespace Dialogue

def Fault.isUnencodable : Fault → Bool
  | .encoding (.unencodable ..) => true
  | _ => false

theorem Fault.isUnreadable_of_isUndecodable {e : Fault} (h : e.isUndecodable = true) :
    e.isUnreadable = true := by
  cases e <;> first | exact h | cases h

theorem Fault.skipsLanguage_of_isUnreadable {e : Fault} (h : e.isUnreadable = true) :
    e.skipsLanguage = true := by
  cases e <;> first | exact h | rfl

/-- A place for a path as a project has it: a text, or null where there is no path. -/
def Value.IsPath (v : Value) : Prop :=
  v = .null ∨ ∃ p, v = .text p

namespace FileSystem

/-- A file system that is asked at texts, for one encoding, now and after any writes. -/
structure Answers (fs : FileSystem) (encoding : Value) : Prop where
  existsAt : ∀ {fs'}, fs.Later fs' → ∀ path : String, ∃ found, fs'.existsAt (.text path) = .ok found
  readText : ∀ {fs'}, fs.Later fs' → ∀ (path : String) e,
    fs'.readText (.text path) encoding = .error e → e.isUnreadable = true
  writeText : ∀ {fs'}, fs.Later fs' → ∀ path text e,
    (fs'.writeText path text encoding).1 = .error e →
    e.isUnreadable = true ∨ e.isUnencodable = true
  absolute : ∀ path : String, ∃ path' : String, fs.absolute (.text path) = .ok (.text path')

theorem Answers.later {fs fs' : FileSystem} {encoding : Value} (h : fs.Answers encoding)
    (hlater : fs.Later fs') : fs'.Answers encoding where
  existsAt hlater' := h.existsAt (hlater.trans hlater')
  readText hlater' := h.readText (hlater.trans hlater')
  writeText hlater' := h.writeText (hlater.trans hlater')
  absolute path := by
    rw [hlater.absolute]
    exact h.absolute path

end FileSystem

/-! ## Encodings -/

namespace Text.Encoding

theorem isUnencodable_of_encodeBytes {encoding : Encoding} {text : List Char} {place : Nat}
    {f : EncodingFault} (h : encodeBytes encoding place text = .error f) :
    (Fault.encoding f).isUnencodable = true := by
  induction text generalizing place with
  | nil => cases h
  | cons c rest ih =>
      rw [encodeBytes] at h
      split at h
      · cases hrest : encodeBytes encoding (place + 1) rest with
        | error f' =>
            rw [hrest] at h
            obtain rfl : f' = f := Except.error.inj h
            exact ih hrest
        | ok bytes =>
            rw [hrest] at h
            cases h
      · cases h
        rfl

theorem isUnencodable_of_encode {encoding : Encoding} {text : List Char} {f : EncodingFault}
    (h : encoding.encode text = .error f) : (Fault.encoding f).isUnencodable = true := by
  cases encoding with
  | utf8 | markedUtf8 => cases h
  | latin1 | ascii => exact isUnencodable_of_encodeBytes h

theorem isUndecodable_of_decodeUtf8 {bytes : List UInt8} {f : EncodingFault}
    (h : decodeUtf8 bytes = .error f) : (Fault.encoding f).isUndecodable = true := by
  rw [decodeUtf8] at h
  cases hdecode : Utf8.decode bytes with
  | ok text =>
      rw [hdecode] at h
      cases h
  | error f' =>
      rw [hdecode] at h
      cases h
      rfl

theorem isUndecodable_of_decodeAscii {bytes : List UInt8} {place : Nat} {f : EncodingFault}
    (h : decodeAscii place bytes = .error f) : (Fault.encoding f).isUndecodable = true := by
  induction bytes generalizing place with
  | nil => cases h
  | cons b rest ih =>
      rw [decodeAscii] at h
      split at h
      · cases hrest : decodeAscii (place + 1) rest with
        | error f' =>
            rw [hrest] at h
            obtain rfl : f' = f := Except.error.inj h
            exact ih hrest
        | ok text =>
            rw [hrest] at h
            cases h
      · cases h
        rfl

theorem isUndecodable_of_decode {encoding : Encoding} {bytes : List UInt8} {f : EncodingFault}
    (h : encoding.decode bytes = .error f) : (Fault.encoding f).isUndecodable = true := by
  cases encoding with
  | utf8 | markedUtf8 => exact isUndecodable_of_decodeUtf8 h
  | latin1 => cases h
  | ascii => exact isUndecodable_of_decodeAscii h

end Text.Encoding

/-! ## Files in memory -/

namespace FileSystem

theorem isUndecodable_of_decodeBytes {content : Bytes} {encoding : Value} {e : Text.Encoding}
    (hencoding : encodingOf encoding = .ok e) {fault : Fault}
    (h : decodeBytes content encoding = .error fault) : fault.isUndecodable = true := by
  unfold decodeBytes at h
  split at h
  · split at h
    · cases h
    · rw [hencoding] at h
      cases hdecode : e.decode content with
      | ok text =>
          simp only [hdecode] at h
          cases h
      | error f =>
          simp only [hdecode] at h
          cases h
          exact Text.Encoding.isUndecodable_of_decode hdecode
  · rename_i hnone
    unfold encodingOf at hencoding
    split at hencoding
    · exact absurd rfl (hnone _)
    · cases hencoding

/-- Files in memory answer in every encoding. -/
theorem answers_memory (m : MemoryFiles) {encoding : Value} {e : Text.Encoding}
    (hencoding : encodingOf encoding = .ok e) : (memory m).Answers encoding := by
  constructor
  case existsAt =>
    intro fs' hlater path
    obtain ⟨m', rfl, -⟩ := later_memory hlater
    exact ⟨_, rfl⟩
  case readText =>
    intro fs' hlater path fault h
    obtain ⟨m', rfl, -⟩ := later_memory hlater
    unfold FileSystem.readText at h
    dsimp only at h
    split at h
    · cases h
      rfl
    · cases h
      rfl
    · exact Fault.isUnreadable_of_isUndecodable (isUndecodable_of_decodeBytes hencoding h)
  case writeText =>
    intro fs' hlater path text fault h
    obtain ⟨m', rfl, -⟩ := later_memory hlater
    simp only [FileSystem.writeText, hencoding] at h
    cases hrefusal : m'.refusal? path with
    | some refusal =>
        rw [hrefusal] at h
        cases h
        exact .inl rfl
    | none =>
        rw [hrefusal] at h
        cases hencode : e.encode text.toList with
        | ok content =>
            simp only [hencode] at h
            cases h
        | error f =>
            simp only [hencode] at h
            cases h
            exact .inr (Text.Encoding.isUnencodable_of_encode hencode)
  case absolute => exact fun path => ⟨path, rfl⟩

end FileSystem

end Dialogue
