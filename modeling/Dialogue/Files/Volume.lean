import Dialogue.Bytes
import Dialogue.Fault

/-! Files that are kept elsewhere. All that is known of a volume is how it answers. -/

namespace Dialogue

/-- A file system that is given by its answers. They depend on what the volume has in store. -/
structure Volume where
  /-- What is in store, in a form of the volume's own. -/
  store : Bytes := []
  existsAt : Bytes → String → Bool
  readText : Bytes → String → Value → Except Fault String
  /-- Stores a text at a path in an encoding. What is in store may change also when the text is
  refused. -/
  writeText : Bytes → String → String → Value → Except Fault Unit × Bytes
  absolute : String → String

end Dialogue
