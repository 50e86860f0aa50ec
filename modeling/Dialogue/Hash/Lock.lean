import Dialogue.Hash.Sha256

/-! A lock is the front of a digest of a line in the base language. It changes when the line
changes, which marks the versions of the line in other languages as stale. -/

namespace Dialogue.Hash

/-- The digest of a text as 64 hexadecimal digits, or the front of it of a given length. There is
no cut without a length or below zero. -/
def ofText (text : String) (length : Option Int) : String :=
  let digest := Sha256.hexDigest text.toUTF8.toList
  match length with
  | none => String.ofList digest
  | some n => String.ofList (if n < 0 then digest else digest.take n.toNat)

def defaultLockLength : Int := 8

end Dialogue.Hash
