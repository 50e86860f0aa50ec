/-! Byte lists, and numbers as bytes with the highest byte first. -/

namespace Dialogue

abbrev Bytes := List UInt8

/-- The low `count` bytes of `n`, highest first. -/
def bigEndian (count n : Nat) : Bytes :=
  (List.range count).reverse.map fun i => UInt8.ofNat (n / Nat.pow 256 i)

def bigEndianValue (bytes : Bytes) : Nat :=
  bytes.foldl (fun n b => 256 * n + b.toNat) 0

end Dialogue
