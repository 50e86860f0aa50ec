import Dialogue.Bytes
import Dialogue.Json.Writer
import Dialogue.Program

/-! A blob is the length of its payload in four bytes, highest first, and the payload: the JSON text
of a program in UTF-8. -/

namespace Dialogue

namespace Blob

/-- The bytes of the length in front of a payload. -/
def lengthSize : Nat := 4

def tooLong : String :=
  "'I' format requires 0 <= number <= 4294967295"

/-- A payload with its length in front. -/
def frame (payload : Bytes) : Except Fault Bytes :=
  if payload.length < Nat.pow 256 lengthSize then
    .ok (bigEndian lengthSize payload.length ++ payload)
  else .error (.unserializable tooLong)

def unframe (blob : Bytes) : Except Fault Bytes :=
  if blob.length < lengthSize then .error .programTruncated
  else
    let announced := bigEndianValue (blob.take lengthSize)
    let payload := blob.drop lengthSize
    if payload.length = announced then .ok payload
    else .error (.programLength announced payload.length)

def payloadText (p : Program) : Except Fault String :=
  (Json.render p.toValue).mapError fun f => .mismatch (.unwritable f)

def encode (p : Program) : Except Fault Bytes :=
  (payloadText p).bind fun text => frame (Text.Utf8.encode text.toList)

def ofPayload (payload : Bytes) : Except Fault Program := do
  let text ← (Text.Encoding.decodeUtf8 payload).mapError Fault.encoding
  let document ← (Json.parse (String.ofList text)).mapError Fault.json
  Program.ofValue document

/-- The program of a blob. Whatever is wrong with the payload is the cause of a refusal. -/
def decode (blob : Bytes) : Except Fault Program :=
  match unframe blob with
  | .error e => .error e
  | .ok payload =>
    match ofPayload payload with
    | .ok p => .ok p
    | .error cause => .error (if cause.refusesPayload then .programPayload cause else cause)

/-- As `decode`, for a project that may have no blob. -/
def decode? : Option Bytes → Except Fault Program
  | none => .error .programTruncated
  | some blob => decode blob

end Blob

end Dialogue
