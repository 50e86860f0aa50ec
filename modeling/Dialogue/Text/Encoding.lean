import Dialogue.Text.Quoted
import Dialogue.Text.Utf8

/-! The encodings in which source documents and string tables may be stored. -/

namespace Dialogue.Text

inductive Encoding where
  | utf8
  | markedUtf8
  | latin1
  | ascii
  deriving DecidableEq

inductive EncodingFault where
  | unknown (name : String)
  | undecodableUtf8 (fault : Utf8.Fault)
  | undecodableAscii (place : Nat) (byte : UInt8)
  /-- The characters from `start` up to but without `stop`, the first of which is `char`. -/
  | unencodable (encoding : Encoding) (start stop : Nat) (char : Char)
  deriving DecidableEq

namespace Encoding

/-- Lowercase letters and digits with one underscore for all that stands between them. -/
def normalName : List Char → List Char
  | [] => []
  | c :: rest =>
    if c.isAlphanum || c == '.' then c.toLower :: normalName rest
    else match normalName rest with
      | [] => []
      | d :: rest => if d = '_' then d :: rest else '_' :: d :: rest

/-- The encoding of a name. Case and punctuation do not count. -/
def ofName? (name : String) : Option Encoding :=
  let start := name.toList.dropWhile fun c => !(c.isAlphanum || c == '.')
  let normal := String.ofList (normalName start)
  if ["utf_8", "utf8", "u8", "utf", "utf8_ucs2", "utf8_ucs4", "cp65001"].contains normal then
    some .utf8
  else if normal = "utf_8_sig" then some .markedUtf8
  else if ["latin_1", "latin1", "latin", "l1", "iso_8859_1", "iso8859_1", "iso8859", "8859",
      "iso_ir_100", "cp819", "ibm819", "csisolatin1", "iso_8859_1_1987"].contains normal then
    some .latin1
  else if ["ascii", "us_ascii", "us", "646", "cp367", "csascii", "ibm367", "iso646_us", "iso_ir_6",
      "ansi_x3.4_1968", "ansi_x3_4_1968", "ansi_x3.4_1986", "iso_646.irv_1991"].contains normal then
    some .ascii
  else none

def name : Encoding → String
  | .utf8 | .markedUtf8 => "utf-8"
  | .latin1 => "latin-1"
  | .ascii => "ascii"

def size : Encoding → Nat
  | .ascii => 128
  | _ => 256

def mark : List UInt8 := [0xef, 0xbb, 0xbf]

/-- One byte per character, up to the first run of characters beyond the encoding's last. -/
def encodeBytes (encoding : Encoding) (place : Nat) : List Char → Except EncodingFault (List UInt8)
  | [] => .ok []
  | c :: rest =>
    if c.toNat < encoding.size then
      (encodeBytes encoding (place + 1) rest).map (UInt8.ofNat c.toNat :: ·)
    else
      let run := (rest.takeWhile fun d => decide (encoding.size ≤ d.toNat)).length
      .error (.unencodable encoding place (place + 1 + run) c)

def encode (encoding : Encoding) (text : List Char) : Except EncodingFault (List UInt8) :=
  match encoding with
  | .utf8 => .ok (Utf8.encode text)
  | .markedUtf8 => .ok (mark ++ Utf8.encode text)
  | .latin1 | .ascii => encodeBytes encoding 0 text

def decodeUtf8 (bytes : List UInt8) : Except EncodingFault (List Char) :=
  (Utf8.decode bytes).mapError .undecodableUtf8

def decodeAscii (place : Nat) : List UInt8 → Except EncodingFault (List Char)
  | [] => .ok []
  | b :: rest =>
    if b < 128 then (decodeAscii (place + 1) rest).map (Char.ofNat b.toNat :: ·)
    else .error (.undecodableAscii place b)

/-- Places in a refusal count from behind a byte order mark. -/
def decode (encoding : Encoding) (bytes : List UInt8) : Except EncodingFault (List Char) :=
  match encoding with
  | .utf8 => decodeUtf8 bytes
  | .markedUtf8 => decodeUtf8 (if mark.isPrefixOf bytes then bytes.drop 3 else bytes)
  | .latin1 => .ok (bytes.map fun b => Char.ofNat b.toNat)
  | .ascii => decodeAscii 0 bytes

/-- Reading from an open file. The beginning of a byte order mark alone is no text. -/
def decodeStream (encoding : Encoding) (bytes : List UInt8) : Except EncodingFault (List Char) :=
  if encoding = .markedUtf8 ∧ bytes.length < 3 ∧ bytes.isPrefixOf mark then .ok []
  else encoding.decode bytes

end Encoding

def byteText (b : UInt8) : String :=
  "0x" ++ String.ofList (hexDigits 2 b.toNat)

def EncodingFault.message : EncodingFault → String
  | .unknown name => "unknown encoding: " ++ name
  | .undecodableUtf8 f =>
    "'utf-8' codec can't decode " ++
      (if f.stop = f.start + 1 then
        "byte " ++ byteText f.byte ++ " in position " ++ toString f.start
      else "bytes in position " ++ toString f.start ++ "-" ++ toString (f.stop - 1))
      ++ ": " ++ f.reason.message
  | .undecodableAscii place b =>
    "'ascii' codec can't decode byte " ++ byteText b ++ " in position " ++ toString place
      ++ ": ordinal not in range(128)"
  | .unencodable encoding start stop c =>
    "'" ++ encoding.name ++ "' codec can't encode " ++
      (if stop = start + 1 then
        "character '" ++ String.ofList (escapeCode c.toNat) ++ "' in position " ++ toString start
      else "characters in position " ++ toString start ++ "-" ++ toString (stop - 1))
      ++ ": ordinal not in range(" ++ toString encoding.size ++ ")"

end Dialogue.Text
