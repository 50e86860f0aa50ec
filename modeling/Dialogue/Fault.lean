import Dialogue.Json.Basic
import Dialogue.Json.Writer
import Dialogue.StringTable
import Dialogue.Text.Base64
import Dialogue.Text.Encoding
import Dialogue.Value.Display

/-! Everything that can go wrong, by cause. `Fault.message` words a cause; the predicates say which
causes a step of a build absorbs. -/

namespace Dialogue

/-- A value of a kind that an operation is not made for. -/
inductive Mismatch where
  | unhashable (kind : String)
  | operand (value : Value)
  | unwritable (fault : Json.WriteFault)
  | other

def Mismatch.message : Mismatch → String
  | .unhashable kind => "unhashable type: " ++ quotedText kind
  | .operand value => "Unsupported operand value: " ++ value.quoted
  | .unwritable f => f.message
  | .other => "unsupported type"

inductive FileFault where
  | notFound (path : Value)
  | isDirectory (path : Value)
  | notDirectory (path : Value)
  | nameTooLong (path : Value)
  | badDescriptor
  /-- A refusal of the medium itself, in its own words. -/
  | medium (text : String)

def FileFault.message : FileFault → String
  | .notFound path => "[Errno 2] No such file or directory: " ++ path.quoted
  | .isDirectory path => "[Errno 21] Is a directory: " ++ path.quoted
  | .notDirectory path => "[Errno 20] Not a directory: " ++ path.quoted
  | .nameTooLong path => "[Errno 36] File name too long: " ++ path.quoted
  | .badDescriptor => "[Errno 9] Bad file descriptor"
  | .medium text => text

inductive ConfigFault where
  | unknownKeys (keys : List Scalar)
  | badLockLength (value : Value)
  | emptySuffix
  | notMapping

def ConfigFault.message : ConfigFault → String
  | .unknownKeys keys =>
    "Unknown configuration keys: " ++ (Value.list (keys.map Value.scalar)).quoted
  | .badLockLength value => "lock_length must be a positive integer, got " ++ value.quoted
  | .emptySuffix => "project_suffix must not be empty"
  | .notMapping => "Configuration must be a mapping"

inductive ProjectFault where
  | missing
  | noSources (name : Value)
  | noBase (name : Value)
  | unsupportedType (declaration type : Value)

def ProjectFault.message : ProjectFault → String
  | .missing => "No project to compile"
  | .noSources name => "Project " ++ name.quoted ++ " has no source scripts"
  | .noBase name => "Project " ++ name.quoted ++ " has no base localization"
  | .unsupportedType declaration type =>
    "Unsupported declaration type for " ++ declaration.display ++ ": " ++ type.quoted

inductive DefaultFault where
  | notBoolean (text : String)
  | notNumber (text : String)
  | within (declaration : Value) (fault : DefaultFault)

def DefaultFault.message : DefaultFault → String
  | .notBoolean text => "'" ++ text ++ "' is not a valid boolean"
  | .notNumber text => "'" ++ text ++ "' is not a valid number"
  | .within declaration f => "Declaration " ++ declaration.display ++ ": " ++ f.message

inductive SourceFault where
  | noPath (project code : Value)
  | notGenerated (project code : Value)

def SourceFault.message : SourceFault → String
  | .noPath project code =>
    "Project " ++ project.quoted ++ " has no path to place a " ++ code.display
      ++ " translation table next to"
  | .notGenerated project code =>
    "Not creating a localization for " ++ code.display ++ " in project " ++ project.display
      ++ " because a text asset containing the strings wasn't found. Add a .csv file containing "
      ++ "the translated lines to the project."

inductive Fault where
  | table (fault : StringTable.Fault)
  | default (fault : DefaultFault)
  | config (fault : ConfigFault)
  | project (fault : ProjectFault)
  | source (fault : SourceFault)
  | programTruncated
  | programLength (announced actual : Nat)
  | programPayload (cause : Fault)
  | notCompiled (project : Value)
  | inProgress (project : Value)
  | noTarget (project : Value)
  | notDeclarationType (value : Value)
  | notFloat (text : String)
  | notInteger (base : Nat) (text : String)
  | notBoolWord (text : String)
  | notRegistered
  | badUnpacking
  | embeddedNull
  | mismatch (mismatch : Mismatch)
  | noOperation
  | noKey (key : Scalar)
  | listIndex
  | textIndex
  | noCharacter
  | assignmentIndex
  | overflow
  | file (fault : FileFault)
  | encoding (fault : Text.EncodingFault)
  | base64 (fault : Text.Base64.Fault)
  | json (fault : Json.Fault)
  | yaml
  | listener (name : String)
  | crash (text : String)
  | unserializable (text : String)

namespace Fault

def message : Fault → String
  | .table f => f.message
  | .default f => f.message
  | .config f => f.message
  | .project f => f.message
  | .source f => f.message
  | .programTruncated => "Compiled program is truncated"
  | .programLength announced actual =>
    "Compiled program length prefix is " ++ toString announced ++ " but payload is "
      ++ toString actual ++ " bytes"
  | .programPayload cause => "Failed to decode compiled program: " ++ cause.message
  | .notCompiled name => "Project " ++ name.quoted ++ " has not been compiled"
  | .inProgress name => "Project " ++ name.quoted ++ " is already being built"
  | .noTarget name => "Project " ++ name.quoted ++ " has no path to save to"
  | .notDeclarationType value => value.quoted ++ " is not a valid DeclarationType"
  | .notFloat text => "could not convert string to float: " ++ quotedText text
  | .notInteger base text =>
    "invalid literal for int() with base " ++ toString base ++ ": "
      ++ String.ofList ((Text.quoted text.toList).take 200)
  | .notBoolWord text => quotedText text
  | .notRegistered => "list.remove(x): x not in list"
  | .badUnpacking => "wrong number of values to unpack"
  | .embeddedNull => "embedded null byte"
  | .mismatch m => m.message
  | .noOperation => "no such attribute"
  | .noKey key => key.quoted
  | .listIndex => "list index out of range"
  | .textIndex => "string index out of range"
  | .noCharacter => "chr() arg not in range(0x110000)"
  | .assignmentIndex => "list assignment index out of range"
  | .overflow => "int too large to convert to float"
  | .file f => f.message
  | .encoding f => f.message
  | .base64 f => f.message
  | .json f => f.message
  | .yaml => "malformed document"
  | .listener name => "listener " ++ name ++ " failed"
  | .crash text => text
  | .unserializable text => text

def isUndecodable : Fault → Bool
  | .encoding (.undecodableUtf8 _) | .encoding (.undecodableAscii ..) => true
  | _ => false

/-- What a source that cannot be read is refused for. -/
def isUnreadable : Fault → Bool
  | .file _ => true
  | f => f.isUndecodable

/-- What a language is skipped for when its table is read or written. -/
def skipsLanguage : Fault → Bool
  | .table _ => true
  | f => f.isUnreadable

/-- What a program payload is refused for. -/
def refusesPayload : Fault → Bool
  | .json _ | .noKey _ | .noOperation | .mismatch _ | .badUnpacking | .notFloat _ => true
  | f => f.isUndecodable

end Fault

end Dialogue
