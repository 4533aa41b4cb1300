import SetupForms.Text.Hex

/-!
# Faults

`Fault` lists every way an operation of this library can fail, by cause. `Fault.message` is the
one place where causes are put into words, `Fault.code` sorts them into status codes, and
`Fault.exitStatus` into the exit statuses of the command line.

Structural faults say that the bytes themselves are malformed; record-local faults reject one
option of a well framed record; lookup misses are ordinary answers of a search. No fault belongs
to two of these classes.
-/

namespace SetupForms

open Text

/-- Which kind of record has a name but no default value. -/
inductive Undefaulted where
  /-- a form, found by its label -/
  | form
  /-- a comment line, found by its label -/
  | comment
  deriving DecidableEq

/-- The word for a kind of record without a default. -/
def Undefaulted.noun : Undefaulted → String
  | .form => "form"
  | .comment => "comment"

/-- Why an operation failed. Offsets count bytes from the start of the buffer. -/
inductive Fault where
  /-- a read crosses the end of the enclosing record or buffer -/
  | truncated (offset needed available : Nat)
  /-- a record declares a size smaller than its own fixed part -/
  | recordTooSmall (offset : Nat) (tag size : UInt32) (min : Nat)
  /-- a record declares a size that runs past the end of its parent -/
  | recordOverrun (offset : Nat) (tag size : UInt32) (stop : Nat)
  /-- the fields of a record do not fill its declared size -/
  | sizeMismatch (offset : Nat) (tag declared : UInt32) (consumed : Nat)
  /-- a mandatory field is absent -/
  | missingField (offset : Nat) (tag : UInt32)
  /-- a record of another kind stands where a specific kind is required -/
  | unexpectedTag (offset : Nat) (expected found : UInt32)
  /-- a text field is not UTF-8 -/
  | invalidText (offset : Nat)
  /-- a form nests deeper than the limit -/
  | nestingTooDeep (offset max : Nat)
  /-- a record of no known kind -/
  | unknownRecord (offset : Nat) (tag : UInt32)
  /-- a field is longer than the limit for its kind -/
  | fieldTooLong (offset : Nat) (tag length max : UInt32)
  /-- an option name does not fit a variable's definition -/
  | nameTooLong (name : String) (length max : Nat)
  /-- an object id leads outside the range of question ids -/
  | questionIdOutOfRange (objectId : UInt64)
  /-- two options of one tree share an object id -/
  | duplicateObjectId (objectId : UInt64) (name : String)
  /-- no tree holds an option of this name -/
  | optionNotFound (name : String)
  /-- the name belongs to a record without a default -/
  | noDefault (name : String) (kind : Undefaulted)
  /-- no tree has this name -/
  | treeNotFound (name : String)
  /-- a hand-off list holds no block of this GUID -/
  | blockNotFound (guid : String)
  /-- no variable of this name is stored -/
  | variableNotFound (name : String)
  /-- a stored variable has another size than expected -/
  | storeSizeMismatch (name : String) (expected actual : Nat)
  /-- the variable is locked -/
  | writeProtected (name : String)
  /-- a config request or a settings text cannot be read -/
  | invalidRequest (detail : String)
  /-- a text is no GUID -/
  | invalidGuid (text : String)
  /-- a file cannot be read -/
  | io (text : String)
  /-- a value that the library never makes -/
  | internal (text : String)
  deriving DecidableEq

/-- The status a fault maps to for callers that speak status codes. -/
inductive StatusCode where
  | invalidParameter
  | unsupported
  | badBufferSize
  | deviceError
  | writeProtected
  | volumeCorrupted
  | notFound
  | aborted
  | protocolError
  deriving DecidableEq

/-- The number of a status code. -/
def StatusCode.number : StatusCode → Nat
  | .invalidParameter => 2
  | .unsupported => 3
  | .badBufferSize => 4
  | .deviceError => 7
  | .writeProtected => 8
  | .volumeCorrupted => 10
  | .notFound => 14
  | .aborted => 21
  | .protocolError => 24

namespace Fault

/-- How a message names a tagged thing in the bytes. -/
private def tagged (noun : String) (tag : UInt32) (offset : Nat) : String :=
  s!"{noun} {Hex.tag tag.toNat} at offset {Hex.offset offset}"

/-- The wording of a fault. -/
def message : Fault → String
  | truncated offset needed available =>
    s!"truncated record at offset {Hex.offset offset}: need {needed} bytes, {available} available"
  | recordTooSmall offset tag size min =>
    tagged "record tag" tag offset ++ s!" declares size {size}, minimum is {min}"
  | recordOverrun offset tag size stop =>
    tagged "record tag" tag offset ++
      s!" of size {size} overruns parent end {Hex.offset stop}"
  | sizeMismatch offset tag declared consumed =>
    tagged "record tag" tag offset ++ s!": consumed {consumed} bytes, declared {declared}"
  | missingField offset tag =>
    s!"record at offset {Hex.offset offset} is missing mandatory field {Hex.tag tag.toNat}"
  | unexpectedTag offset expected found =>
    tagged "expected tag" expected offset ++ s!", found {Hex.tag found.toNat}"
  | invalidText offset => s!"text field at offset {Hex.offset offset} is not valid UTF-8"
  | nestingTooDeep offset max =>
    s!"form at offset {Hex.offset offset} nests deeper than {max} levels"
  | unknownRecord offset tag =>
    tagged "unrecognized record tag" tag offset
  | fieldTooLong offset tag length max =>
    tagged "field" tag offset ++ s!" has length {length}, maximum is {max}"
  | nameTooLong name length max =>
    s!"option name '{name}' is too long for a variable store ({length} bytes, max {max})"
  | questionIdOutOfRange objectId =>
    s!"object id {objectId} maps outside the runtime component range"
  | duplicateObjectId objectId name =>
    s!"object id {objectId} of '{name}' is already bound in this tree"
  | optionNotFound name => s!"no option named '{name}'"
  | noDefault name kind => s!"'{name}' is a {kind.noun} and has no default value"
  | treeNotFound name => s!"no form tree named '{name}'"
  | blockNotFound guid => s!"no CFR HOB with GUID {guid}"
  | variableNotFound name => s!"variable '{name}' not found"
  | storeSizeMismatch name expected actual =>
    s!"variable '{name}' has size {actual}, expected {expected}"
  | writeProtected name => s!"variable '{name}' is write protected"
  | invalidRequest detail => s!"malformed config request: {detail}"
  | invalidGuid text => s!"invalid GUID '{text}'"
  | io text => s!"I/O error: {text}"
  | internal text => s!"internal error: {text}"

/-- The status code of a fault. -/
def code : Fault → StatusCode
  | truncated .. | recordTooSmall .. | recordOverrun .. | sizeMismatch .. | missingField ..
  | unexpectedTag .. | invalidText .. | nestingTooDeep .. => .volumeCorrupted
  | fieldTooLong .. | nameTooLong .. => .badBufferSize
  | unknownRecord .. | questionIdOutOfRange .. => .unsupported
  | duplicateObjectId .. | invalidRequest .. | invalidGuid .. => .invalidParameter
  | optionNotFound .. | noDefault .. | treeNotFound .. | blockNotFound ..
  | variableNotFound .. => .notFound
  | storeSizeMismatch .. => .protocolError
  | writeProtected .. => .writeProtected
  | io .. => .deviceError
  | internal .. => .aborted

/-- Whether the bytes themselves are malformed. -/
def isStructural (f : Fault) : Bool := f.code = .volumeCorrupted

/-- Whether one option is rejected while its record is well framed. -/
def isRecordLocal : Fault → Bool
  | fieldTooLong .. | nameTooLong .. | questionIdOutOfRange .. | duplicateObjectId .. => true
  | _ => false

/-- Whether a search ended without finding what it looked for. -/
def isLookupMiss : Fault → Bool
  | optionNotFound .. | noDefault .. | treeNotFound .. | blockNotFound .. => true
  | _ => false

/-- The exit status of a command that ends with this fault: 3 for unreadable files, 1 for misses
and malformed input, 4 for all else. Status 2 is kept for wrong usage. -/
def exitStatus (f : Fault) : Nat :=
  match f with
  | io .. => 3
  | f => if f.isLookupMiss || f.isStructural || f.code = .invalidParameter then 1 else 4

/-- A structural fault is no lookup miss. -/
theorem isLookupMiss_eq_false_of_isStructural {f : Fault} (h : f.isStructural = true) :
    f.isLookupMiss = false := by
  cases f <;> first | rfl | simp [isStructural, code] at h

/-- A record-local fault is neither structural nor a miss. -/
theorem isStructural_eq_false_of_isRecordLocal {f : Fault} (h : f.isRecordLocal = true) :
    f.isStructural = false ∧ f.isLookupMiss = false := by
  cases f <;> first | exact ⟨rfl, rfl⟩ | simp [isRecordLocal] at h

end Fault

end SetupForms
