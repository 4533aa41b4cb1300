import SetupForms.Record.Layout
import SetupForms.Text.Utf8

/-!
# Blueprints

A blueprint says which records a blob is made of, and `encode` writes it. Sizes are computed from
what is written inside, so that a blueprint without overrides is well formed; the overrides and
verbatim bytes are there to write blobs that are not.

Writing is the easy half of the format and serves as its description: the theory says what is read
in terms of what is written. A blueprint is free to contradict itself, with tags in the wrong places
and sizes that are too small or too large.
-/

namespace SetupForms

open Text

namespace Blueprint

/-- A length as a 32-bit word, or the greatest word if it does not fit. -/
def wireLength (n : Nat) : UInt32 := if n < 0x100000000 then UInt32.ofNat n else 0xffffffff

/-- A record around a body, with its tag and size, or another size than its own. -/
def frame (tag : UInt32) (size : Option UInt32) (body : List UInt8) : List UInt8 :=
  let size := size.getD (wireLength (Header.length + body.length))
  Bytes.ofUInt32 tag ++ Bytes.ofUInt32 size ++ body

/-- A field to be written. -/
structure FieldSpec where
  /-- the kind of the field -/
  tag : UInt32
  /-- the payload -/
  payload : List UInt8
  /-- a declared payload length other than the payload's own -/
  dataLength : Option UInt32 := none
  /-- how many zeros follow the payload -/
  padding : Nat := 0
  deriving DecidableEq

namespace FieldSpec

/-- A field that holds text, closed by a NUL. -/
def text (kind : Kind) (s : String) : FieldSpec := ⟨kind.tag, Utf8.encode s ++ [0], none, 0⟩

/-- Writes a field. -/
def encode (f : FieldSpec) : List UInt8 :=
  frame f.tag none
    (Bytes.ofUInt32 (f.dataLength.getD (wireLength f.payload.length)) ++ f.payload ++
      List.replicate f.padding 0)

end FieldSpec

/-- Writes a field if there is one. -/
def encodeField? (f : Option FieldSpec) : List UInt8 := (f.map FieldSpec.encode).getD []

/-- An enum value to be written. -/
structure ValueSpec where
  /-- the number that is stored -/
  value : UInt32
  /-- the label -/
  label : Option FieldSpec
  /-- a declared size other than the record's own -/
  size : Option UInt32 := none
  deriving DecidableEq

namespace ValueSpec

/-- A value with a label. -/
def labelled (value : UInt32) (label : String) : ValueSpec :=
  ⟨value, some (.text .label label), none⟩

/-- Writes an enum value. -/
def encode (v : ValueSpec) : List UInt8 :=
  frame Kind.enumValue.tag v.size (Bytes.ofUInt32 v.value ++ encodeField? v.label)

end ValueSpec

/-- Writes the common fields. -/
def encodeFields (c : CommonFields) : List UInt8 :=
  Bytes.ofUInt64 c.objectId ++ Bytes.ofUInt64 c.dependencyId ++ Bytes.ofUInt32 c.flags.bits

/-- An option or comment to be written. -/
structure OptionSpec where
  /-- the kind of the record -/
  kind : Kind
  /-- ids and flags -/
  fields : CommonFields
  /-- the default of a numeric option -/
  default : UInt32 := 0
  /-- the field with the default of a text option -/
  defaultField : Option FieldSpec := none
  /-- the field with the internal name -/
  name : Option FieldSpec
  /-- the field with the displayed name -/
  label : Option FieldSpec
  /-- the field with the help text -/
  help : Option FieldSpec := none
  /-- the values of an enum -/
  values : List ValueSpec := []
  /-- a declared size other than the record's own -/
  size : Option UInt32 := none
  deriving DecidableEq

namespace OptionSpec

/-- What follows the header of an option: the fixed part, the fields in their order, the values. -/
def body (o : OptionSpec) : List UInt8 :=
  encodeFields o.fields ++ (if o.kind.isNumeric then Bytes.ofUInt32 o.default else []) ++
    encodeField? o.defaultField ++ encodeField? o.name ++ encodeField? o.label ++
    encodeField? o.help ++ o.values.flatMap ValueSpec.encode

/-- Writes an option. -/
def encode (o : OptionSpec) : List UInt8 := frame o.kind.tag o.size o.body

/-- A numeric option with a name and a label. -/
def numeric (kind : NumericKind) (fields : CommonFields) (name label : String) (default : UInt32) :
    OptionSpec :=
  { kind := kind.kind, fields, default
    name := some (.text .optionName name)
    label := some (.text .label label) }

/-- A text option with a name, a label and a default. -/
def varchar (fields : CommonFields) (name label default : String) : OptionSpec :=
  { kind := .varchar, fields
    defaultField := some (.text .defaultValue default)
    name := some (.text .optionName name)
    label := some (.text .label label) }

/-- A comment with a label. -/
def comment (fields : CommonFields) (label : String) : OptionSpec :=
  { kind := .comment, fields, name := none, label := some (.text .label label) }

end OptionSpec

end Blueprint

open Blueprint in
/-- What stands at one place of a form to be written. -/
inductive Blueprint where
  /-- a form with its label and what it holds, and perhaps a size other than its own -/
  | form (fields : CommonFields) (label : Option FieldSpec) (children : List Blueprint)
    (size : Option UInt32)
  /-- an option or comment -/
  | option (spec : OptionSpec)
  /-- bytes as they are -/
  | verbatim (bytes : List UInt8)

namespace Blueprint

instance : Inhabited Blueprint := ⟨.verbatim []⟩

mutual

/-- Writes a blueprint. -/
def encode : Blueprint → List UInt8
  | .form fields label children size =>
    frame Kind.form.tag size (encodeFields fields ++ encodeField? label ++ encodeAll children)
  | .option spec => spec.encode
  | .verbatim bytes => bytes

/-- Writes blueprints one after the other. -/
def encodeAll : List Blueprint → List UInt8
  | [] => []
  | b :: bs => encode b ++ encodeAll bs

end

theorem length_frame (tag : UInt32) (size : Option UInt32) (body : List UInt8) :
    (frame tag size body).length = Header.length + body.length := by
  simp [frame, Header.length]
  omega

end Blueprint

end SetupForms
