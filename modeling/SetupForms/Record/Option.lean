import SetupForms.Record.Field
import SetupForms.Record.Layout
import SetupForms.Record.Limits

/-!
# Options

Numeric options, with the values of an enum, and text options. The fields of an option come in a
fixed order and must fill its declared size.

The order of the fields is not negotiable: name, label, help, and a text has its default in front.
Padding is possible inside of fields only, so that an option ends where its last field does, or its
last value.
-/

namespace SetupForms

/-! ## Enum values

Values are records in their own right, each with a number and a label.
-/

/-- One value that an enum option can take. -/
structure EnumValue where
  /-- where the record starts -/
  offset : Nat
  /-- the number that is stored -/
  value : UInt32
  /-- the displayed text -/
  label : String
  deriving DecidableEq

namespace EnumValue

/-- Reads an enum value behind its header. Its label must fill it. -/
def decode (w : Window) (h : Header) : Except Fault EnumValue := do
  let value ← Layout.enumValue w h
  let field ← Field.require (w.upTo h.stop) (h.offset + Layout.enumValueLength) Kind.label.tag
  h.requireFilled field.stop
  let label ← field.text
  return ⟨h.offset, value, label⟩

/-- Reads the values that fill a window from `cursor` on. -/
def decodeAll (w : Window) (cursor : Nat) : Except Fault (List EnumValue) :=
  if cursor < w.stop then
    match _hp : Header.parse w cursor with
    | .error f => .error f
    | .ok h =>
      match decode w h with
      | .error f => .error f
      | .ok v => (decodeAll w h.stop).map (v :: ·)
  else
    .ok []
termination_by w.stop - cursor
decreasing_by
  have := Header.lt_stop_of_parse _hp
  omega

end EnumValue

/-! ## Numeric options

Enums, numbers and switches have one layout, and only an enum goes on behind its fields.
-/

/-- An option with a 32-bit value. -/
structure NumericOption where
  /-- where the record starts -/
  offset : Nat
  /-- the length of the whole record -/
  size : UInt32
  /-- whether the option is an enum, a number or a switch -/
  kind : NumericKind
  /-- ids and flags -/
  fields : CommonFields
  /-- the declared default -/
  default : UInt32
  /-- the internal name, under which the value is stored -/
  name : String
  /-- the displayed name -/
  label : String
  /-- the help text -/
  help : Option String
  /-- the values of an enum in their declared order -/
  values : List EnumValue
  deriving DecidableEq

namespace NumericOption

/-- What follows the fields: the values of an enum, and nothing in other kinds. -/
def decodeValues (w : Window) (h : Header) (cursor : Nat) :
    NumericKind → Except Fault (List EnumValue)
  | .enum => EnumValue.decodeAll w cursor
  | .number | .bool => (h.requireFilled cursor).map fun _ => []

/-- Reads a numeric option behind its header. -/
def decode (w : Window) (h : Header) (kind : NumericKind) : Except Fault NumericOption := do
  let (fields, default) ← Layout.numeric w h
  let inner := w.upTo h.stop
  let (name, cursor) ← Field.requireText inner (h.offset + Layout.numericLength) Kind.optionName.tag
  let (label, cursor) ← Field.requireText inner cursor Kind.label.tag
  let (help, cursor) ← Field.optionalText inner cursor Kind.help.tag
  let values ← decodeValues inner h cursor kind
  return ⟨h.offset, h.size, kind, fields, default, name, label, help, values⟩

/-- Whether `v` is one of the declared values. -/
def hasValue (o : NumericOption) (v : UInt32) : Bool := o.values.any (·.value = v)

end NumericOption

/-! ## Text options

A comment is a text option without a value: it has neither a default nor a name.
-/

/-- A text option or a comment line. -/
structure TextOption where
  /-- where the record starts -/
  offset : Nat
  /-- the length of the whole record -/
  size : UInt32
  /-- whether the record holds a value or is a comment -/
  kind : TextKind
  /-- ids and flags -/
  fields : CommonFields
  /-- the field with the default, absent from comments -/
  default : Option Field
  /-- the internal name, absent from comments -/
  name : Option String
  /-- the displayed name -/
  label : String
  /-- the help text -/
  help : Option String
  deriving DecidableEq

namespace TextOption

/-- Refuses a default that is longer than the limits allow. -/
def requireLength (limits : Limits) (default : Field) : Except Fault Unit :=
  if limits.maxDefaultLength < default.dataLength then
    .error (.fieldTooLong default.offset default.tag default.dataLength limits.maxDefaultLength)
  else
    .ok ()

/-- The default and the name of a text option, and the cursor behind them. A comment has neither. -/
def decodeValue (w : Window) (start : Nat) (limits : Limits) :
    TextKind → Except Fault (Option Field × Option String × Nat)
  | .comment => .ok (none, none, start)
  | .varchar => do
    let default ← Field.require w start Kind.defaultValue.tag
    -- the limit is checked before the name is looked at
    requireLength limits default
    let (name, cursor) ← Field.requireText w default.stop Kind.optionName.tag
    return (some default, some name, cursor)

/-- Reads a text option behind its header. -/
def decode (w : Window) (h : Header) (kind : TextKind) (limits : Limits) :
    Except Fault TextOption := do
  let fields ← Layout.text w h
  let inner := w.upTo h.stop
  let (default, name, cursor) ← decodeValue inner (h.offset + Layout.textLength) limits kind
  let (label, cursor) ← Field.requireText inner cursor Kind.label.tag
  let (help, cursor) ← Field.optionalText inner cursor Kind.help.tag
  h.requireFilled cursor
  return ⟨h.offset, h.size, kind, fields, default, name, label, help⟩

/-- The default as text, up to its first NUL. -/
def defaultText (o : TextOption) : Except Fault (Option String) :=
  match o.default with
  | none => .ok none
  | some f => f.text.map some

end TextOption

end SetupForms
