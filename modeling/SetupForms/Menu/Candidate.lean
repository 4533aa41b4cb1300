import SetupForms.Menu.Element
import SetupForms.Menu.Settings
import SetupForms.Record.Option
import SetupForms.Text.Utf16

/-!
# Candidates

A candidate is an option on its way into a menu: its name and labels, the bytes of its default as
its variable holds them, and the widget that asks for it. Numbers are stored in four bytes, texts
in UTF-16 with zero fill (`storedText`). `Candidate.question?` numbers a candidate's question.

A candidate has everything that a menu needs of an option and nothing of where the option stood.
Numeric and text options come together in it, so that ids, names and variables are handled once.
-/

namespace SetupForms.Menu

open Text

/-- An option on its way into a menu. -/
structure Candidate where
  /-- the internal name -/
  name : String
  /-- ids and flags -/
  fields : CommonFields
  /-- the displayed name -/
  label : String
  /-- the help text -/
  help : Option String
  /-- the default as the variable holds it -/
  stored : List UInt8
  /-- how the question is asked -/
  widget : Widget
  deriving DecidableEq

/-- The bytes of a variable's definition besides its name. -/
def varStoreFixedLength : Nat := 23

/-- The greatest length of a variable's definition. -/
def varStoreMaxLength : Nat := 0x7f

/-- A text in UTF-16, filled with zeros to a number of units. -/
def storedText (s : String) (units : Nat) : List UInt8 :=
  let bytes := (Utf16.encode s.toList).flatMap Bytes.ofUInt16
  bytes ++ List.replicate (2 * units - bytes.length) 0

namespace Candidate

/-! ## From options

A numeric option is a candidate as it is. A text has to be decoded and measured first, and may not
be text at all.
-/

/-- The widget of a numeric option. -/
def numericWidget (o : NumericOption) : Widget :=
  match o.kind with
  | .enum => .oneOf o.default (o.values.map fun v => ⟨v.value, v.label⟩)
  | .number => .number o.default 0 0xffffffff
  | .bool => .checkBox (o.default != 0)

/-- The candidate of a numeric option. -/
def ofNumeric (o : NumericOption) : Candidate where
  name := o.name
  fields := o.fields
  label := o.label
  help := o.help
  stored := Bytes.ofUInt32 o.default
  widget := numericWidget o

/-- The text of a default and how many units its variable holds: the length of the payload, or what
the text and a terminator take if that is more. A default of at most one byte is replaced by the
placeholder. -/
def textDefault (settings : Settings) (field : Field) : Except Fault (String × Nat) :=
  -- too short to hold a character and a terminator
  if field.dataLength ≤ 1 then
    .ok (settings.invalidString, Utf16.length settings.invalidString + 1)
  else
    field.text.map fun s => (s, max field.data.length (Utf16.length s + 1))

/-- The candidate of a text option, which must have a name and a default. -/
def ofText (settings : Settings) (o : TextOption) : Except Fault Candidate :=
  match o.name, o.default with
  | some name, some field =>
    (textDefault settings field).map fun (default, units) => {
      name
      fields := o.fields
      label := o.label
      help := o.help
      stored := storedText default units
      widget := .text default 0 (units - 1)
    }
  | _, _ => .error (.internal "string option decoded without name or default")

/-! ## Questions

What can be wrong with a candidate whatever has been built before: an object id that has no question
id, and a name that is too long for the definition of a variable.
-/

/-- The question id of an object id, which must lie below the end of the range. -/
def questionId (settings : Settings) (objectId : UInt64) : Except Fault UInt16 :=
  -- the sum of the numbers, which does not wrap
  let id := settings.componentStart.toNat + objectId.toNat
  if id < settings.componentEnd.toNat then .ok (UInt16.ofNat id)
  else .error (.questionIdOutOfRange objectId)

/-- Refuses a name that does not fit a variable's definition. -/
def requireName (name : String) : Except Fault Unit :=
  let length := (Utf8.encode name).length
  if varStoreMaxLength < varStoreFixedLength + length then
    .error (.nameTooLong name length (varStoreMaxLength - varStoreFixedLength))
  else
    .ok ()

/-- The question of a candidate under an id. -/
def question (settings : Settings) (c : Candidate) (id : UInt16) : Question where
  id
  varStore := ⟨id, c.name, c.stored.length⟩
  label := c.label
  help := c.help
  flags := ⟨c.fields.flags.isReadOnly, settings.resetRequired⟩
  visibility := c.fields.flags.visibility

end Candidate

end SetupForms.Menu
