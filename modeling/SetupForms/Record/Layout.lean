import SetupForms.Flags
import SetupForms.Record.Header

/-!
# Fixed layouts

After its header each kind of record has a fixed part: object id, dependency id and flags, then
for numeric options the default; an enum value has only its value. Each reader here checks the
kind first, then that the declared size holds the fixed part, and reads last
(`Layout.le_of_guarded`).
-/

namespace SetupForms

/-- What forms and options have in common. -/
structure CommonFields where
  /-- the storage binding, unique within a tree -/
  objectId : UInt64
  /-- the object id of the option this one depends on, 0 for none -/
  dependencyId : UInt64
  /-- how the record is drawn and stored -/
  flags : Flags
  deriving DecidableEq

/-- Reads the common fields behind a header. -/
def CommonFields.read (w : Window) (h : Header) : Except Fault CommonFields := do
  let inner := w.upTo h.stop
  let base := h.offset + Header.length
  let objectId ← inner.uint64 base
  let dependencyId ← inner.uint64 (base + 8)
  let bits ← inner.uint32 (base + 16)
  return ⟨objectId, dependencyId, ⟨bits⟩⟩

namespace Layout

/-- The bytes of a form before its fields. -/
def formLength : Nat := Header.length + 20

/-- The bytes of a numeric option before its fields. -/
def numericLength : Nat := formLength + 4

/-- The bytes of an enum value before its label. -/
def enumValueLength : Nat := Header.length + 4

/-- The bytes of a text option before its fields. -/
def textLength : Nat := formLength

/-- Where a numeric option's default stands. -/
def defaultOffset (h : Header) : Nat := h.offset + formLength

/-- The fixed part of a form. -/
def form (w : Window) (h : Header) : Except Fault CommonFields := do
  h.requireTag Kind.form.tag
  h.requireMin formLength
  CommonFields.read w h

/-- The fixed part of a numeric option: the common fields and the default. -/
def numeric (w : Window) (h : Header) : Except Fault (CommonFields × UInt32) := do
  -- three kinds share the layout; a fault names the plain one
  h.requireClass Kind.isNumeric Kind.number.tag
  h.requireMin numericLength
  let fields ← CommonFields.read w h
  let default ← (w.upTo h.stop).uint32 (defaultOffset h)
  return (fields, default)

/-- The fixed part of an enum value. -/
def enumValue (w : Window) (h : Header) : Except Fault UInt32 := do
  h.requireTag Kind.enumValue.tag
  h.requireMin enumValueLength
  (w.upTo h.stop).uint32 (h.offset + Header.length)

/-- The fixed part of a text option. -/
def text (w : Window) (h : Header) : Except Fault CommonFields := do
  h.requireClass Kind.isText Kind.varchar.tag
  h.requireMin textLength
  CommonFields.read w h

/-- A record holds its fixed part, since each layout checks the tag and then the size. -/
theorem le_of_guarded {h : Header} {α : Type} {tagged : Except Fault PUnit} {length : Nat}
    {read : PUnit → Except Fault α} {a : α}
    (hf : (tagged >>= fun _ => h.requireMin length >>= read) = .ok a) :
    h.offset + length ≤ h.stop := by
  obtain ⟨-, hf⟩ := guard_eq_ok_iff.mp hf
  exact Nat.add_le_add_left (Header.requireMin_eq_ok_iff.mp (guard_eq_ok_iff.mp hf).1) _

end Layout

end SetupForms
