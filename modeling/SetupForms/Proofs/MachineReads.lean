import SetupForms.Record.Form
import SetupForms.Record.Option

/-!
# Reading with machine words

The decoders count in natural numbers and take only bytes that are there. A machine counts in words,
and it stops without an answer where a sum has no word, where a difference would be negative, where
a slice does not lie in its memory and where bytes are copied to a place of another length.
`Machine` is such a computation. The readers below are the decoders as a machine runs them: every
sum, every difference and every slice is a step of its own (`add`, `sub`, `cut`, `word`), taken
where it comes up and unchecked unless the reader itself checks it first (`sum?`). Proofs/InBounds
shows that none of them stops.
-/

namespace SetupForms

/-- Why a machine stops without an answer. -/
inductive Halt where
  /-- a sum has no word -/
  | overflow
  /-- a difference is negative -/
  | underflow
  /-- a slice starts behind its end or ends behind its memory -/
  | slice
  /-- bytes are copied to a place of another length -/
  | copy
  deriving DecidableEq

/-- A computation that stops, or comes to its end with an answer or a fault. -/
abbrev Machine (α : Type) : Type := ExceptT Fault (Except Halt) α

namespace Machine

variable {α β : Type}

/-! ## Steps

A machine has three ends: an answer, a fault, which is an answer of the reader too, and a halt,
which is none. The steps below are all that can halt, and each halts in exactly one way.
-/

/-- Comes to its end, with this answer or fault. -/
def lift (x : Except Fault α) : Machine α := ExceptT.mk (.ok x)

/-- Stops. -/
def halt (why : Halt) : Machine α := ExceptT.mk (.error why)

/-- Comes to its end with a fault. -/
def fault (f : Fault) : Machine α := lift (.error f)

/-- Drops the fault of a computation, though not its stop. -/
def optional (m : Machine α) : Machine (Option α) := ExceptT.mk (m.run.map (.ok ·.toOption))

/-- The sum of two words, which must be a word. -/
def add (a b : Nat) : Machine Nat :=
  if a + b < Window.addressSpace then pure (a + b) else halt .overflow

/-- The sum of two words if it is a word. -/
def sum? (a b : Nat) : Option Nat := if a + b < Window.addressSpace then some (a + b) else none

/-- The difference of two words, which must not be negative. -/
def sub (a b : Nat) : Machine Nat := if b ≤ a then pure (a - b) else halt .underflow

/-- The bytes from `start` to `stop`, which must be there. -/
def cut (memory : List UInt8) (start stop : Nat) : Machine (List UInt8) :=
  if start ≤ stop ∧ stop ≤ memory.length then pure (memory.extract start stop) else halt .slice

/-- The number that `k` bytes spell. There must be `k` of them. -/
def word (k : Nat) (bs : List UInt8) : Machine Nat :=
  if bs.length = k then pure (Bytes.toNat bs) else halt .copy

/-! ## Windows and headers

The end of a record is a sum of words, and a reader that asked for the end before the size was
checked would take a sum that has no word. The order of the steps is therefore part of each reader.
-/

/-- Where `length` bytes at `offset` end, if that is before the limit. -/
def stopOf (w : Window) (offset length : Nat) : Machine Nat :=
  match sum? offset length with
  | none => fault (.truncated offset length 0)
  | some stop =>
    if w.limit < stop then fault (.truncated offset length (w.limit - offset)) else pure stop

/-- The `length` bytes at `offset`. -/
def slice (w : Window) (offset length : Nat) : Machine (List UInt8) := do
  let stop ← stopOf w offset length
  cut w.bytes.toList offset stop

/-- The word of `k` bytes at `offset`. -/
def wordAt (w : Window) (k offset : Nat) : Machine Nat := do
  let bs ← slice w offset k
  word k bs

/-- The 32-bit word at `offset`. -/
def uint32 (w : Window) (offset : Nat) : Machine UInt32 := UInt32.ofNat <$> wordAt w 4 offset

/-- The 64-bit word at `offset`. -/
def uint64 (w : Window) (offset : Nat) : Machine UInt64 := UInt64.ofNat <$> wordAt w 8 offset

/-- Where a record ends, if an address names the place. -/
def headerStop (h : Header) : Machine Nat :=
  match sum? h.offset h.size.toNat with
  | none => fault (.recordOverrun h.offset h.tag h.size (Window.addressSpace - 1))
  | some stop => pure stop

/-- The header at `offset`. -/
def header (w : Window) (offset : Nat) : Machine Header := do
  let tag ← uint32 w offset
  let sizeOffset ← add offset 4
  let size ← uint32 w sizeOffset
  let h : Header := ⟨offset, tag, size⟩
  lift (h.requireMin Header.length)
  let stop ← headerStop h
  if w.limit < stop then fault (.recordOverrun offset tag size w.limit) else pure h

/-- The tag at `offset`, if a whole header fits there. -/
def tagAt? (w : Window) (offset : Nat) : Machine (Option UInt32) :=
  match sum? offset Header.length with
  | none => pure none
  | some stop => if w.limit < stop then pure none else optional (uint32 w offset)

/-- Refuses a record whose fields end at `cursor` and not at its own end. -/
def requireFilled (h : Header) (cursor : Nat) : Machine Unit := do
  let consumed ← sub cursor h.offset
  if consumed = h.size.toNat then pure () else fault (.sizeMismatch h.offset h.tag h.size consumed)

/-! ## Fields

A text field is looked for at a place where there may be none; the reader checks first that a word
is left there, and only then reads it.
-/

/-- The field at `cursor` if it bears `tag`, and the cursor behind it. -/
def field? (w : Window) (cursor : Nat) (tag : UInt32) : Machine (Option Field × Nat) := do
  let found ← tagAt? w cursor
  if found = some tag then
    let h ← header w cursor
    lift (h.requireMin Field.headerLength)
    let stop ← headerStop h
    let inner := w.upTo stop
    let lengthOffset ← add h.offset Header.length
    let dataLength ← uint32 inner lengthOffset
    let dataOffset ← add h.offset Field.headerLength
    let data ← slice inner dataOffset dataLength.toNat
    return (some ⟨h.tag, h.offset, h.size, dataLength, data⟩, stop)
  else
    return (none, cursor)

/-- The field at `cursor`, which must bear `tag`, and the cursor behind it. -/
def field (w : Window) (cursor : Nat) (tag : UInt32) : Machine (Field × Nat) := do
  match ← field? w cursor tag with
  | (some f, cursor) => return (f, cursor)
  | (none, cursor) => fault (.missingField cursor tag)

/-- The payload of a field up to its first NUL as text. -/
def text (f : Field) : Machine String := do
  let bs ← cut f.data 0 (f.data.findIdx (· == 0))
  match Text.Utf8.decode? bs with
  | some s => return s
  | none =>
    let dataOffset ← add f.offset Field.headerLength
    fault (.invalidText dataOffset)

/-- The text of a mandatory field, and the cursor behind it. -/
def requireText (w : Window) (cursor : Nat) (tag : UInt32) : Machine (String × Nat) := do
  let (f, cursor) ← field w cursor tag
  let s ← text f
  return (s, cursor)

/-- The text of an optional field, and the cursor behind it. -/
def optionalText (w : Window) (cursor : Nat) (tag : UInt32) : Machine (Option String × Nat) := do
  match ← field? w cursor tag with
  | (none, cursor) => return (none, cursor)
  | (some f, cursor) =>
    let s ← text f
    return (some s, cursor)

/-! ## Fixed layouts

The fixed part of a record is read word by word at places that are sums, each of them taken where
the word is read.
-/

/-- The common fields behind a header. -/
def commonFields (w : Window) (h : Header) : Machine CommonFields := do
  let stop ← headerStop h
  let inner := w.upTo stop
  let base ← add h.offset Header.length
  let objectId ← uint64 inner base
  let dependencyOffset ← add base 8
  let dependencyId ← uint64 inner dependencyOffset
  let flagsOffset ← add base 16
  let bits ← uint32 inner flagsOffset
  return ⟨objectId, dependencyId, ⟨bits⟩⟩

/-- The fixed part of a form. -/
def formLayout (w : Window) (h : Header) : Machine CommonFields := do
  lift (h.requireTag Kind.form.tag)
  lift (h.requireMin Layout.formLength)
  commonFields w h

/-- The fixed part of a numeric option. -/
def numericLayout (w : Window) (h : Header) : Machine (CommonFields × UInt32) := do
  lift (h.requireClass Kind.isNumeric Kind.number.tag)
  lift (h.requireMin Layout.numericLength)
  let fields ← commonFields w h
  let defaultOffset ← add h.offset Layout.formLength
  let stop ← headerStop h
  let default ← uint32 (w.upTo stop) defaultOffset
  return (fields, default)

/-- The fixed part of an enum value. -/
def enumValueLayout (w : Window) (h : Header) : Machine UInt32 := do
  lift (h.requireTag Kind.enumValue.tag)
  lift (h.requireMin Layout.enumValueLength)
  let valueOffset ← add h.offset Header.length
  let stop ← headerStop h
  uint32 (w.upTo stop) valueOffset

/-- The fixed part of a text option. -/
def textLayout (w : Window) (h : Header) : Machine CommonFields := do
  lift (h.requireClass Kind.isText Kind.varchar.tag)
  lift (h.requireMin Layout.textLength)
  commonFields w h

/-! ## Forms

The frame of a nested form is cut down to that of the record.
-/

/-- The form at `offset`. -/
def form (w : Window) (offset depth : Nat) : Machine Form := do
  let h ← header w offset
  let fields ← formLayout w h
  let stop ← headerStop h
  let cursor ← add h.offset Layout.formLength
  let (label, cursor) ← field (w.upTo stop) cursor Kind.label.tag
  let name ← text label
  return {
    offset, fields, name, depth, stop
    size := h.size
    childrenStart := cursor
  }

/-! ## The values of an enum

The values are read until the end of the option. The loop has no other bound, so that it ends only
because every value that is read takes bytes. This is shown of the machine itself, before the loop
is written down, since the loop is accepted only with it.
-/

/-- An enum value behind its header. -/
def enumValue (w : Window) (h : Header) : Machine EnumValue := do
  let value ← enumValueLayout w h
  let cursor ← add h.offset Layout.enumValueLength
  let stop ← headerStop h
  let (label, cursor) ← field (w.upTo stop) cursor Kind.label.tag
  requireFilled h cursor
  let label ← text label
  return ⟨h.offset, value, label⟩

/-- The enum value at `cursor`, and the cursor behind it. -/
def nextValue (w : Window) (cursor : Nat) : Machine (EnumValue × Nat) := do
  let h ← header w cursor
  let v ← enumValue w h
  let cursor ← headerStop h
  return (v, cursor)

theorem lift_eq_pure_iff {x : Except Fault α} {a : α} : lift x = pure a ↔ x = .ok a := by
  constructor
  · intro h
    cases h
    rfl
  · rintro rfl
    rfl

/-- Steps answer if each of them does. -/
theorem bind_eq_pure_iff {m : Machine α} {f : α → Machine β} {b : β} :
    m >>= f = pure b ↔ ∃ a, m = pure a ∧ f a = pure b := by
  constructor
  · intro h
    rcases m with why | e | a
    · cases h
    · cases h
    · exact ⟨a, rfl, h⟩
  · rintro ⟨a, rfl, hf⟩
    exact hf

/-- The end of a header is what the decoder says. -/
theorem eq_stop_of_headerStop {h : Header} {stop : Nat} (hs : headerStop h = pure stop) :
    stop = h.stop := by
  by_cases hsum : h.offset + h.size.toNat < Window.addressSpace
  · rw [headerStop, sum?, if_pos hsum] at hs
    cases hs
    rfl
  · rw [headerStop, sum?, if_neg hsum] at hs
    cases hs

/-- A header stands where it was read and counts at least itself. -/
theorem eq_of_header {w : Window} {offset : Nat} {h : Header} (hh : header w offset = pure h) :
    h.offset = offset ∧ Header.length ≤ h.size.toNat := by
  obtain ⟨tag, -, hh⟩ := bind_eq_pure_iff.mp hh
  obtain ⟨sizeOffset, -, hh⟩ := bind_eq_pure_iff.mp hh
  obtain ⟨size, -, hh⟩ := bind_eq_pure_iff.mp hh
  obtain ⟨⟨⟩, hm, hh⟩ := bind_eq_pure_iff.mp hh
  obtain ⟨stop, -, hh⟩ := bind_eq_pure_iff.mp hh
  split at hh
  · cases hh
  · cases hh
    exact ⟨rfl, Header.requireMin_eq_ok_iff.mp (lift_eq_pure_iff.mp hm)⟩

/-- A value that was read moves the cursor, so that a loop over values ends. -/
theorem lt_of_nextValue {w : Window} {cursor next : Nat} {v : EnumValue}
    (hn : nextValue w cursor = pure (v, next)) : cursor < next := by
  obtain ⟨h, hh, hn⟩ := bind_eq_pure_iff.mp hn
  obtain ⟨v', -, hn⟩ := bind_eq_pure_iff.mp hn
  obtain ⟨stop, hs, hn⟩ := bind_eq_pure_iff.mp hn
  cases hn
  obtain ⟨rfl, hm⟩ := eq_of_header hh
  have hlt : 0 < Header.length := by decide
  rw [eq_stop_of_headerStop hs, Header.stop]
  omega

/-- The enum values from `cursor` to the end of the window, and the cursor behind them. -/
def enumValues (w : Window) (cursor : Nat) : Machine (List EnumValue × Nat) :=
  if cursor < w.stop then
    match _hn : (nextValue w cursor).run with
    | .error why => halt why
    | .ok (.error f) => fault f
    | .ok (.ok (v, next)) => do
      let (vs, cursor) ← enumValues w next
      return (v :: vs, cursor)
  else
    pure ([], cursor)
termination_by w.stop - cursor
decreasing_by
  have := lt_of_nextValue _hn
  omega

theorem enumValues_of_lt {w : Window} {cursor : Nat} (hlt : cursor < w.stop) :
    enumValues w cursor = do
      let (v, next) ← nextValue w cursor
      let (vs, cursor) ← enumValues w next
      return (v :: vs, cursor) := by
  rw [enumValues, if_pos hlt]
  split
  · next why hn =>
    rw [show nextValue w cursor = halt why from hn]
    rfl
  · next f hn =>
    rw [show nextValue w cursor = fault f from hn]
    rfl
  · next v next hn =>
    rw [show nextValue w cursor = pure (v, next) from hn]
    rfl

theorem enumValues_of_le {w : Window} {cursor : Nat} (hle : w.stop ≤ cursor) :
    enumValues w cursor = pure ([], cursor) := by
  rw [enumValues, if_neg (Nat.not_lt.mpr hle)]

/-! ## Options

The text fields of an option come one behind the other, and each starts where the last one ended.
-/

/-- What follows the fields of a numeric option and must fill it: the values of an enum, and nothing
in other kinds. -/
def values (w : Window) (h : Header) (cursor : Nat) (kind : NumericKind) :
    Machine (List EnumValue) := do
  let (vs, cursor) ← (if kind = .enum then enumValues w cursor else pure ([], cursor))
  requireFilled h cursor
  return vs

/-- A numeric option behind its header. -/
def numeric (w : Window) (h : Header) (kind : NumericKind) : Machine NumericOption := do
  let (fields, default) ← numericLayout w h
  let stop ← headerStop h
  let inner := w.upTo stop
  let cursor ← add h.offset Layout.numericLength
  let (name, cursor) ← requireText inner cursor Kind.optionName.tag
  let (label, cursor) ← requireText inner cursor Kind.label.tag
  let (help, cursor) ← optionalText inner cursor Kind.help.tag
  let values ← values inner h cursor kind
  return ⟨h.offset, h.size, kind, fields, default, name, label, help, values⟩

/-- The default and the name of a text option, and the cursor behind them. -/
def textValue (w : Window) (cursor : Nat) (limits : Limits) :
    TextKind → Machine (Option Field × Option String × Nat)
  | .comment => pure (none, none, cursor)
  | .varchar => do
    let (default, cursor) ← field w cursor Kind.defaultValue.tag
    lift (TextOption.requireLength limits default)
    let (name, cursor) ← requireText w cursor Kind.optionName.tag
    return (some default, some name, cursor)

/-- A text option behind its header. -/
def textOption (w : Window) (h : Header) (kind : TextKind) (limits : Limits) :
    Machine TextOption := do
  let fields ← textLayout w h
  let stop ← headerStop h
  let inner := w.upTo stop
  let cursor ← add h.offset Layout.textLength
  let (default, name, cursor) ← textValue inner cursor limits kind
  let (label, cursor) ← requireText inner cursor Kind.label.tag
  let (help, cursor) ← optionalText inner cursor Kind.help.tag
  requireFilled h cursor
  return ⟨h.offset, h.size, kind, fields, default, name, label, help⟩

end Machine

end SetupForms
