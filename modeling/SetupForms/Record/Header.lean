import SetupForms.Fallible
import SetupForms.Kind
import SetupForms.Window

/-!
# Record headers

A record starts with its tag and its size, which counts the header and everything after it.
`Header.parse` reads a header and checks that the record ends inside the window, so that
whoever holds a header knows the frame of the record (`Header.parse_eq_ok`).

Everything in the format is a record: forms, options, the values of an enum, and the fields inside
of these. They are framed alike, by one function, and differ in what stands behind the header. The
requirements of single kinds, as to tag, size and end, are functions with a fault each, which the
decoders put in a row.
-/

namespace SetupForms

/-- The frame of a record. -/
structure Header where
  /-- where the record starts -/
  offset : Nat
  /-- the tag, known or not -/
  tag : UInt32
  /-- the length of the whole record -/
  size : UInt32
  deriving DecidableEq

namespace Header

/-- The bytes of the header itself. -/
def length : Nat := 8

/-- Where the record ends. -/
def stop (h : Header) : Nat := h.offset + h.size.toNat

/-- Refuses a record whose size cannot hold `min` bytes. -/
def requireMin (h : Header) (min : Nat) : Except Fault Unit :=
  if h.size.toNat < min then .error (.recordTooSmall h.offset h.tag h.size min) else .ok ()

/-- Refuses a record of another kind. -/
def requireTag (h : Header) (expected : UInt32) : Except Fault Unit :=
  if h.tag = expected then .ok () else .error (.unexpectedTag h.offset expected h.tag)

/-- Refuses a record whose kind is not of a class; the fault names one kind of the class. -/
def requireClass (h : Header) (p : Kind → Bool) (expected : UInt32) : Except Fault Unit :=
  if Kind.ofClass p h.tag then .ok () else .error (.unexpectedTag h.offset expected h.tag)

/-- Refuses a record whose fields end at `cursor` and not at its own end. -/
def requireFilled (h : Header) (cursor : Nat) : Except Fault Unit :=
  if cursor = h.stop then .ok ()
  else .error (.sizeMismatch h.offset h.tag h.size (cursor - h.offset))

/-- Reads the header at `offset`. The record must end before the limit of the window. -/
def parse (w : Window) (offset : Nat) : Except Fault Header := do
  let tag ← w.uint32 offset
  let size ← w.uint32 (offset + 4)
  let h : Header := ⟨offset, tag, size⟩
  -- A size below eight would not even cover the header, and a reader that went on behind such a
  -- record might stay where it is.
  h.requireMin length
  if w.limit < h.stop then .error (.recordOverrun offset tag size w.limit) else .ok h

/-- The tag at `offset`, if a whole header can be read there. -/
def tagAt? (w : Window) (offset : Nat) : Option UInt32 :=
  if w.limit < offset + length then none else (w.uint32 offset).toOption

theorem requireMin_eq_ok_iff {h : Header} {min : Nat} :
    h.requireMin min = .ok () ↔ min ≤ h.size.toNat := by
  unfold requireMin
  split <;> simp <;> omega

theorem requireTag_eq_ok_iff {h : Header} {expected : UInt32} :
    h.requireTag expected = .ok () ↔ h.tag = expected := by
  unfold requireTag
  split <;> simp [*]

theorem requireClass_eq_ok_iff {h : Header} {p : Kind → Bool} {expected : UInt32} :
    h.requireClass p expected = .ok () ↔ Kind.ofClass p h.tag = true := by
  unfold requireClass
  split <;> simp [*]

theorem requireFilled_eq_ok_iff {h : Header} {cursor : Nat} :
    h.requireFilled cursor = .ok () ↔ cursor = h.stop := by
  unfold requireFilled
  split <;> simp [*]

/-- A header that was read stands at its offset and frames a record of at least eight bytes inside
the window. -/
theorem parse_eq_ok {w : Window} {offset : Nat} {h : Header} (hp : parse w offset = .ok h) :
    h.offset = offset ∧ length ≤ h.size.toNat ∧ h.stop ≤ w.limit ∧
      w.uint32 offset = .ok h.tag ∧ w.uint32 (offset + 4) = .ok h.size := by
  obtain ⟨tag, ht, hp⟩ := bind_eq_ok_iff.mp hp
  obtain ⟨size, hs, hp⟩ := bind_eq_ok_iff.mp hp
  obtain ⟨⟨⟩, hm, hp⟩ := bind_eq_ok_iff.mp hp
  split at hp
  · cases hp
  · next hl =>
    obtain rfl := Except.ok.inj hp
    exact ⟨rfl, requireMin_eq_ok_iff.mp hm, Nat.le_of_not_lt hl, ht, hs⟩

/-- A framed record ends after it starts. -/
theorem lt_stop_of_parse {w : Window} {offset : Nat} {h : Header} (hp : parse w offset = .ok h) :
    offset < h.stop := by
  obtain ⟨rfl, hm, -⟩ := parse_eq_ok hp
  simp only [length] at hm
  simp only [stop]
  omega

end Header

end SetupForms
