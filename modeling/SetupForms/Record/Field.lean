import SetupForms.Record.Header
import SetupForms.Text.Utf8

/-!
# Variable-length fields

Behind its fixed part a record has fields: a header, the length of the payload, the payload and
padding. They are taken like the head of a queue: `Field.next?` gives the field at the cursor only
if it bears the tag that is asked for, so that optional fields can be tried without loss.

A field that is not the one asked for stays where it is, for whoever asks for it next. A field that
was asked for and is malformed is a fault, and the cursor stays in front of it.
-/

namespace SetupForms

open Text

/-- A field as it was read. -/
structure Field where
  /-- the kind of the field -/
  tag : UInt32
  /-- where the field starts -/
  offset : Nat
  /-- the length of the whole field, with header and padding -/
  size : UInt32
  /-- the declared length of the payload -/
  dataLength : UInt32
  /-- the payload -/
  data : List UInt8
  deriving DecidableEq

namespace Field

/-- The bytes before the payload. -/
def headerLength : Nat := Header.length + 4

/-- Where the payload starts. -/
def dataOffset (f : Field) : Nat := f.offset + headerLength

/-- Where the field ends. -/
def stop (f : Field) : Nat := f.offset + f.size.toNat

/-- A payload up to its first NUL. -/
def untilNul (data : List UInt8) : List UInt8 := data.takeWhile (· != 0)

/-- The payload up to its first NUL. -/
def textBytes (f : Field) : List UInt8 := untilNul f.data

/-- The payload up to its first NUL as text. -/
def text (f : Field) : Except Fault String :=
  match Utf8.decode? f.textBytes with
  | some s => .ok s
  | none => .error (.invalidText f.dataOffset)

/-- Reads the field at `offset`, whatever its tag. The payload must lie inside the field. -/
def read (w : Window) (offset : Nat) : Except Fault Field := do
  let h ← Header.parse w offset
  h.requireMin headerLength
  -- the payload must end with the field, whatever the buffer goes on with
  let inner := w.upTo h.stop
  let dataLength ← inner.uint32 (offset + Header.length)
  let data ← inner.slice (offset + headerLength) dataLength.toNat
  return ⟨h.tag, offset, h.size, dataLength, data⟩

/-- The field at `cursor` if it bears `tag`. Too few bytes for a header are no field. -/
def next? (w : Window) (cursor : Nat) (tag : UInt32) : Except Fault (Option Field) :=
  if Header.tagAt? w cursor = some tag then (read w cursor).map some else .ok none

/-- The field at `cursor`, which must bear `tag`. -/
def require (w : Window) (cursor : Nat) (tag : UInt32) : Except Fault Field := do
  match ← next? w cursor tag with
  | some f => return f
  | none => throw (.missingField cursor tag)

/-- Where the next field is looked for after an attempt at `cursor`. -/
def after (cursor : Nat) : Option Field → Nat
  | some f => f.stop
  | none => cursor

/-- The text of a mandatory field, and the end of the field. -/
def requireText (w : Window) (cursor : Nat) (tag : UInt32) : Except Fault (String × Nat) := do
  let f ← require w cursor tag
  let s ← f.text
  return (s, f.stop)

/-- The text of an optional field, and the cursor behind it. -/
def optionalText (w : Window) (cursor : Nat) (tag : UInt32) :
    Except Fault (Option String × Nat) := do
  match ← next? w cursor tag with
  | none => return (none, cursor)
  | some f =>
    let s ← f.text
    return (some s, f.stop)

/-! ## Requests

A caller may ask for several fields in any order. Each answer comes with the place where the next
field is looked for.
-/

/-- One request for a field. -/
structure Request where
  /-- the tag that is asked for -/
  tag : UInt32
  /-- whether absence is a fault -/
  required : Bool
  deriving DecidableEq

/-- Serves a request at `cursor`: the answer and the cursor for the next request, which moves only
when a field is given out. -/
def serve (w : Window) (cursor : Nat) (r : Request) : Except Fault (Option Field) × Nat :=
  let answer := if r.required then (require w cursor r.tag).map some else next? w cursor r.tag
  match answer with
  | .ok found => (.ok found, after cursor found)
  | .error f => (.error f, cursor)

/-- Serves requests one after the other. -/
def serveAll (w : Window) (cursor : Nat) : List Request → List (Except Fault (Option Field) × Nat)
  | [] => []
  | r :: rs =>
    let answer := serve w cursor r
    answer :: serveAll w answer.2 rs

/-! ## Frames

What a decoder needs to know of a field that it was given: where it stands and that it is framed.
-/

/-- A field that was read stands at its offset inside the window, and its payload inside it. -/
theorem read_eq_ok {w : Window} {offset : Nat} {f : Field} (hr : read w offset = .ok f) :
    f.offset = offset ∧ headerLength ≤ f.size.toNat ∧ f.stop ≤ w.limit := by
  obtain ⟨h, hp, hr⟩ := bind_eq_ok_iff.mp hr
  obtain ⟨⟨⟩, hm, hr⟩ := bind_eq_ok_iff.mp hr
  obtain ⟨n, hl, hr⟩ := bind_eq_ok_iff.mp hr
  obtain ⟨data, hd, hr⟩ := bind_eq_ok_iff.mp hr
  obtain rfl := pure_eq_ok_iff.mp hr
  obtain ⟨rfl, -, hs, -⟩ := Header.parse_eq_ok hp
  exact ⟨rfl, Header.requireMin_eq_ok_iff.mp hm, hs⟩

theorem next?_eq_some {w : Window} {cursor : Nat} {tag : UInt32} {f : Field}
    (hn : next? w cursor tag = .ok (some f)) : read w cursor = .ok f := by
  unfold next? at hn
  split at hn
  · obtain ⟨g, hr, hg⟩ := map_eq_ok_iff.mp hn
    rwa [← Option.some.inj hg]
  · cases hn

theorem require_eq_ok_iff {w : Window} {cursor : Nat} {tag : UInt32} {f : Field} :
    require w cursor tag = .ok f ↔ next? w cursor tag = .ok (some f) := by
  unfold require
  rw [bind_eq_ok_iff]
  constructor
  · rintro ⟨found, hn, hf⟩
    cases found with
    | none => exact absurd hf throw_ne_ok
    | some g => rw [hn, pure_eq_ok_iff.mp hf]
  · exact fun hn => ⟨some f, hn, rfl⟩

/-- A field that is given out lies at or behind the cursor and inside the window. -/
theorem require_stop {w : Window} {cursor : Nat} {tag : UInt32} {f : Field}
    (hr : require w cursor tag = .ok f) :
    f.offset = cursor ∧ cursor + headerLength ≤ f.stop ∧ f.stop ≤ w.limit := by
  obtain ⟨ho, hm, hs⟩ := read_eq_ok (next?_eq_some (require_eq_ok_iff.mp hr))
  refine ⟨ho, ?_, hs⟩
  simp only [stop, ho]
  omega

end Field

end SetupForms
