import SetupForms.Bytes
import SetupForms.Fault

/-!
# Windows: bounded reads

A `Window` is a buffer together with the end of the region its owner may read, which is the end
of the enclosing record and never just the end of the buffer. All reads go through
`Window.slice`, so that a word or payload is read wholly before `Window.limit` or not at all
(`slice_eq_ok_iff`).

Reads are bounded twice. A record can be framed wrongly and end behind the buffer, so that the
smaller of the two ends is what counts; and places are sums of words that come from the buffer,
which a reader must not take past the largest address. Places are natural numbers here, and the
second bound is a check like the first one.
-/

namespace SetupForms

/-- A buffer and the end of the region that may be read. -/
structure Window where
  /-- the whole buffer -/
  bytes : Array UInt8
  /-- the end of the region, which may lie past the end of the buffer -/
  stop : Nat

namespace Window

/-- One past the largest address. No read ends there or later. -/
def addressSpace : Nat := 0x10000000000000000

/-- The whole of a buffer. -/
def ofBytes (bytes : Array UInt8) : Window := ⟨bytes, bytes.size⟩

/-- The same buffer with another end. -/
def upTo (w : Window) (stop : Nat) : Window := ⟨w.bytes, stop⟩

/-- The end of what can be read: the end of the region or of the buffer. -/
def limit (w : Window) : Nat := min w.stop w.bytes.size

/-- The `length` bytes at `offset`, which must lie wholly before the limit. -/
def slice (w : Window) (offset length : Nat) : Except Fault (List UInt8) :=
  -- an end that is no address is refused before it is compared with anything
  if addressSpace ≤ offset + length then
    .error (.truncated offset length 0)
  else if w.limit < offset + length then
    .error (.truncated offset length (w.limit - offset))
  else
    .ok (w.bytes.extract offset (offset + length)).toList

/-- The 32-bit word at `offset`. -/
def uint32 (w : Window) (offset : Nat) : Except Fault UInt32 :=
  (w.slice offset 4).map fun bs => UInt32.ofNat (Bytes.toNat bs)

/-- The 64-bit word at `offset`. -/
def uint64 (w : Window) (offset : Nat) : Except Fault UInt64 :=
  (w.slice offset 8).map fun bs => UInt64.ofNat (Bytes.toNat bs)

@[simp] theorem limit_ofBytes (bytes : Array UInt8) : (ofBytes bytes).limit = bytes.size :=
  Nat.min_self _

@[simp] theorem bytes_upTo (w : Window) (stop : Nat) : (w.upTo stop).bytes = w.bytes := rfl

theorem limit_upTo_of_le {w : Window} {stop : Nat} (h : stop ≤ w.limit) :
    (w.upTo stop).limit = stop :=
  Nat.min_eq_left (Nat.le_trans h (Nat.min_le_right ..))

/-- A read succeeds exactly if it ends before the limit, and gives the bytes that stand there. -/
theorem slice_eq_ok_iff {w : Window} {offset length : Nat} {bs : List UInt8} :
    w.slice offset length = .ok bs ↔
      offset + length < addressSpace ∧ offset + length ≤ w.limit ∧
        bs = (w.bytes.extract offset (offset + length)).toList := by
  unfold slice
  split
  · simp; omega
  · split
    · simp; omega
    · simp only [Except.ok.injEq]
      constructor
      · rintro rfl
        exact ⟨by omega, by omega, rfl⟩
      · rintro ⟨-, -, rfl⟩
        rfl

/-- A read gives as many bytes as it was asked for. -/
theorem length_of_slice {w : Window} {offset length : Nat} {bs : List UInt8}
    (h : w.slice offset length = .ok bs) : bs.length = length := by
  obtain ⟨-, hl, rfl⟩ := slice_eq_ok_iff.mp h
  -- nothing in front of the limit is cut off by the buffer
  have : w.limit ≤ w.bytes.size := Nat.min_le_right ..
  simp
  omega

end Window

end SetupForms
