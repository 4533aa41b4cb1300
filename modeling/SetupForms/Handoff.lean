import SetupForms.Fallible
import SetupForms.Guid
import SetupForms.Tree

/-!
# Hand-off blocks

Form trees are handed over in a packed list of blocks. A block starts with its type and length,
both 16 bits, and four reserved bytes; a GUID extension goes on with a GUID and its data. The list
ends at an end marker or with the buffer. `Scan.ofBytes` frames the list up to its first malformed
block, and `guidData` picks the data of one GUID.

A block that is malformed ends the list, because its length cannot be trusted to find the next one.
What was framed before it remains, together with the fault. Blocks of other types are framed and
passed over, and data of a GUID that is no tree is left out by `Scan.trees`.
-/

namespace SetupForms

/-- A block of a hand-off list. -/
structure Block where
  /-- the block type -/
  type : UInt16
  /-- where the block starts -/
  offset : Nat
  /-- the whole block with its header -/
  bytes : List UInt8
  deriving DecidableEq

namespace Block

/-- The bytes of a block's header. -/
def headerLength : Nat := 8

/-- The type of a GUID extension. -/
def guidExtension : UInt16 := 0x0004

/-- The type of the end marker. -/
def endOfList : UInt16 := 0xffff

/-- The bytes of a GUID extension before its data. -/
def extensionLength : Nat := headerLength + Guid.size

/-- The least length of a block of a given type. -/
def minLength (type : UInt16) : Nat :=
  if type = guidExtension then extensionLength else headerLength

theorem headerLength_le_minLength (type : UInt16) : headerLength ≤ minLength type := by
  unfold minLength
  split
  · exact Nat.le_add_right ..
  · exact Nat.le_refl _

/-- The GUID and the data of a GUID extension. -/
def guid? (b : Block) : Option (Guid × List UInt8) :=
  if b.type = guidExtension then
    (Guid.ofBytes? ((b.bytes.drop headerLength).take Guid.size)).map fun g =>
      (g, b.bytes.drop extensionLength)
  else
    none

/-- Reads the block at `offset`; `none` for the end marker, whose length does not count. -/
def read (w : Window) (offset : Nat) : Except Fault (Option Block) := do
  let header ← w.slice offset headerLength
  let type := UInt16.ofNat (Bytes.toNat (header.take 2))
  let length := Bytes.toNat ((header.drop 2).take 2)
  -- the marker is recognized by its type alone
  if type = endOfList then
    return none
  else if length < minLength type then
    throw (.recordTooSmall offset type.toUInt32 (UInt32.ofNat length) (minLength type))
  else
    (w.slice offset length).map fun bytes => some ⟨type, offset, bytes⟩

/-- A block that was read is at least a header long. -/
theorem length_of_read {w : Window} {offset : Nat} {b : Block} (h : read w offset = .ok (some b)) :
    headerLength ≤ b.bytes.length := by
  obtain ⟨header, -, h⟩ := bind_eq_ok_iff.mp h
  dsimp only at h
  split at h
  · cases h
  · split at h
    · cases h
    · next hmin =>
      obtain ⟨bytes, hb, hs⟩ := map_eq_ok_iff.mp h
      obtain rfl := Option.some.inj hs
      rw [Window.length_of_slice hb]
      exact Nat.le_trans (headerLength_le_minLength _) (Nat.le_of_not_lt hmin)

end Block

/-- What was found in a hand-off list. -/
structure Scan where
  /-- the blocks in their order -/
  blocks : List Block
  /-- why the scan stopped early -/
  fault : Option Fault
  deriving DecidableEq

namespace Scan

/-- Frames the blocks from `offset` on. -/
def blocksFrom (w : Window) (offset : Nat) : Scan :=
  if w.stop ≤ offset then ⟨[], none⟩
  else
    match _hr : Block.read w offset with
    | .error f => ⟨[], some f⟩
    | .ok none => ⟨[], none⟩
    | .ok (some b) =>
      -- a block is at least a header long, so the scan moves on
      let rest := blocksFrom w (offset + b.bytes.length)
      ⟨b :: rest.blocks, rest.fault⟩
termination_by w.stop - offset
decreasing_by
  have := Block.length_of_read _hr
  simp only [Block.headerLength] at this
  omega

/-- Frames a whole list. -/
def ofBytes (bytes : Array UInt8) : Scan := blocksFrom (Window.ofBytes bytes) 0

/-- The data of every GUID extension of a given GUID, in their order. -/
def guidData (s : Scan) (g : Guid) : List (List UInt8) :=
  s.blocks.filterMap fun b =>
    match b.guid? with
    | some (name, data) => if name = g then some data else none
    | none => none

/-- The trees that a list carries under a GUID. Data that is no tree is left out. -/
def trees (s : Scan) (g : Guid) : List Tree :=
  (s.guidData g).filterMap fun data => (Tree.ofBytes data.toArray).toOption

end Scan

namespace Block

/-- The length of a GUID extension of `n` data bytes, rounded up to a multiple of eight. -/
def paddedLength (n : Nat) : Nat := (extensionLength + n + 7) / 8 * 8

/-- Writes a GUID extension around data, padded with zeros. -/
def encode (g : Guid) (data : List UInt8) : Except Fault (List UInt8) :=
  let length := paddedLength data.length
  if length < 0x10000 then
    .ok (Bytes.ofUInt16 guidExtension ++ Bytes.ofNat 2 length ++ List.replicate 4 0 ++ g.toBytes ++
      data ++ List.replicate (length - (extensionLength + data.length)) 0)
  else
    .error (.internal s!"{data.length} data bytes do not fit in one HOB")

/-- Writes the end marker. -/
def encodeEnd : List UInt8 :=
  Bytes.ofUInt16 endOfList ++ Bytes.ofNat 2 headerLength ++ List.replicate 4 0

end Block

end SetupForms
