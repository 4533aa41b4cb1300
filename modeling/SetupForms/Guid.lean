import SetupForms.Bytes
import SetupForms.Fault

/-!
# GUIDs

A GUID has a text of five hyphenated groups and sixteen wire bytes. The first three groups are
little-endian numbers on the wire, and the last eight bytes stand as they are written.

Text and wire disagree about the order of bytes in the first three groups only. Reading is one
function on groups of digits, so that hyphens and digits are checked apart.
-/

namespace SetupForms

open Text

/-- A GUID by its fields. -/
structure Guid where
  /-- the first group -/
  data1 : UInt32
  /-- the second group -/
  data2 : UInt16
  /-- the third group -/
  data3 : UInt16
  /-- the fourth and fifth group -/
  data4 : Vector UInt8 8
  deriving DecidableEq

namespace Guid

/-- The number of wire bytes. -/
def size : Nat := 16

/-- The GUID of the setup menu. -/
def setupMenu : Guid :=
  ⟨0x93e6fcd9, 0x8e17, 0x43df, #v[0xb7, 0xf0, 0x91, 0x3e, 0x58, 0xb1, 0xa7, 0x89]⟩

/-- The sixteen wire bytes. -/
def toBytes (g : Guid) : List UInt8 :=
  Bytes.ofUInt32 g.data1 ++ Bytes.ofUInt16 g.data2 ++ Bytes.ofUInt16 g.data3 ++ g.data4.toList

/-- The GUID of sixteen wire bytes. -/
def ofBytes (bs : Vector UInt8 16) : Guid where
  data1 := UInt32.ofNat (Bytes.toNat (bs.toList.take 4))
  data2 := UInt16.ofNat (Bytes.toNat ((bs.toList.drop 4).take 2))
  data3 := UInt16.ofNat (Bytes.toNat ((bs.toList.drop 6).take 2))
  data4 := #v[bs[8], bs[9], bs[10], bs[11], bs[12], bs[13], bs[14], bs[15]]

/-- The GUID of a run of bytes, if there are sixteen. -/
def ofBytes? (bs : List UInt8) : Option Guid :=
  if h : bs.length = 16 then some (ofBytes ⟨bs.toArray, h⟩) else none

/-- The text of a GUID as characters. -/
def chars (g : Guid) : List Char :=
  Hex.fixed 8 g.data1.toNat ++ '-' :: Hex.fixed 4 g.data2.toNat ++
    '-' :: Hex.fixed 4 g.data3.toNat ++ '-' :: Hex.ofBytes (g.data4.toList.take 2) ++
    '-' :: Hex.ofBytes (g.data4.toList.drop 2)

/-- The text of a GUID: five groups of lower-case digits. -/
def text (g : Guid) : String := String.ofList g.chars

/-- The text cut at its hyphens. -/
def groups : List Char → List (List Char)
  | [] => [[]]
  | c :: cs =>
    if c = '-' then [] :: groups cs
    else
      match groups cs with
      | [] => [[c]]
      | g :: gs => (c :: g) :: gs

/-- The GUID of five groups of 8, 4, 4, 4 and 12 digits. -/
def ofGroups? : List (List Char) → Option Guid
  | [a, b, c, d, e] =>
    -- the lengths make each number fit its field
    if a.length = 8 ∧ b.length = 4 ∧ c.length = 4 ∧ d.length = 4 ∧ e.length = 12 then do
      let data1 ← Hex.value? a
      let data2 ← Hex.value? b
      let data3 ← Hex.value? c
      let tail ← Hex.toBytes? (d ++ e)
      if h : tail.length = 8 then
        some ⟨UInt32.ofNat data1, UInt16.ofNat data2, UInt16.ofNat data3, ⟨tail.toArray, h⟩⟩
      else
        none
    else
      none
  | _ => none

/-- Reads the text of a GUID, with digits of either case. -/
def parse (text : String) : Except Fault Guid :=
  match ofGroups? (groups text.toList) with
  | some g => .ok g
  | none => .error (.invalidGuid text)

@[simp] theorem length_toBytes (g : Guid) : g.toBytes.length = 16 := by simp [toBytes]

end Guid

end SetupForms
