import SetupForms.Record.Header

/-!
# What a window holds

`Window.Holds w offset bs` says that the bytes `bs` stand at `offset` and end before the limit of
the window. A bounded read gives out exactly what is held where it reads (`slice_eq_ok_iff_holds`,
`uint32_eq_ok_iff`, `uint64_eq_ok_iff`, `Header.parse_eq_ok_iff`), and a row of parts is held part
by part (`holds_append`). So what a decoder accepts can be said as a property of the bytes alone.

The decoders read with offsets and lengths, and the theory speaks of rows of bytes. The lemmas here
are all that takes one to the other; the modules on records, options and trees use them and never
look at a buffer themselves.
-/

namespace SetupForms

namespace Window

variable {w : Window} {offset : Nat}

/-- The bytes `bs` stand at `offset` and end before the limit. -/
def Holds (w : Window) (offset : Nat) (bs : List UInt8) : Prop :=
  offset + bs.length ≤ w.limit ∧ ∀ i < bs.length, w.bytes[offset + i]? = bs[i]?

/-- A row of two parts is held part by part. -/
theorem holds_append {a b : List UInt8} :
    w.Holds offset (a ++ b) ↔ w.Holds offset a ∧ w.Holds (offset + a.length) b := by
  constructor
  · rintro ⟨hl, hb⟩
    rw [List.length_append] at hl hb
    -- a byte of the row is one of the first part or of the second
    refine ⟨⟨by omega, fun i hi => ?_⟩, by omega, fun i hi => ?_⟩
    · rw [hb i (by omega), List.getElem?_append_left hi]
    · rw [Nat.add_assoc, hb (a.length + i) (by omega), List.getElem?_append_right (by omega),
        Nat.add_sub_cancel_left]
  · rintro ⟨⟨-, ha⟩, hl, hb⟩
    refine ⟨by rw [List.length_append]; omega, fun i hi => ?_⟩
    rw [List.length_append] at hi
    by_cases hia : i < a.length
    · rw [ha i hia, List.getElem?_append_left hia]
    · rw [List.getElem?_append_right (by omega), ← hb (i - a.length) (by omega)]
      congr 1
      omega

/-- Nothing is held wherever it fits. -/
theorem holds_nil (h : offset ≤ w.limit) : w.Holds offset [] :=
  ⟨h, fun _ hi => absurd hi (Nat.not_lt_zero _)⟩

/-- What is held in one place is determined by its length. -/
theorem Holds.unique {a b : List UInt8} (ha : w.Holds offset a) (hb : w.Holds offset b)
    (hl : a.length = b.length) : a = b := by
  apply List.ext_getElem? fun i => ?_
  by_cases hi : i < a.length
  · rw [← ha.2 i hi, hb.2 i (by omega)]
  · rw [List.getElem?_eq_none (by omega), List.getElem?_eq_none (by omega)]

/-- Whatever fits is held. -/
theorem holds_extract {length : Nat} (h : offset + length ≤ w.limit) :
    (w.bytes.extract offset (offset + length)).toList.length = length ∧
      w.Holds offset (w.bytes.extract offset (offset + length)).toList := by
  have hs : w.limit ≤ w.bytes.size := Nat.min_le_right ..
  have hl : (w.bytes.extract offset (offset + length)).toList.length = length := by
    simp
    omega
  refine ⟨hl, by omega, fun i hi => ?_⟩
  rw [hl] at hi
  rw [Array.getElem?_toList, Array.getElem?_extract, if_pos (by omega)]

/-- What is held splits at every place. -/
theorem Holds.split {bs : List UInt8} {n : Nat} (h : w.Holds offset bs) (hn : n ≤ bs.length) :
    ∃ a b, bs = a ++ b ∧ a.length = n ∧ w.Holds offset a ∧ w.Holds (offset + n) b := by
  have hl : (bs.take n).length = n := List.length_take_of_le hn
  rw [← List.take_append_drop n bs, holds_append, hl] at h
  exact ⟨bs.take n, bs.drop n, (List.take_append_drop n bs).symm, hl, h⟩

/-- A window that ends earlier holds what ends early enough. -/
theorem holds_upTo_iff {stop : Nat} {bs : List UInt8} (h : stop ≤ w.limit) :
    (w.upTo stop).Holds offset bs ↔ offset + bs.length ≤ stop ∧ w.Holds offset bs := by
  unfold Holds
  rw [limit_upTo_of_le h]
  constructor
  · rintro ⟨hl, hb⟩
    exact ⟨hl, by omega, hb⟩
  · rintro ⟨hl, -, hb⟩
    exact ⟨hl, hb⟩

/-- The window of a whole buffer holds its prefixes. -/
theorem holds_ofBytes_iff {bytes : Array UInt8} {bs : List UInt8} :
    (ofBytes bytes).Holds 0 bs ↔ bs <+: bytes.toList := by
  unfold Holds
  rw [limit_ofBytes, List.prefix_iff_getElem?]
  constructor
  · rintro ⟨-, hb⟩ i hi
    rw [Array.getElem?_toList, ← List.getElem?_eq_getElem hi, ← hb i hi, Nat.zero_add]
    rfl
  · intro hb
    have hl : bs.length ≤ bytes.size := (List.prefix_iff_getElem?.mpr hb).length_le
    refine ⟨by omega, fun i hi => ?_⟩
    rw [List.getElem?_eq_getElem hi, ← hb i hi, Array.getElem?_toList, Nat.zero_add]
    rfl

/-! ## Bounded reads

A word is read if its bytes are held and its end has an address. A header is two words with a check
on each.
-/

/-- A read gives out what is held where it reads. -/
theorem slice_eq_ok_iff_holds {length : Nat} {bs : List UInt8} :
    w.slice offset length = .ok bs ↔
      offset + length < addressSpace ∧ bs.length = length ∧ w.Holds offset bs := by
  rw [slice_eq_ok_iff]
  constructor
  · rintro ⟨ha, hl, rfl⟩
    exact ⟨ha, holds_extract hl⟩
  · rintro ⟨ha, rfl, hb⟩
    obtain ⟨hl, hx⟩ := holds_extract hb.1
    exact ⟨ha, hb.1, hb.unique hx hl.symm⟩

/-- A word of four bytes is read where its bytes are held. -/
theorem uint32_eq_ok_iff {v : UInt32} :
    w.uint32 offset = .ok v ↔ offset + 4 < addressSpace ∧ w.Holds offset (Bytes.ofUInt32 v) := by
  unfold uint32
  rw [map_eq_ok_iff]
  constructor
  · rintro ⟨bs, hs, rfl⟩
    obtain ⟨ha, hl, hb⟩ := slice_eq_ok_iff_holds.mp hs
    rw [Bytes.ofUInt32_ofNat hl]
    exact ⟨ha, hb⟩
  · rintro ⟨ha, hb⟩
    refine ⟨_, slice_eq_ok_iff_holds.mpr ⟨ha, Bytes.length_ofUInt32 v, hb⟩, ?_⟩
    rw [Bytes.toNat_ofUInt32, UInt32.ofNat_toNat]

/-- A word of eight bytes is read where its bytes are held. -/
theorem uint64_eq_ok_iff {v : UInt64} :
    w.uint64 offset = .ok v ↔ offset + 8 < addressSpace ∧ w.Holds offset (Bytes.ofUInt64 v) := by
  unfold uint64
  rw [map_eq_ok_iff]
  constructor
  · rintro ⟨bs, hs, rfl⟩
    obtain ⟨ha, hl, hb⟩ := slice_eq_ok_iff_holds.mp hs
    rw [Bytes.ofUInt64_ofNat hl]
    exact ⟨ha, hb⟩
  · rintro ⟨ha, hb⟩
    refine ⟨_, slice_eq_ok_iff_holds.mpr ⟨ha, Bytes.length_ofUInt64 v, hb⟩, ?_⟩
    rw [Bytes.toNat_ofUInt64, UInt64.ofNat_toNat]

end Window

namespace Header

variable {w : Window} {offset : Nat}

/-- The eight bytes of a header. -/
def bytes (h : Header) : List UInt8 := Bytes.ofUInt32 h.tag ++ Bytes.ofUInt32 h.size

@[simp] theorem length_bytes (h : Header) : h.bytes.length = length := by
  simp [bytes, length]

/-- A header is read exactly where its bytes stand and frame at least themselves inside the
window. -/
theorem parse_eq_ok_iff {h : Header} :
    parse w offset = .ok h ↔
      h.offset = offset ∧ offset + length < Window.addressSpace ∧ length ≤ h.size.toNat ∧
        h.stop ≤ w.limit ∧ w.Holds offset h.bytes := by
  constructor
  · intro hp
    obtain ⟨ho, hm, hs, htag, hsize⟩ := parse_eq_ok hp
    obtain ⟨-, htag⟩ := Window.uint32_eq_ok_iff.mp htag
    obtain ⟨ha, hsize⟩ := Window.uint32_eq_ok_iff.mp hsize
    refine ⟨ho, ha, hm, hs, Window.holds_append.mpr ⟨htag, ?_⟩⟩
    rwa [Bytes.length_ofUInt32]
  · rintro ⟨rfl, ha, hm, hs, hb⟩
    obtain ⟨htag, hsize⟩ := Window.holds_append.mp hb
    rw [Bytes.length_ofUInt32] at hsize
    simp only [length] at ha
    have ht := Window.uint32_eq_ok_iff.mpr ⟨by omega, htag⟩
    have hz := Window.uint32_eq_ok_iff.mpr ⟨by omega, hsize⟩
    unfold parse
    refine bind_eq_ok_iff.mpr ⟨_, ht, bind_eq_ok_iff.mpr ⟨_, hz, ?_⟩⟩
    refine bind_eq_ok_iff.mpr ⟨(), requireMin_eq_ok_iff.mpr hm, ?_⟩
    exact if_neg (Nat.not_lt.mpr hs)

/-- A tag can be seen exactly where it stands and a whole header fits. -/
theorem tagAt?_eq_some_iff {t : UInt32} :
    tagAt? w offset = some t ↔
      offset + length ≤ w.limit ∧ offset + 4 < Window.addressSpace ∧
        w.Holds offset (Bytes.ofUInt32 t) := by
  unfold tagAt?
  split
  next hl =>
    constructor
    · intro h
      cases h
    · rintro ⟨hl', -⟩
      omega
  next hl =>
    rw [← Window.uint32_eq_ok_iff]
    cases w.uint32 offset with
    | error f => simp [Except.toOption]
    | ok v => simp [Except.toOption, Nat.le_of_not_lt hl]

end Header

end SetupForms
