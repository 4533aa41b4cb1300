import SetupForms.Proofs.Reading
import SetupForms.Record.Field

/-!
# Fields on the wire

`IsRecord`, `Field.Spells` and `Field.IsText` say of a run of bytes alone, with no window and no
reader, that it is a record, that it spells a given field, and that it is a field that bears a text.
The readers of fields accept exactly such runs: `Field.require_eq_ok_iff_spells`,
`Field.requireText_eq_ok_iff`, and for optional fields `Field.exists_of_optionalText` and
`Field.optionalText_of_holds`.

Every part of a tree is a record, and most parts are fields. What is read from a window is therefore
said twice here: once for what a reader accepts, and once for where such bytes stand in a longer
row. The modules on options, forms and outlines are built on the second.
-/

namespace SetupForms

open Text

/-- A record: a tag, a size that counts the whole record, and a body. -/
def IsRecord (tag size : UInt32) (body bs : List UInt8) : Prop :=
  bs = Bytes.ofUInt32 tag ++ Bytes.ofUInt32 size ++ body ∧ size.toNat = bs.length

theorem IsRecord.length_eq {tag size : UInt32} {body bs : List UInt8}
    (h : IsRecord tag size body bs) : bs.length = Header.length + body.length := by
  obtain ⟨rfl, -⟩ := h
  simp [Header.length]
  omega

/-- Where a record stands, its header stands, and its body fills the rest of its frame. -/
theorem IsRecord.holds {tag size : UInt32} {body bs : List UInt8} {w : Window} {offset : Nat}
    (h : IsRecord tag size body bs) (hb : w.Holds offset bs) :
    w.Holds offset (Header.bytes ⟨offset, tag, size⟩) ∧
      (w.upTo (offset + size.toNat)).Holds (offset + Header.length) body := by
  have hl := h.length_eq
  obtain ⟨he, hs⟩ := h
  have hlim : offset + size.toNat ≤ w.limit := hs ▸ hb.1
  have hx : w.Holds offset (Header.bytes ⟨offset, tag, size⟩ ++ body) := he ▸ hb
  rw [Window.holds_append, Header.length_bytes] at hx
  exact ⟨hx.1, (Window.holds_upTo_iff hlim).mpr ⟨by omega, hx.2⟩⟩

namespace Header

variable {w : Window} {offset : Nat} {h : Header}

/-- The frame of a record can be seen as a window that ends with it. -/
theorem limit_upTo_stop (hp : parse w offset = .ok h) : (w.upTo h.stop).limit = h.stop :=
  Window.limit_upTo_of_le (parse_eq_ok_iff.mp hp).2.2.2.1

/-- What fills the frame behind a header makes a record with it. -/
theorem exists_record {body : List UInt8} (hp : parse w offset = .ok h)
    (hb : (w.upTo h.stop).Holds (h.offset + length) body)
    (he : h.offset + length + body.length = h.stop) :
    ∃ bs, IsRecord h.tag h.size body bs ∧ w.Holds h.offset bs ∧ h.stop = h.offset + bs.length := by
  obtain ⟨rfl, -, -, hs, hh⟩ := parse_eq_ok_iff.mp hp
  have hl : (h.bytes ++ body).length = length + body.length := by
    rw [List.length_append, length_bytes]
  refine ⟨h.bytes ++ body, ⟨rfl, ?_⟩, Window.holds_append.mpr ⟨hh, ?_⟩, ?_⟩
  · simp only [stop] at he
    omega
  · rw [length_bytes]
    exact ((Window.holds_upTo_iff hs).mp hb).2
  · omega

/-- A header is read where a record stands. -/
theorem parse_of_record {tag size : UInt32} {body bs : List UInt8}
    (hr : IsRecord tag size body bs) (hb : w.Holds offset bs)
    (ha : offset + length < Window.addressSpace) : parse w offset = .ok ⟨offset, tag, size⟩ := by
  have hl := hr.length_eq
  have hs := hr.2
  refine parse_eq_ok_iff.mpr ⟨rfl, ha, by simp only; omega, ?_, (hr.holds hb).1⟩
  simpa only [stop, hs] using hb.1

/-- A record that stands in a window is framed there, and its body fills the frame. -/
theorem exists_of_record {tag size : UInt32} {body bs : List UInt8}
    (hr : IsRecord tag size body bs) (hb : w.Holds offset bs)
    (ha : offset + bs.length < Window.addressSpace) :
    ∃ h, parse w offset = .ok h ∧ h.offset = offset ∧ h.tag = tag ∧ h.size = size ∧
      h.stop = offset + bs.length ∧ h.stop = offset + length + body.length ∧
      (w.upTo h.stop).Holds (offset + length) body := by
  have hl := hr.length_eq
  have hs := hr.2
  refine ⟨_, parse_of_record hr hb (by omega), rfl, rfl, rfl, ?_, ?_, (hr.holds hb).2⟩ <;>
    simp only [stop] <;> omega

end Header

namespace Field

variable {w : Window} {cursor : Nat} {tag : UInt32}

/-- The bytes `bs` spell the field `f`: a header, the length of the payload, the payload, and any
padding. -/
def Spells (f : Field) (bs : List UInt8) : Prop :=
  f.dataLength.toNat = f.data.length ∧
    ∃ padding, IsRecord f.tag f.size (Bytes.ofUInt32 f.dataLength ++ f.data ++ padding) bs

/-- A field whose payload up to its first NUL is the text `s`. -/
def IsText (tag : UInt32) (s : String) (bs : List UInt8) : Prop :=
  ∃ f : Field, f.tag = tag ∧ f.textBytes = Utf8.encode s ∧ f.Spells bs

/-- A text field, or nothing. -/
def IsOptionalText (tag : UInt32) : Option String → List UInt8 → Prop
  | none, bs => bs = []
  | some s, bs => IsText tag s bs

/-- A field has the size that it says, and its payload fits in. -/
theorem Spells.length_eq {f : Field} {bs : List UInt8} (h : f.Spells bs) :
    f.size.toNat = bs.length ∧ headerLength + f.dataLength.toNat ≤ bs.length := by
  obtain ⟨hd, padding, hr⟩ := h
  have hl := hr.length_eq
  simp only [List.length_append, Bytes.length_ofUInt32] at hl
  simp only [headerLength]
  exact ⟨hr.2, by omega⟩

/-- Where a field is spelled, it ends as far on as the spelling is long. -/
theorem Spells.stop_eq {f : Field} {bs : List UInt8} (h : f.Spells bs) :
    f.stop = f.offset + bs.length := by
  rw [stop, h.length_eq.1]

/-- A text says nothing of where it stands, so it can be taken to stand anywhere. -/
theorem IsText.exists_at {s : String} {bs : List UInt8} (h : IsText tag s bs) (offset : Nat) :
    ∃ f : Field, f.offset = offset ∧ f.tag = tag ∧ f.textBytes = Utf8.encode s ∧ f.Spells bs := by
  obtain ⟨f, ht, hs, hsp⟩ := h
  exact ⟨{ f with offset := offset }, rfl, ht, hs, hsp⟩

/-- The text of a field is what its payload is up to the first NUL. -/
theorem text_eq_ok_iff {f : Field} {s : String} :
    f.text = .ok s ↔ f.textBytes = Utf8.encode s := by
  unfold text
  split
  next t ht =>
    rw [Utf8.decode?_eq_some_iff] at ht
    rw [← ht]
    simp only [Except.ok.injEq]
    exact ⟨congrArg _, Utf8.encode_injective⟩
  next hn =>
    constructor
    · intro h
      cases h
    · intro h
      rw [h, Utf8.decode?_encode] at hn
      cases hn

/-- A field that was read is spelled where it was read. -/
theorem exists_of_read {f : Field} (hr : read w cursor = .ok f) :
    f.offset = cursor ∧ ∃ bs, f.Spells bs ∧ w.Holds cursor bs := by
  obtain ⟨h, hp, hr⟩ := bind_eq_ok_iff.mp hr
  obtain ⟨-, hr⟩ := guard_eq_ok_iff.mp hr
  obtain ⟨n, hn, hr⟩ := bind_eq_ok_iff.mp hr
  obtain ⟨data, hd, hr⟩ := bind_eq_ok_iff.mp hr
  obtain rfl := pure_eq_ok_iff.mp hr
  have hl := Header.limit_upTo_stop hp
  obtain ⟨rfl, -⟩ := Header.parse_eq_ok_iff.mp hp
  obtain ⟨-, hn⟩ := Window.uint32_eq_ok_iff.mp hn
  obtain ⟨-, hdl, hd⟩ := Window.slice_eq_ok_iff_holds.mp hd
  -- the padding is whatever the declared size leaves behind the payload
  have hle := hd.1
  rw [hl] at hle
  obtain ⟨hpl, hpad⟩ := @Window.holds_extract (w.upTo h.stop)
    (h.offset + headerLength + data.length)
    (h.stop - (h.offset + headerLength + data.length)) (by omega)
  have hbody := Window.holds_append.mpr ⟨Window.holds_append.mpr ⟨hn, hd⟩, by
    rwa [List.length_append, Bytes.length_ofUInt32, ← Nat.add_assoc]⟩
  obtain ⟨bs, hrec, hb, -⟩ := Header.exists_record hp hbody (by
    rw [List.length_append, hpl, List.length_append, Bytes.length_ofUInt32]
    simp only [headerLength] at hle ⊢
    omega)
  exact ⟨rfl, bs, ⟨hdl.symm, _, hrec⟩, hb⟩

/-- A field is read where it is spelled. -/
theorem read_of_spells {f : Field} {bs : List UInt8} (hw : w.limit < Window.addressSpace)
    (hs : f.Spells bs) (hb : w.Holds f.offset bs) : read w f.offset = .ok f := by
  obtain ⟨hdl, padding, hrec⟩ := hs
  have hle := hb.1
  have hl := hrec.length_eq
  have hsz := hrec.2
  obtain ⟨-, hbody⟩ := hrec.holds hb
  simp only [List.length_append, Bytes.length_ofUInt32, Header.length] at hl
  rw [List.append_assoc, Window.holds_append, Window.holds_append, Bytes.length_ofUInt32] at hbody
  -- behind the header stand the length and the payload, and then padding, which is not read
  obtain ⟨hn, hd, -⟩ := hbody
  refine bind_eq_ok_iff.mpr ⟨⟨f.offset, f.tag, f.size⟩, ?_, guard_eq_ok_iff.mpr ⟨?_, ?_⟩⟩
  · exact Header.parse_of_record hrec hb (by simp only [Header.length]; omega)
  · apply Header.requireMin_eq_ok_iff.mpr
    simp only [headerLength, Header.length]
    omega
  refine bind_eq_ok_iff.mpr ⟨f.dataLength, Window.uint32_eq_ok_iff.mpr ⟨?_, hn⟩, ?_⟩
  · simp only [Header.length]
    omega
  refine bind_eq_ok_iff.mpr ⟨f.data, Window.slice_eq_ok_iff_holds.mpr ⟨?_, hdl.symm, hd⟩, rfl⟩
  simp only [headerLength, Header.length]
  omega

/-- Where a field is spelled, its tag is to be seen, and no other. -/
theorem tagAt?_of_spells {f : Field} {bs : List UInt8} (hw : w.limit < Window.addressSpace)
    (hs : f.Spells bs) (hb : w.Holds cursor bs) : Header.tagAt? w cursor = some f.tag := by
  obtain ⟨-, padding, hrec⟩ := hs
  have hle := hb.1
  have hl := hrec.length_eq
  simp only [Header.length] at hl
  exact Header.tagAt?_eq_some_iff.mpr ⟨by simp only [Header.length]; omega, by omega,
    (Window.holds_append.mp (hrec.holds hb).1).1⟩

/-- A mandatory field is given out exactly where one with its tag is spelled. -/
theorem require_eq_ok_iff_spells {f : Field} (hw : w.limit < Window.addressSpace) :
    require w cursor tag = .ok f ↔
      f.offset = cursor ∧ f.tag = tag ∧ ∃ bs, f.Spells bs ∧ w.Holds cursor bs := by
  rw [require_eq_ok_iff]
  constructor
  · intro hn
    obtain ⟨ho, bs, hs, hb⟩ := exists_of_read (next?_eq_some hn)
    refine ⟨ho, ?_, bs, hs, hb⟩
    unfold next? at hn
    split at hn
    next ht => exact Option.some.inj ((tagAt?_of_spells hw hs hb).symm.trans ht)
    next => cases hn
  · rintro ⟨rfl, rfl, bs, hs, hb⟩
    rw [next?, if_pos (tagAt?_of_spells hw hs hb), read_of_spells hw hs hb]
    rfl

/-- The text of a mandatory field is given out exactly where a field that bears it stands. -/
theorem requireText_eq_ok_iff {s : String} {next : Nat} (hw : w.limit < Window.addressSpace) :
    requireText w cursor tag = .ok (s, next) ↔
      ∃ bs, IsText tag s bs ∧ w.Holds cursor bs ∧ next = cursor + bs.length := by
  unfold requireText
  rw [bind_eq_ok_iff]
  constructor
  · rintro ⟨f, hf, hs⟩
    obtain ⟨t, ht, hs⟩ := bind_eq_ok_iff.mp hs
    obtain ⟨rfl, rfl⟩ := Prod.mk.inj (pure_eq_ok_iff.mp hs)
    obtain ⟨rfl, rfl, bs, hsp, hb⟩ := (require_eq_ok_iff_spells hw).mp hf
    exact ⟨bs, ⟨f, rfl, text_eq_ok_iff.mp ht, hsp⟩, hb, hsp.stop_eq⟩
  · rintro ⟨bs, hs, hb, rfl⟩
    obtain ⟨f, rfl, hft, ht, hsp⟩ := hs.exists_at cursor
    refine ⟨f, (require_eq_ok_iff_spells hw).mpr ⟨rfl, hft, bs, hsp, hb⟩, ?_⟩
    refine bind_eq_ok_iff.mpr ⟨s, text_eq_ok_iff.mpr ht, ?_⟩
    rw [hsp.stop_eq]
    rfl

/-- What an attempt at an optional text leaves behind it is that text field, or nothing. -/
theorem exists_of_optionalText {s : Option String} {next : Nat}
    (hw : w.limit < Window.addressSpace) (hc : cursor ≤ w.limit)
    (h : optionalText w cursor tag = .ok (s, next)) :
    ∃ bs, IsOptionalText tag s bs ∧ w.Holds cursor bs ∧ next = cursor + bs.length := by
  obtain ⟨found, hn, h⟩ := bind_eq_ok_iff.mp h
  cases found with
  | none =>
    obtain ⟨rfl, rfl⟩ := Prod.mk.inj (pure_eq_ok_iff.mp h)
    exact ⟨[], rfl, Window.holds_nil hc, rfl⟩
  | some f =>
    obtain ⟨t, ht, h⟩ := bind_eq_ok_iff.mp h
    obtain ⟨rfl, rfl⟩ := Prod.mk.inj (pure_eq_ok_iff.mp h)
    apply (requireText_eq_ok_iff hw).mp
    refine bind_eq_ok_iff.mpr ⟨f, require_eq_ok_iff.mpr hn, ?_⟩
    exact bind_eq_ok_iff.mpr ⟨t, ht, rfl⟩

/-- An optional text is found where it stands, and not where something else is to be seen. -/
theorem optionalText_of_holds {s : Option String} {bs : List UInt8}
    (hw : w.limit < Window.addressSpace) (hs : IsOptionalText tag s bs) (hb : w.Holds cursor bs)
    (ht : s = none → Header.tagAt? w cursor ≠ some tag) :
    optionalText w cursor tag = .ok (s, cursor + bs.length) := by
  cases s with
  | none =>
    obtain rfl : bs = [] := hs
    have hn : next? w cursor tag = .ok none := if_neg (ht rfl)
    unfold optionalText
    exact bind_eq_ok_iff.mpr ⟨none, hn, rfl⟩
  | some t =>
    have hr := (requireText_eq_ok_iff hw).mpr ⟨bs, hs, hb, rfl⟩
    obtain ⟨f, hf, hr⟩ := bind_eq_ok_iff.mp hr
    obtain ⟨t', ht', hr⟩ := bind_eq_ok_iff.mp hr
    obtain ⟨rfl, hn⟩ := Prod.mk.inj (pure_eq_ok_iff.mp hr)
    refine bind_eq_ok_iff.mpr ⟨some f, require_eq_ok_iff.mp hf, ?_⟩
    refine bind_eq_ok_iff.mpr ⟨t', ht', ?_⟩
    rw [hn]
    rfl

end Field

end SetupForms
