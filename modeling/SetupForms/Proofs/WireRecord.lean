import SetupForms.Blueprint
import SetupForms.Proofs.WireField
import SetupForms.Record.Form
import SetupForms.Record.Option

/-!
# Records on the wire

`EnumValue.Spells` and `Form.SpellsHead` say which bytes spell an enum value and the head of a form,
and so fix the order of its parts and the place of every boundary. For each there are two
statements: what is decoded is spelled where it was read, and what is spelled is decoded where it
stands. `EnumValue.SpellAll` says the same of a row of values.

The parts are taken in the order of the bytes: the fixed parts first, which are words in a row, then
values with their labels, then the heads of forms. A decoder checks as it goes along, while the
spelling states all conditions at once, so that each proof goes through the steps of the decoder in
one direction and puts them together in the other.
-/

namespace SetupForms

open Blueprint Text

namespace Role

/-- Only the tag of its kind introduces a numeric option. -/
theorem ofTag_eq_numeric_iff {t : UInt32} {k : NumericKind} :
    ofTag t = .numeric k ↔ t = k.kind.tag := by
  constructor
  · intro h
    rw [ofTag] at h
    split at h <;> cases h <;> exact (Kind.ofTag?_eq_some_iff.mp ‹_›).symm
  · rintro rfl
    exact ofTag_numeric k

/-- Only the tag of its kind introduces a text option. -/
theorem ofTag_eq_text_iff {t : UInt32} {k : TextKind} : ofTag t = .text k ↔ t = k.kind.tag := by
  constructor
  · intro h
    rw [ofTag] at h
    split at h <;> cases h <;> exact (Kind.ofTag?_eq_some_iff.mp ‹_›).symm
  · rintro rfl
    exact ofTag_text k

end Role

@[simp] theorem Blueprint.length_encodeFields (c : CommonFields) :
    (encodeFields c).length = 20 := by
  simp [encodeFields]

variable {w : Window} {cursor : Nat} {h : Header}

/-! ## Fixed layouts

Each layout is a check of the tag, a check of the size and a row of words. The size is long enough
whenever the words are held in the frame, so that the check needs no mention.
-/

/-- The common fields are read exactly where their bytes stand behind the header. -/
theorem CommonFields.read_eq_ok_iff {c : CommonFields} (ha : h.stop < Window.addressSpace)
    (hl : (w.upTo h.stop).limit = h.stop) :
    CommonFields.read w h = .ok c ↔
      (w.upTo h.stop).Holds (h.offset + Header.length) (encodeFields c) := by
  constructor
  · intro hr
    obtain ⟨objectId, ho, hr⟩ := bind_eq_ok_iff.mp hr
    obtain ⟨dependencyId, hd, hr⟩ := bind_eq_ok_iff.mp hr
    obtain ⟨bits, hb, hr⟩ := bind_eq_ok_iff.mp hr
    obtain rfl := pure_eq_ok_iff.mp hr
    rw [encodeFields, Window.holds_append, Window.holds_append, List.length_append,
      Bytes.length_ofUInt64, Bytes.length_ofUInt64]
    exact ⟨⟨(Window.uint64_eq_ok_iff.mp ho).2, (Window.uint64_eq_ok_iff.mp hd).2⟩,
      (Window.uint32_eq_ok_iff.mp hb).2⟩
  · intro hh
    have hle := hh.1
    -- the words lie in the frame, so their places have addresses
    rw [length_encodeFields, hl] at hle
    rw [encodeFields, Window.holds_append, Window.holds_append, List.length_append,
      Bytes.length_ofUInt64, Bytes.length_ofUInt64] at hh
    obtain ⟨⟨ho, hd⟩, hb⟩ := hh
    refine bind_eq_ok_iff.mpr ⟨_, Window.uint64_eq_ok_iff.mpr ⟨by omega, ho⟩, ?_⟩
    refine bind_eq_ok_iff.mpr ⟨_, Window.uint64_eq_ok_iff.mpr ⟨by omega, hd⟩, ?_⟩
    exact bind_eq_ok_iff.mpr ⟨_, Window.uint32_eq_ok_iff.mpr ⟨by omega, hb⟩, rfl⟩

/-- A size that holds the common fields needs no check of its own where their bytes stand. -/
theorem CommonFields.guarded_eq_ok_iff {c : CommonFields} (ha : h.stop < Window.addressSpace)
    (hl : (w.upTo h.stop).limit = h.stop) :
    (h.requireMin Layout.formLength >>= fun _ => CommonFields.read w h) = .ok c ↔
      (w.upTo h.stop).Holds (h.offset + Header.length) (encodeFields c) := by
  rw [guard_eq_ok_iff, CommonFields.read_eq_ok_iff ha hl, Header.requireMin_eq_ok_iff]
  refine ⟨And.right, fun hc => ⟨?_, hc⟩⟩
  have hle := hc.1
  rw [length_encodeFields, hl, Header.stop] at hle
  simp only [Layout.formLength, Header.length] at hle ⊢
  omega

/-- The layout of a form is its tag and the common fields. -/
theorem Layout.form_eq_ok_iff {c : CommonFields} (ha : h.stop < Window.addressSpace)
    (hl : (w.upTo h.stop).limit = h.stop) :
    Layout.form w h = .ok c ↔ h.tag = Kind.form.tag ∧
      (w.upTo h.stop).Holds (h.offset + Header.length) (encodeFields c) := by
  rw [← CommonFields.guarded_eq_ok_iff ha hl, ← Header.requireTag_eq_ok_iff]
  exact guard_eq_ok_iff

theorem Layout.text_eq_ok_iff {c : CommonFields} (ha : h.stop < Window.addressSpace)
    (hl : (w.upTo h.stop).limit = h.stop) :
    Layout.text w h = .ok c ↔ Kind.ofClass Kind.isText h.tag = true ∧
      (w.upTo h.stop).Holds (h.offset + Header.length) (encodeFields c) := by
  rw [← CommonFields.guarded_eq_ok_iff ha hl, ← Header.requireClass_eq_ok_iff]
  exact guard_eq_ok_iff

/-- The layout of a numeric option is its tag, the common fields and a default. -/
theorem Layout.numeric_eq_ok_iff {c : CommonFields} {d : UInt32}
    (ha : h.stop < Window.addressSpace) (hl : (w.upTo h.stop).limit = h.stop) :
    Layout.numeric w h = .ok (c, d) ↔ Kind.ofClass Kind.isNumeric h.tag = true ∧
      (w.upTo h.stop).Holds (h.offset + Header.length) (encodeFields c ++ Bytes.ofUInt32 d) := by
  rw [Window.holds_append, ← CommonFields.read_eq_ok_iff ha hl, length_encodeFields,
    ← Header.requireClass_eq_ok_iff]
  constructor
  · intro hf
    obtain ⟨ht, hf⟩ := guard_eq_ok_iff.mp hf
    obtain ⟨-, hf⟩ := guard_eq_ok_iff.mp hf
    obtain ⟨c', hc, hf⟩ := bind_eq_ok_iff.mp hf
    obtain ⟨d', hd, hf⟩ := bind_eq_ok_iff.mp hf
    obtain ⟨rfl, rfl⟩ := Prod.mk.inj (pure_eq_ok_iff.mp hf)
    exact ⟨ht, hc, (Window.uint32_eq_ok_iff.mp hd).2⟩
  · rintro ⟨ht, hc, hd⟩
    have hle := hd.1
    rw [Bytes.length_ofUInt32, hl, Header.stop] at hle
    simp only [Header.stop] at ha
    refine guard_eq_ok_iff.mpr ⟨ht, guard_eq_ok_iff.mpr ⟨Header.requireMin_eq_ok_iff.mpr ?_, ?_⟩⟩
    · simp only [numericLength, formLength, Header.length] at hle ⊢
      omega
    refine bind_eq_ok_iff.mpr ⟨c, hc, ?_⟩
    refine bind_eq_ok_iff.mpr ⟨d, Window.uint32_eq_ok_iff.mpr ⟨?_, hd⟩, rfl⟩
    simp only [defaultOffset, formLength, Header.length] at hle ⊢
    omega

/-- The layout of a value is its tag and a word. -/
theorem Layout.enumValue_eq_ok_iff {v : UInt32} (ha : h.stop < Window.addressSpace)
    (hl : (w.upTo h.stop).limit = h.stop) :
    Layout.enumValue w h = .ok v ↔ h.tag = Kind.enumValue.tag ∧
      (w.upTo h.stop).Holds (h.offset + Header.length) (Bytes.ofUInt32 v) := by
  unfold Layout.enumValue
  rw [guard_eq_ok_iff, guard_eq_ok_iff, Window.uint32_eq_ok_iff, Header.requireTag_eq_ok_iff,
    Header.requireMin_eq_ok_iff]
  constructor
  · rintro ⟨ht, -, -, hv⟩
    exact ⟨ht, hv⟩
  · rintro ⟨ht, hv⟩
    have hle := hv.1
    rw [Bytes.length_ofUInt32, hl, Header.stop] at hle
    simp only [Header.stop] at ha
    refine ⟨ht, ?_, by omega, hv⟩
    simp only [enumValueLength, Header.length] at hle ⊢
    omega

/-! ## Enum values

A value is a word and a label that fills the record. The values of an option stand one behind the
other and end with the window.
-/

namespace EnumValue

/-- The bytes `bs` spell the enum value `v`: its number and its label. -/
def Spells (v : EnumValue) (bs : List UInt8) : Prop :=
  ∃ size label, Field.IsText Kind.label.tag v.label label ∧
    IsRecord Kind.enumValue.tag size (Bytes.ofUInt32 v.value ++ label) bs

/-- The bytes `bs` spell the values one after the other, the first of them at `cursor`. -/
def SpellAll : Nat → List EnumValue → List UInt8 → Prop
  | _, [], bs => bs = []
  | cursor, v :: vs, bs =>
    ∃ a b, bs = a ++ b ∧ v.offset = cursor ∧ v.Spells a ∧ SpellAll (cursor + a.length) vs b

/-- A decoded value is spelled where it was read. -/
theorem exists_of_decode {v : EnumValue} (hp : Header.parse w cursor = .ok h)
    (ha : h.stop < Window.addressSpace) (hd : decode w h = .ok v) :
    v.offset = cursor ∧ ∃ bs, v.Spells bs ∧ w.Holds cursor bs ∧ h.stop = cursor + bs.length := by
  have hl := Header.limit_upTo_stop hp
  obtain ⟨value, hv, hd⟩ := bind_eq_ok_iff.mp hd
  obtain ⟨field, hf, hd⟩ := bind_eq_ok_iff.mp hd
  obtain ⟨hc, hd⟩ := guard_eq_ok_iff.mp hd
  obtain ⟨label, ht, hd⟩ := bind_eq_ok_iff.mp hd
  obtain rfl := pure_eq_ok_iff.mp hd
  obtain ⟨htag, hv⟩ := (Layout.enumValue_eq_ok_iff ha hl).mp hv
  obtain ⟨ho, hft, fs, hsp, hfb⟩ := (Field.require_eq_ok_iff_spells (by rwa [hl])).mp hf
  -- the label ends with the record, so nothing stands between
  have hstop := Header.requireFilled_eq_ok_iff.mp hc
  rw [hsp.stop_eq, ho] at hstop
  have hbody : (w.upTo h.stop).Holds (h.offset + Header.length) (Bytes.ofUInt32 value ++ fs) :=
    Window.holds_append.mpr ⟨hv, by rwa [Bytes.length_ofUInt32]⟩
  obtain ⟨bs, hrec, hb, hend⟩ := Header.exists_record hp hbody (by
    rw [← hstop, List.length_append, Bytes.length_ofUInt32, Layout.enumValueLength]
    omega)
  rw [htag] at hrec
  obtain ⟨rfl, -⟩ := Header.parse_eq_ok_iff.mp hp
  exact ⟨rfl, bs, ⟨h.size, fs, ⟨field, hft, Field.text_eq_ok_iff.mp ht, hsp⟩, hrec⟩, hb, hend⟩

/-- A value is decoded where it is spelled. -/
theorem decode_of_spells {v : EnumValue} {bs : List UInt8} (hs : v.Spells bs)
    (hb : w.Holds v.offset bs) (ha : v.offset + bs.length < Window.addressSpace) :
    ∃ h, Header.parse w v.offset = .ok h ∧ h.stop = v.offset + bs.length ∧ decode w h = .ok v := by
  obtain ⟨size, label, ht, hrec⟩ := hs
  obtain ⟨h, hp, ho, htag, -, hstop, hend, hbody⟩ := Header.exists_of_record hrec hb ha
  have hl := Header.limit_upTo_stop hp
  rw [← hstop] at ha
  rw [← ho, Window.holds_append, Bytes.length_ofUInt32] at hbody
  rw [List.length_append, Bytes.length_ofUInt32, ← ho] at hend
  obtain ⟨f, hfo, hft, htext, hsp⟩ := ht.exists_at (h.offset + Layout.enumValueLength)
  refine ⟨h, hp, hstop, ?_⟩
  refine bind_eq_ok_iff.mpr ⟨v.value, (Layout.enumValue_eq_ok_iff ha hl).mpr ⟨htag, hbody.1⟩, ?_⟩
  refine bind_eq_ok_iff.mpr ⟨f, ?_, guard_eq_ok_iff.mpr ⟨Header.requireFilled_eq_ok_iff.mpr ?_, ?_⟩⟩
  · exact (Field.require_eq_ok_iff_spells (by rwa [hl])).mpr ⟨hfo, hft, label, hsp, hbody.2⟩
  · rw [hsp.stop_eq, hfo, hend, Layout.enumValueLength]
    omega
  · refine bind_eq_ok_iff.mpr ⟨v.label, Field.text_eq_ok_iff.mpr htext, ?_⟩
    rw [ho]
    rfl

theorem Spells.length_pos {v : EnumValue} {bs : List UInt8} (h : v.Spells bs) : 0 < bs.length := by
  obtain ⟨size, label, -, hrec⟩ := h
  have hl := hrec.length_eq
  simp only [Header.length] at hl
  omega

theorem decodeAll_of_le (hc : w.stop ≤ cursor) : decodeAll w cursor = .ok [] := by
  rw [decodeAll, if_neg (by omega)]

theorem decodeAll_of_lt (hc : cursor < w.stop) :
    decodeAll w cursor = Header.parse w cursor >>= fun h =>
      decode w h >>= fun v => (decodeAll w h.stop).map (v :: ·) := by
  rw [decodeAll, if_pos hc]
  split
  next f hp => rw [hp]; rfl
  next h hp =>
    rw [hp]
    show _ = decode w h >>= _
    split
    next f hd => rw [hd]; rfl
    next v hd => rw [hd]; rfl

/-- Decoded values fill the rest of the window with their spelling. -/
theorem exists_of_decodeAll {vs : List EnumValue} (hw : w.limit < Window.addressSpace)
    (hc : cursor ≤ w.limit) (hs : w.limit = w.stop) (hd : decodeAll w cursor = .ok vs) :
    ∃ bs, SpellAll cursor vs bs ∧ w.Holds cursor bs ∧ cursor + bs.length = w.stop := by
  fun_induction decodeAll w cursor generalizing vs with
  | case1 cursor hlt f hp => cases hd
  | case2 cursor hlt h hp f hv => cases hd
  | case3 cursor hlt h hp v hv ih =>
    obtain ⟨vs', hvs, rfl⟩ := map_eq_ok_iff.mp hd
    have hle := (Header.parse_eq_ok hp).2.2.1
    -- the first value ends where the spelling of the others starts
    obtain ⟨ho, a, hsp, ha, hstop⟩ := exists_of_decode hp (by omega) hv
    obtain ⟨b, hall, hb, hend⟩ := ih hle hvs
    rw [hstop] at hall hb hend
    refine ⟨a ++ b, ⟨a, b, rfl, ho, hsp, hall⟩, Window.holds_append.mpr ⟨ha, hb⟩, ?_⟩
    rw [List.length_append]
    omega
  | case4 cursor hge =>
    obtain rfl := Except.ok.inj hd
    exact ⟨[], rfl, Window.holds_nil hc, by simp only [List.length_nil]; omega⟩

/-- Values are decoded where they are spelled up to the end of the window. -/
theorem decodeAll_of_spellAll {vs : List EnumValue} {bs : List UInt8}
    (hw : w.limit < Window.addressSpace) (hs : SpellAll cursor vs bs) (hb : w.Holds cursor bs)
    (hend : cursor + bs.length = w.stop) : decodeAll w cursor = .ok vs := by
  induction vs generalizing cursor bs with
  | nil =>
    obtain rfl : bs = [] := hs
    exact decodeAll_of_le (by simp only [List.length_nil] at hend; omega)
  | cons v vs ih =>
    obtain ⟨a, b, rfl, rfl, hsp, hall⟩ := hs
    have hpos := hsp.length_pos
    have hle := hb.1
    rw [List.length_append] at hend hle
    obtain ⟨ha, hb⟩ := Window.holds_append.mp hb
    obtain ⟨h, hp, hstop, hv⟩ := decode_of_spells hsp ha (by omega)
    rw [decodeAll_of_lt (by omega)]
    refine bind_eq_ok_iff.mpr ⟨h, hp, bind_eq_ok_iff.mpr ⟨v, hv, map_eq_ok_iff.mpr ⟨vs, ?_, rfl⟩⟩⟩
    rw [hstop]
    exact ih hall hb (by omega)

/-- Where values fill the rest of the window, no tag but theirs is to be seen. -/
theorem tagAt?_of_spellAll {vs : List EnumValue} {bs : List UInt8} {t : UInt32}
    (hs : SpellAll cursor vs bs) (hb : w.Holds cursor bs) (hend : cursor + bs.length = w.limit)
    (ht : Header.tagAt? w cursor = some t) : t = Kind.enumValue.tag := by
  obtain ⟨hl, -, ht⟩ := Header.tagAt?_eq_some_iff.mp ht
  cases vs with
  | nil =>
    obtain rfl : bs = [] := hs
    simp only [List.length_nil, Header.length] at hend hl
    omega
  | cons v vs =>
    obtain ⟨a, b, rfl, -, ⟨size, label, -, hrec⟩, -⟩ := hs
    have hh := (Window.holds_append.mp (hrec.holds (Window.holds_append.mp hb).1).1).1
    apply Bytes.ofUInt32_injective
    exact ht.unique hh (by rw [Bytes.length_ofUInt32, Bytes.length_ofUInt32])

end EnumValue

/-! ## Forms

What a form holds is not part of its decoding, only its head is: header, common fields and label.
Where the head ends what the form holds begins.
-/

namespace Form

/-- The bytes `head` spell the form up to its children. -/
def SpellsHead (form : Form) (head : List UInt8) : Prop :=
  ∃ label, Field.IsText Kind.label.tag form.name label ∧
    head = Bytes.ofUInt32 Kind.form.tag ++ Bytes.ofUInt32 form.size ++
      (encodeFields form.fields ++ label) ∧
    form.childrenStart = form.offset + head.length ∧
    form.stop = form.offset + form.size.toNat

/-- A decoded form is spelled where it was read, up to its children. -/
theorem exists_head_of_decode {form : Form} {depth : Nat} (ha : form.stop < Window.addressSpace)
    (hd : decode w cursor depth = .ok form) :
    ∃ head, form.SpellsHead head ∧ w.Holds cursor head := by
  obtain ⟨h, hp, hd⟩ := bind_eq_ok_iff.mp hd
  obtain ⟨fields, hf, hd⟩ := bind_eq_ok_iff.mp hd
  obtain ⟨field, hr, hd⟩ := bind_eq_ok_iff.mp hd
  obtain ⟨name, ht, hd⟩ := bind_eq_ok_iff.mp hd
  obtain rfl := pure_eq_ok_iff.mp hd
  have hl := Header.limit_upTo_stop hp
  obtain ⟨rfl, -, -, hsl, hh⟩ := Header.parse_eq_ok_iff.mp hp
  obtain ⟨htag, hf⟩ := (Layout.form_eq_ok_iff ha hl).mp hf
  obtain ⟨ho, hft, label, hsp, hb⟩ := (Field.require_eq_ok_iff_spells (by rwa [hl])).mp hr
  have hstop := hsp.stop_eq
  rw [Window.holds_upTo_iff hsl] at hf hb
  have htext : Field.IsText Kind.label.tag name label :=
    ⟨field, hft, Field.text_eq_ok_iff.mp ht, hsp⟩
  refine ⟨_, ⟨label, htext, rfl, ?_, rfl⟩, ?_⟩
  · -- what the form holds starts behind the label
    simp only [hstop, ho, Layout.formLength, Header.length, List.length_append,
      Bytes.length_ofUInt32, length_encodeFields]
    omega
  · rw [← htag, ← Header.bytes, Window.holds_append, Window.holds_append, Header.length_bytes,
      length_encodeFields]
    exact ⟨hh, hf.2, hb.2⟩

/-- A form is decoded where it is spelled up to its children, if its frame fits. -/
theorem decode_of_head {form : Form} {head : List UInt8} (ha : form.stop < Window.addressSpace)
    (hc : form.childrenStart ≤ form.stop) (hs : form.stop ≤ w.limit) (hh : form.SpellsHead head)
    (hb : w.Holds form.offset head) : decode w form.offset form.depth = .ok form := by
  obtain ⟨label, ht, rfl, hstart, hstop⟩ := hh
  have hlen : form.childrenStart = form.offset + Layout.formLength + label.length := by
    rw [hstart]
    simp only [Layout.formLength, Header.length, List.length_append, Bytes.length_ofUInt32,
      length_encodeFields]
    omega
  have hx : w.Holds form.offset (Header.bytes ⟨form.offset, Kind.form.tag, form.size⟩ ++
      (encodeFields form.fields ++ label)) := hb
  rw [Window.holds_append, Window.holds_append, Header.length_bytes, length_encodeFields] at hx
  obtain ⟨hh, hf, hlabel⟩ := hx
  simp only [Layout.formLength, Header.length] at hlen
  have hp : Header.parse w form.offset = .ok ⟨form.offset, Kind.form.tag, form.size⟩ := by
    refine Header.parse_eq_ok_iff.mpr ⟨rfl, ?_, ?_, by rwa [Header.stop, ← hstop], hh⟩ <;>
      simp only [Header.length] <;> omega
  have hst : Header.stop ⟨form.offset, Kind.form.tag, form.size⟩ = form.stop := hstop.symm
  have hl := Header.limit_upTo_stop hp
  rw [← hst] at ha
  -- what stands inside the form stands inside its frame
  have hframe : ∀ {start : Nat} {bs : List UInt8},
      start + bs.length ≤ form.stop → w.Holds start bs →
      (w.upTo (Header.stop ⟨form.offset, Kind.form.tag, form.size⟩)).Holds start bs :=
    fun hle hb => (Window.holds_upTo_iff (hst ▸ hs)).mpr ⟨hst ▸ hle, hb⟩
  obtain ⟨f, ho, hft, htext, hsp⟩ := ht.exists_at (form.offset + Layout.formLength)
  refine bind_eq_ok_iff.mpr ⟨_, hp, bind_eq_ok_iff.mpr ⟨form.fields, ?_, ?_⟩⟩
  · refine (Layout.form_eq_ok_iff ha hl).mpr ⟨rfl, hframe ?_ hf⟩
    simp only [length_encodeFields, Header.length]
    omega
  refine bind_eq_ok_iff.mpr ⟨f, (Field.require_eq_ok_iff_spells (by rwa [hl])).mpr
    ⟨ho, hft, label, hsp, hframe ?_ hlabel⟩, ?_⟩
  · simp only [Layout.formLength, Header.length]
    omega
  refine bind_eq_ok_iff.mpr ⟨form.name, Field.text_eq_ok_iff.mpr htext, ?_⟩
  rw [hsp.stop_eq, ho, hst]
  simp only [Layout.formLength, Header.length]
  rw [← hlen]
  rfl

/-- A form is decoded exactly where its head is spelled and its frame fits. -/
theorem decode_eq_ok_iff_head {form : Form} {depth : Nat} (ha : form.stop < Window.addressSpace) :
    decode w cursor depth = .ok form ↔
      form.offset = cursor ∧ form.depth = depth ∧ form.childrenStart ≤ form.stop ∧
        form.stop ≤ w.limit ∧ ∃ head, form.SpellsHead head ∧ w.Holds cursor head := by
  constructor
  · intro hd
    obtain ⟨ho, hdepth, -, -, hc, hs⟩ := decode_eq_ok hd
    exact ⟨ho, hdepth, hc, hs, exists_head_of_decode ha hd⟩
  · rintro ⟨rfl, rfl, hc, hs, head, hh, hb⟩
    exact decode_of_head ha hc hs hh hb

end Form

end SetupForms
