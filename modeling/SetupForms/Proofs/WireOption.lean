import SetupForms.Proofs.WireRecord

/-!
# Options on the wire

`NumericOption.Spells` and `TextOption.Spells` say which bytes spell an option: its fixed part, its
fields in their order, and for an enum its values, all together as long as the declared size. As for
enum values and forms, what is decoded is spelled where it was read, and what is spelled is decoded
where it stands.
-/

namespace SetupForms

open Blueprint Text

variable {w : Window} {cursor : Nat} {h : Header}

/-! ## Numeric options

The three texts of a numeric option are read one behind the other, and only an enum has more behind
them. Whether the values fill the rest is the last condition, and it is one on places.
-/

namespace NumericOption

/-- The bytes `bs` spell the numeric option: common fields, default, name, label, perhaps a help
text, and the values, of which only an enum has any. -/
def Spells (o : NumericOption) (bs : List UInt8) : Prop :=
  ∃ name label help values,
    Field.IsText Kind.optionName.tag o.name name ∧
    Field.IsText Kind.label.tag o.label label ∧
    Field.IsOptionalText Kind.help.tag o.help help ∧
    EnumValue.SpellAll
      (o.offset + Layout.numericLength + name.length + label.length + help.length)
      o.values values ∧
    (o.kind ≠ .enum → o.values = []) ∧
    IsRecord o.kind.kind.tag o.size
      (encodeFields o.fields ++ Bytes.ofUInt32 o.default ++ name ++ label ++ help ++ values) bs

/-- What follows the fields up to the end of the option spells its values. -/
theorem exists_of_decodeValues {kind : NumericKind} {vs : List EnumValue}
    (ha : h.stop < Window.addressSpace) (hl : (w.upTo h.stop).limit = h.stop)
    (hc : cursor ≤ h.stop) (hd : decodeValues (w.upTo h.stop) h cursor kind = .ok vs) :
    (kind ≠ .enum → vs = []) ∧ ∃ bs, EnumValue.SpellAll cursor vs bs ∧
      (w.upTo h.stop).Holds cursor bs ∧ cursor + bs.length = h.stop := by
  cases kind with
  | enum =>
    exact ⟨fun hk => absurd rfl hk,
      EnumValue.exists_of_decodeAll (by rwa [hl]) (by rwa [hl]) hl hd⟩
  | number | bool =>
    obtain ⟨⟨⟩, hf, rfl⟩ := map_eq_ok_iff.mp hd
    have hcs := Header.requireFilled_eq_ok_iff.mp hf
    exact ⟨fun _ => rfl, [], rfl, Window.holds_nil (by rwa [hl]), hcs⟩

/-- Values that fill the option are decoded, and where there are none nothing else may follow. -/
theorem decodeValues_of_spellAll {kind : NumericKind} {vs : List EnumValue} {bs : List UInt8}
    (ha : h.stop < Window.addressSpace) (hl : (w.upTo h.stop).limit = h.stop)
    (hk : kind ≠ .enum → vs = []) (hs : EnumValue.SpellAll cursor vs bs)
    (hb : (w.upTo h.stop).Holds cursor bs) (hend : cursor + bs.length = h.stop) :
    decodeValues (w.upTo h.stop) h cursor kind = .ok vs := by
  cases kind with
  | enum => exact EnumValue.decodeAll_of_spellAll (by rwa [hl]) hs hb hend
  | number | bool =>
    obtain rfl := hk nofun
    obtain rfl : bs = [] := hs
    exact map_eq_ok_iff.mpr ⟨(), Header.requireFilled_eq_ok_iff.mpr hend, rfl⟩

/-- A decoded option is spelled where it was read. -/
theorem exists_of_decode {o : NumericOption} {kind : NumericKind}
    (hp : Header.parse w cursor = .ok h) (ha : h.stop < Window.addressSpace)
    (hk : h.tag = kind.kind.tag) (hd : decode w h kind = .ok o) :
    o.offset = cursor ∧ o.kind = kind ∧
      ∃ bs, o.Spells bs ∧ w.Holds cursor bs ∧ h.stop = cursor + bs.length := by
  have hl := Header.limit_upTo_stop hp
  have hw : (w.upTo h.stop).limit < Window.addressSpace := by rwa [hl]
  obtain ⟨⟨fields, default⟩, hf, hd⟩ := bind_eq_ok_iff.mp hd
  obtain ⟨⟨name, c₁⟩, hn, hd⟩ := bind_eq_ok_iff.mp hd
  obtain ⟨⟨label, c₂⟩, hlab, hd⟩ := bind_eq_ok_iff.mp hd
  obtain ⟨⟨help, c₃⟩, hh, hd⟩ := bind_eq_ok_iff.mp hd
  obtain ⟨values, hv, hd⟩ := bind_eq_ok_iff.mp hd
  obtain rfl := pure_eq_ok_iff.mp hd
  obtain ⟨-, hf⟩ := (Layout.numeric_eq_ok_iff ha hl).mp hf
  obtain ⟨ns, hns, hnb, rfl⟩ := (Field.requireText_eq_ok_iff hw).mp hn
  obtain ⟨ls, hls, hlb, rfl⟩ := (Field.requireText_eq_ok_iff hw).mp hlab
  obtain ⟨hs, hhs, hhb, rfl⟩ := Field.exists_of_optionalText hw hlb.1 hh
  obtain ⟨hne, vs, hvs, hvb, hend⟩ := exists_of_decodeValues ha hl (by rw [← hl]; exact hhb.1) hv
  -- the parts stand one behind the other, so together they are the body of the record
  have hbody : (w.upTo h.stop).Holds (h.offset + Header.length)
      (encodeFields fields ++ Bytes.ofUInt32 default ++ ns ++ ls ++ hs ++ vs) := by
    simp only [Window.holds_append, List.length_append, length_encodeFields,
      Bytes.length_ofUInt32] at hf ⊢
    simp only [Layout.numericLength, Layout.formLength] at hnb hlb hhb hvb
    exact ⟨⟨⟨⟨hf, hnb⟩, by simpa only [Nat.add_assoc] using hlb⟩,
      by simpa only [Nat.add_assoc] using hhb⟩, by simpa only [Nat.add_assoc] using hvb⟩
  obtain ⟨bs, hrec, hb, hstop⟩ := Header.exists_record hp hbody (by
    simp only [List.length_append, length_encodeFields, Bytes.length_ofUInt32]
    simp only [Layout.numericLength, Layout.formLength] at hend
    omega)
  rw [hk] at hrec
  obtain ⟨rfl, -⟩ := Header.parse_eq_ok_iff.mp hp
  exact ⟨rfl, rfl, bs, ⟨ns, ls, hs, vs, hns, hls, hhs, hvs, hne, hrec⟩, hb, hstop⟩

/-- An option is decoded where it is spelled. -/
theorem decode_of_spells {o : NumericOption} {bs : List UInt8} (hs : o.Spells bs)
    (hb : w.Holds o.offset bs) (ha : o.offset + bs.length < Window.addressSpace) :
    ∃ h, Header.parse w o.offset = .ok h ∧ h.offset = o.offset ∧ h.stop = o.offset + bs.length ∧
      h.tag = o.kind.kind.tag ∧ decode w h o.kind = .ok o := by
  obtain ⟨name, label, help, values, hname, hlabel, hhelp, hvalues, hne, hrec⟩ := hs
  obtain ⟨h, hp, ho, htag, hsize, hstop, hend, hbody⟩ := Header.exists_of_record hrec hb ha
  have hl := Header.limit_upTo_stop hp
  rw [← hstop] at ha
  have hw : (w.upTo h.stop).limit < Window.addressSpace := by rwa [hl]
  simp only [Window.holds_append, List.length_append, length_encodeFields, Bytes.length_ofUInt32,
    ← ho, Nat.add_assoc] at hbody hend
  obtain ⟨⟨⟨⟨hf, hn⟩, hlab⟩, hh⟩, hv⟩ := hbody
  have hlen : Layout.numericLength = Header.length + (20 + 4) := rfl
  have hclass : Kind.ofClass Kind.isNumeric h.tag = true := by
    rw [htag, Kind.ofClass, Kind.ofTag?_tag]
    cases o.kind <;> rfl
  refine ⟨h, hp, ho, hstop, htag, bind_eq_ok_iff.mpr ⟨(o.fields, o.default), ?_, ?_⟩⟩
  · refine (Layout.numeric_eq_ok_iff ha hl).mpr ⟨hclass, Window.holds_append.mpr ?_⟩
    rwa [length_encodeFields, Nat.add_assoc]
  -- the fields are read in the order in which they are spelled
  refine bind_eq_ok_iff.mpr ⟨(o.name, _), (Field.requireText_eq_ok_iff hw).mpr
    ⟨name, hname, by rwa [hlen], rfl⟩, ?_⟩
  refine bind_eq_ok_iff.mpr ⟨(o.label, _), (Field.requireText_eq_ok_iff hw).mpr
    ⟨label, hlabel, by simpa only [hlen, Nat.add_assoc] using hlab, rfl⟩, ?_⟩
  have hvalues' : (w.upTo h.stop).Holds
      (h.offset + Layout.numericLength + name.length + label.length + help.length) values := by
    simpa only [hlen, Nat.add_assoc] using hv
  have hfill : h.offset + Layout.numericLength + name.length + label.length + help.length +
      values.length = h.stop := by
    omega
  rw [← ho] at hvalues
  refine bind_eq_ok_iff.mpr ⟨(o.help, _), Field.optionalText_of_holds hw hhelp
    (by simpa only [hlen, Nat.add_assoc] using hh) fun hnone ht => ?_, ?_⟩
  · -- without a help text the values come next, and their tag is not that of a help text
    rw [hnone] at hhelp
    obtain rfl : help = [] := hhelp
    exact absurd (EnumValue.tagAt?_of_spellAll hvalues hvalues' (by rw [hfill, hl]) ht) (by decide)
  refine bind_eq_ok_iff.mpr
    ⟨o.values, decodeValues_of_spellAll ha hl hne hvalues hvalues' hfill, ?_⟩
  rw [ho, hsize]
  rfl

end NumericOption

/-! ## Text options

A text option has a default and a name in front of its label and a comment has neither. This part is
looked at first, for both kinds, so that the rest of the option is one proof.
-/

namespace TextOption

/-- The bytes `bs` spell what stands between the fixed part and the label: the default and the name
of a text option, and nothing of a comment. -/
def SpellsValue (limits : Limits) (o : TextOption) (bs : List UInt8) : Prop :=
  match o.kind, o.default, o.name with
  | .varchar, some f, some s =>
    ∃ default name, bs = default ++ name ∧ f.offset = o.offset + Layout.textLength ∧
      f.tag = Kind.defaultValue.tag ∧ f.dataLength ≤ limits.maxDefaultLength ∧
      f.Spells default ∧ Field.IsText Kind.optionName.tag s name
  | .comment, none, none => bs = []
  | _, _, _ => False

/-- The bytes `bs` spell the text option: common fields, default and name unless it is a comment,
label, and perhaps a help text. -/
def Spells (limits : Limits) (o : TextOption) (bs : List UInt8) : Prop :=
  ∃ value label help,
    SpellsValue limits o value ∧
    Field.IsText Kind.label.tag o.label label ∧
    Field.IsOptionalText Kind.help.tag o.help help ∧
    IsRecord o.kind.kind.tag o.size (encodeFields o.fields ++ value ++ label ++ help) bs

variable {limits : Limits}

/-- A default must not be longer than the limit. -/
theorem requireLength_eq_ok_iff {f : Field} :
    requireLength limits f = .ok () ↔ f.dataLength ≤ limits.maxDefaultLength := by
  unfold requireLength
  split
  next hlt =>
    simp only [reduceCtorEq, false_iff]
    exact UInt32.not_le.mpr hlt
  next hlt => exact ⟨fun _ => UInt32.not_lt.mp hlt, fun _ => rfl⟩

/-- A decoded default and name are spelled where they were read. -/
theorem exists_of_decodeValue {o : TextOption} {next : Nat} (hw : w.limit < Window.addressSpace)
    (hc : o.offset + Layout.textLength ≤ w.limit)
    (hd : decodeValue w (o.offset + Layout.textLength) limits o.kind =
      .ok (o.default, o.name, next)) :
    ∃ bs, SpellsValue limits o bs ∧ w.Holds (o.offset + Layout.textLength) bs ∧
      next = o.offset + Layout.textLength + bs.length := by
  obtain ⟨offset, size, kind, fields, default, name, label, help⟩ := o
  cases kind with
  | comment =>
    obtain ⟨rfl, h'⟩ := Prod.mk.inj (Except.ok.inj hd)
    obtain ⟨rfl, rfl⟩ := Prod.mk.inj h'
    exact ⟨[], rfl, Window.holds_nil hc, rfl⟩
  | varchar =>
    obtain ⟨f, hf, hd⟩ := bind_eq_ok_iff.mp hd
    obtain ⟨hlen, hd⟩ := guard_eq_ok_iff.mp hd
    obtain ⟨⟨s, c⟩, hs, hd⟩ := bind_eq_ok_iff.mp hd
    obtain ⟨rfl, h'⟩ := Prod.mk.inj (pure_eq_ok_iff.mp hd)
    obtain ⟨rfl, rfl⟩ := Prod.mk.inj h'
    obtain ⟨ho, hft, a, hsp, ha⟩ := (Field.require_eq_ok_iff_spells hw).mp hf
    obtain ⟨b, hb, hbh, rfl⟩ := (Field.requireText_eq_ok_iff hw).mp hs
    rw [hsp.stop_eq, ho] at hbh ⊢
    refine ⟨a ++ b, ⟨a, b, rfl, ho, hft, requireLength_eq_ok_iff.mp hlen, hsp, hb⟩,
      Window.holds_append.mpr ⟨ha, hbh⟩, ?_⟩
    rw [List.length_append, Nat.add_assoc]

/-- A default and a name are decoded where they are spelled. -/
theorem decodeValue_of_spells {o : TextOption} {bs : List UInt8}
    (hw : w.limit < Window.addressSpace) (hs : SpellsValue limits o bs)
    (hb : w.Holds (o.offset + Layout.textLength) bs) :
    decodeValue w (o.offset + Layout.textLength) limits o.kind =
      .ok (o.default, o.name, o.offset + Layout.textLength + bs.length) := by
  obtain ⟨offset, size, kind, fields, default, name, label, help⟩ := o
  -- the cases are a text with both, a comment with neither, and nothing else
  unfold SpellsValue at hs
  split at hs
  next f s hk hdef hname =>
    simp only at hk hdef hname
    subst hk hdef hname
    obtain ⟨a, b, rfl, ho, hft, hlen, hsp, htext⟩ := hs
    obtain ⟨ha, hb⟩ := Window.holds_append.mp hb
    have hstop : f.stop = offset + Layout.textLength + a.length := by rw [hsp.stop_eq, ho]
    refine bind_eq_ok_iff.mpr ⟨f, (Field.require_eq_ok_iff_spells hw).mpr ⟨ho, hft, a, hsp, ha⟩, ?_⟩
    refine guard_eq_ok_iff.mpr ⟨requireLength_eq_ok_iff.mpr hlen, ?_⟩
    refine bind_eq_ok_iff.mpr ⟨(s, _), (Field.requireText_eq_ok_iff hw).mpr
      ⟨b, htext, by rwa [hstop], rfl⟩, ?_⟩
    rw [hstop, Nat.add_assoc, ← List.length_append]
    rfl
  next hk hdef hname =>
    simp only at hk hdef hname
    subst hk hdef hname hs
    rfl
  next => exact hs.elim

/-- A decoded option is spelled where it was read. -/
theorem exists_of_decode {o : TextOption} {kind : TextKind}
    (hp : Header.parse w cursor = .ok h) (ha : h.stop < Window.addressSpace)
    (hk : h.tag = kind.kind.tag) (hd : decode w h kind limits = .ok o) :
    o.offset = cursor ∧ o.kind = kind ∧
      ∃ bs, o.Spells limits bs ∧ w.Holds cursor bs ∧ h.stop = cursor + bs.length := by
  have hl := Header.limit_upTo_stop hp
  have hw : (w.upTo h.stop).limit < Window.addressSpace := by rwa [hl]
  obtain ⟨fields, hf, hd⟩ := bind_eq_ok_iff.mp hd
  obtain ⟨⟨default, name, c₁⟩, hval, hd⟩ := bind_eq_ok_iff.mp hd
  obtain ⟨⟨label, c₂⟩, hlab, hd⟩ := bind_eq_ok_iff.mp hd
  obtain ⟨⟨help, c₃⟩, hh, hd⟩ := bind_eq_ok_iff.mp hd
  obtain ⟨hc, hd⟩ := guard_eq_ok_iff.mp hd
  obtain rfl := pure_eq_ok_iff.mp hd
  obtain ⟨-, hf⟩ := (Layout.text_eq_ok_iff ha hl).mp hf
  have hfl := hf.1
  rw [length_encodeFields] at hfl
  obtain ⟨vs, hvs, hvb, rfl⟩ := exists_of_decodeValue
    (o := ⟨h.offset, h.size, kind, fields, default, name, label, help⟩) hw hfl hval
  obtain ⟨ls, hls, hlb, rfl⟩ := (Field.requireText_eq_ok_iff hw).mp hlab
  obtain ⟨hs, hhs, hhb, rfl⟩ := Field.exists_of_optionalText hw hlb.1 hh
  have hend := Header.requireFilled_eq_ok_iff.mp hc
  have hlen : Layout.textLength = Header.length + 20 := rfl
  -- the parts stand one behind the other, so together they are the body of the record
  have hbody : (w.upTo h.stop).Holds (h.offset + Header.length)
      (encodeFields fields ++ vs ++ ls ++ hs) := by
    simp only [Window.holds_append, List.length_append, length_encodeFields]
    simp only [hlen] at hvb hlb hhb
    exact ⟨⟨⟨hf, hvb⟩, by simpa only [Nat.add_assoc] using hlb⟩,
      by simpa only [Nat.add_assoc] using hhb⟩
  obtain ⟨bs, hrec, hb, hstop⟩ := Header.exists_record hp hbody (by
    simp only [List.length_append, length_encodeFields]
    simp only [hlen] at hend
    omega)
  rw [hk] at hrec
  obtain ⟨rfl, -⟩ := Header.parse_eq_ok_iff.mp hp
  exact ⟨rfl, rfl, bs, ⟨vs, ls, hs, hvs, hls, hhs, hrec⟩, hb, hstop⟩

/-- An option is decoded where it is spelled. -/
theorem decode_of_spells {o : TextOption} {bs : List UInt8} (hs : o.Spells limits bs)
    (hb : w.Holds o.offset bs) (ha : o.offset + bs.length < Window.addressSpace) :
    ∃ h, Header.parse w o.offset = .ok h ∧ h.offset = o.offset ∧ h.stop = o.offset + bs.length ∧
      h.tag = o.kind.kind.tag ∧ decode w h o.kind limits = .ok o := by
  obtain ⟨value, label, help, hvalue, hlabel, hhelp, hrec⟩ := hs
  obtain ⟨h, hp, ho, htag, hsize, hstop, hend, hbody⟩ := Header.exists_of_record hrec hb ha
  have hl := Header.limit_upTo_stop hp
  rw [← hstop] at ha
  have hw : (w.upTo h.stop).limit < Window.addressSpace := by rwa [hl]
  simp only [Window.holds_append, List.length_append, length_encodeFields, ← ho,
    Nat.add_assoc] at hbody hend
  obtain ⟨⟨⟨hf, hv⟩, hlab⟩, hh⟩ := hbody
  have hlen : Layout.textLength = Header.length + 20 := rfl
  have hclass : Kind.ofClass Kind.isText h.tag = true := by
    rw [htag, Kind.ofClass, Kind.ofTag?_tag]
    cases o.kind <;> rfl
  refine ⟨h, hp, ho, hstop, htag, ?_⟩
  refine bind_eq_ok_iff.mpr ⟨o.fields, (Layout.text_eq_ok_iff ha hl).mpr ⟨hclass, hf⟩, ?_⟩
  have hdv := decodeValue_of_spells hw hvalue (by rwa [hlen, ← ho])
  rw [← ho] at hdv
  refine bind_eq_ok_iff.mpr ⟨(o.default, o.name, _), hdv, ?_⟩
  refine bind_eq_ok_iff.mpr ⟨(o.label, _), (Field.requireText_eq_ok_iff hw).mpr
    ⟨label, hlabel, by simpa only [hlen, Nat.add_assoc] using hlab, rfl⟩, ?_⟩
  have hfill : h.offset + Layout.textLength + value.length + label.length + help.length =
      h.stop := by
    omega
  refine bind_eq_ok_iff.mpr ⟨(o.help, _), Field.optionalText_of_holds hw hhelp
    (by simpa only [hlen, Nat.add_assoc] using hh) fun hnone ht => ?_, ?_⟩
  · -- without a help text the label ends the option, and no header fits behind it
    rw [hnone] at hhelp
    obtain rfl : help = [] := hhelp
    have hle := (Header.tagAt?_eq_some_iff.mp ht).1
    rw [hl, ← hfill] at hle
    simp only [List.length_nil, Header.length] at hle
    omega
  refine guard_eq_ok_iff.mpr ⟨Header.requireFilled_eq_ok_iff.mpr hfill, ?_⟩
  rw [ho, hsize]
  rfl

end TextOption

end SetupForms
