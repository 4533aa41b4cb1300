import SetupForms.Proofs.Isolation

/-!
# Stamped records

Right behind the header of a form or option stand its ids and flags, and behind those of a number
its default. A `Stamp` is written over these bytes and keeps their length. It leaves every frame as
it is (`Stamp.Over.spares`, `Stamp.Over.parse`), so that the record decodes, or fails to, as it did,
but for what the stamp says (`Stamp.Stamped.form_decode`, `Stamp.Stamped.numeric_decode`,
`Stamp.Stamped.text_decode`).

Of a stamped window three things are known: the bytes in front of the stamp and behind it are those
of the other window, and the stamp itself is held. A decoder reads the fixed part of a record first,
in which the stamp shows, and the rest from behind it, so that its result is the old one with
another fixed part.
-/

namespace SetupForms

universe u v

variable {w w' : Window} {cursor depth : Nat} {h : Header} {limits : Limits}

/-! ## Chains whose first step has another result

A decoder is a chain of steps. When only the result of the first one differs, and the others make
the same of it, the results differ in the same way.
-/

section

variable {ε : Type u} {α α' β β' : Type v} {f : β → β'}

/-- A chain has another result if its first step and, from there, its rest have. -/
theorem bind_of_map {x : Except ε α} {x' : Except ε α'} {φ : α → α'} {k : α → Except ε β}
    {k' : α' → Except ε β'} (hx : x' = x.map φ)
    (hk : ∀ a, x = .ok a → k' (φ a) = (k a).map f) : x' >>= k' = (x >>= k).map f := by
  rw [hx]
  cases x with
  | error e => rfl
  | ok a => exact hk a rfl

/-- Steps behind a common first one may differ by what is made of their results. -/
theorem bind_eq_map {x : Except ε α} {k : α → Except ε β} {k' : α → Except ε β'}
    (hk : ∀ a, x = .ok a → k' a = (k a).map f) : x >>= k' = (x >>= k).map f := by
  cases x with
  | error e => rfl
  | ok a => exact hk a rfl

end

/-! ## Stamps

A stamp takes as many bytes as it replaces. That the default of a numeric option is one of them only
if the record is such an option is asked by `Fits`.
-/

/-- New ids and flags for a record, and perhaps a new default for a numeric option. -/
structure Stamp where
  /-- the ids and flags -/
  fields : CommonFields
  /-- the default, if that is new too -/
  default? : Option UInt32 := none

namespace Stamp

/-- The bytes of a stamp. -/
def bytes (v : Stamp) : List UInt8 :=
  Blueprint.encodeFields v.fields ++ (v.default?.map Bytes.ofUInt32).getD []

/-- Where the stamp of a record ends. -/
def stop (v : Stamp) (h : Header) : Nat := h.offset + Header.length + v.bytes.length

/-- A buffer with the stamp of the record `h` on it. -/
def on (v : Stamp) (h : Header) (b : Array UInt8) : Array UInt8 :=
  b.extract 0 (h.offset + Header.length) ++ v.bytes.toArray ++ b.extract (v.stop h) b.size

/-- Forms and options are stamped whose size holds the ids and flags. A default is stamped on
numeric options whose size holds it too. -/
structure Fits (v : Stamp) (h : Header) : Prop where
  /-- the record is a form or option -/
  role : Role.ofTag h.tag ≠ .unrecognized
  /-- its size holds the ids and flags -/
  size : Layout.formLength ≤ h.size.toNat
  /-- a default is that of a numeric option, and the size holds it -/
  default : v.default? ≠ none →
    (∃ kind, Role.ofTag h.tag = .numeric kind) ∧ Layout.numericLength ≤ h.size.toNat

variable {v : Stamp}

theorem length_bytes (v : Stamp) :
    v.bytes.length = if v.default? = none then 20 else 24 := by
  obtain ⟨fields, _ | d⟩ := v <;> simp [bytes]

/-- Only a numeric option gets a new default. -/
theorem Fits.default_eq_none (hv : v.Fits h) (hr : ∀ kind, Role.ofTag h.tag ≠ .numeric kind) :
    v.default? = none :=
  Decidable.not_not.mp fun hsome =>
    let ⟨kind, hkind⟩ := (hv.default hsome).1
    hr kind hkind

theorem stop_of_none (hn : v.default? = none) : v.stop h = h.offset + Layout.formLength := by
  rw [stop, length_bytes, if_pos hn]
  rfl

theorem lt_stop (v : Stamp) (h : Header) : h.offset < v.stop h := by
  simp only [stop, Header.length]
  omega

/-- What a form holds stands behind a stamp of ids and flags. -/
theorem stop_le_childrenStart {form : Form} (hn : v.default? = none)
    (hd : Form.decode w h.offset depth = .ok form) : v.stop h ≤ form.childrenStart := by
  obtain ⟨-, -, -, hlow, -⟩ := Form.decode_eq_ok hd
  rw [stop_of_none hn]
  omega

/-- A stamp ends in front of the fields of a numeric option. -/
theorem stop_le (v : Stamp) (h : Header) : v.stop h ≤ h.offset + Layout.numericLength := by
  rw [stop, length_bytes, Nat.add_assoc]
  split <;> simp [Layout.numericLength, Layout.formLength, Header.length]

/-- A stamp lies inside the record. -/
theorem Fits.stop_le_stop (hv : v.Fits h) : v.stop h ≤ h.stop := by
  have hsize := hv.size
  rw [stop, length_bytes, Header.stop]
  by_cases hn : v.default? = none
  · rw [if_pos hn]
    simp only [Layout.formLength, Header.length] at hsize ⊢
    omega
  · have hlong := (hv.default hn).2
    rw [if_neg hn]
    simp only [Layout.numericLength, Layout.formLength, Header.length] at hlong ⊢
    omega

theorem Fits.lt_stop (hv : v.Fits h) : h.offset < h.stop := by
  have hsize := hv.size
  simp only [Layout.formLength, Header.length] at hsize
  simp only [Header.stop]
  omega

/-- A new default lies inside the record. -/
theorem Fits.default_lt_stop (hv : v.Fits h) :
    h.offset + Layout.formLength < h.stop ∨ v.default? = none := by
  by_cases hn : v.default? = none
  · exact .inr hn
  · have hlong := (hv.default hn).2
    simp only [Layout.numericLength] at hlong
    simp only [Header.stop]
    omega

/-- The second window shows the first one with the stamp of the record `h` on it. -/
structure Over (v : Stamp) (h : Header) (w w' : Window) : Prop where
  /-- they end alike -/
  stop : w.stop = w'.stop
  /-- the buffers are equally long -/
  size : w.bytes.size = w'.bytes.size
  /-- the bytes in front of the stamp and behind it are the same -/
  outside : ∀ i, i < h.offset + Header.length ∨ v.stop h ≤ i → w.bytes[i]? = w'.bytes[i]?
  /-- the stamp stands behind the header -/
  inside : ∀ i < v.bytes.length, w'.bytes[h.offset + Header.length + i]? = v.bytes[i]?

/-- A buffer shows the stamp that is put on it. -/
theorem over_on {b : Array UInt8} (hle : v.stop h ≤ b.size) :
    v.Over h (.ofBytes b) (.ofBytes (v.on h b)) := by
  have hstop : v.stop h = h.offset + Header.length + v.bytes.length := rfl
  have hfront : (b.extract 0 (h.offset + Header.length)).size = h.offset + Header.length := by
    rw [Array.size_extract]
    omega
  have hmiddle : (b.extract 0 (h.offset + Header.length) ++ v.bytes.toArray).size = v.stop h := by
    rw [Array.size_append, hfront, List.size_toArray, hstop]
  have hsize : (v.on h b).size = b.size := by
    rw [on, Array.size_append, hmiddle, Array.size_extract]
    omega
  refine ⟨?_, ?_, ?_, fun i hi => ?_⟩
  · simp only [Window.ofBytes, hsize]
  · simp only [Window.ofBytes, hsize]
  · -- The buffer is in three parts, in front of the stamp, the stamp, and behind it.
    rintro i (hi | hi)
    · show b[i]? = (v.on h b)[i]?
      rw [on, Array.getElem?_append_left (by omega), Array.getElem?_append_left (by omega),
        Array.getElem?_extract, if_pos (by omega), Nat.zero_add]
    · show b[i]? = (v.on h b)[i]?
      rw [on, Array.getElem?_append_right (by omega), hmiddle, Array.getElem?_extract]
      split
      · rw [Nat.add_sub_of_le hi]
      · exact Array.getElem?_eq_none (by omega)
  · show (v.on h b)[h.offset + Header.length + i]? = _
    rw [on, Array.getElem?_append_left (by omega), Array.getElem?_append_right (by omega), hfront,
      Nat.add_sub_cancel_left, List.getElem?_toArray]

namespace Over

theorem upTo (ho : v.Over h w w') (stop : Nat) : v.Over h (w.upTo stop) (w'.upTo stop) :=
  ⟨rfl, ho.size, ho.outside, ho.inside⟩

theorem limit (ho : v.Over h w w') : w.limit = w'.limit := by
  rw [Window.limit, Window.limit, ho.stop, ho.size]

/-- Nothing but the stamped record is touched. -/
theorem spares (ho : v.Over h w w') (hv : v.Fits h) : h.Spares w w' := by
  have hle := hv.stop_le_stop
  refine ⟨ho.stop, ho.size, fun i hi => ho.outside i ?_, fun i _ hi => ho.outside i (.inl hi)⟩
  omega

/-- Behind the stamp the windows agree. -/
theorem agreeFrom (ho : v.Over h w w') : Window.AgreeFrom (v.stop h) w w' :=
  ⟨ho.stop, ho.limit, fun i hi _ => ho.outside i (.inr hi)⟩

/-- The header in front of the stamp is read as before. -/
theorem parse (ho : v.Over h w w') (hp : Header.parse w cursor = .ok h) :
    Header.parse w' cursor = .ok h := by
  obtain ⟨rfl, ha, hm, hstop, hl, hb⟩ := Header.parse_eq_ok_iff.mp hp
  refine Header.parse_eq_ok_iff.mpr ⟨rfl, ha, hm, ho.limit ▸ hstop, ho.limit ▸ hl, fun i hi => ?_⟩
  rw [Header.length_bytes] at hi
  rw [← ho.outside _ (.inl (by omega)), hb i (by rwa [Header.length_bytes])]

end Over

end Stamp

/-- The form with a stamp on it. -/
def Form.stamp (v : Stamp) (f : Form) : Form := { f with fields := v.fields }

/-- The numeric option with a stamp on it. -/
def NumericOption.stamp (v : Stamp) (o : NumericOption) : NumericOption :=
  { o with
    fields := v.fields
    default := v.default?.getD o.default }

/-- The text option with a stamp on it. -/
def TextOption.stamp (v : Stamp) (o : TextOption) : TextOption := { o with fields := v.fields }

/-! ## Fixed parts

Three layouts begin with ids and flags. Any twenty bytes behind a header are the ids and flags of
some record, so that a layout is read with the stamp exactly where it is read without.
-/

/-- Any bytes are ids and flags. -/
theorem Blueprint.exists_encodeFields {bs : List UInt8} (hl : bs.length = 20) :
    ∃ c, encodeFields c = bs := by
  refine ⟨⟨UInt64.ofNat (Bytes.toNat (bs.take 8)), UInt64.ofNat (Bytes.toNat ((bs.drop 8).take 8)),
    ⟨UInt32.ofNat (Bytes.toNat ((bs.drop 8).drop 8))⟩⟩, ?_⟩
  rw [encodeFields, Bytes.ofUInt64_ofNat (by simp [hl]), Bytes.ofUInt64_ofNat (by simp [hl]),
    Bytes.ofUInt32_ofNat (by simp [hl]), List.append_assoc, List.take_append_drop,
    List.take_append_drop]

theorem Window.exists_slice {offset length : Nat} (ha : offset + length < addressSpace)
    (hl : offset + length ≤ w.limit) : ∃ bs, w.slice offset length = .ok bs :=
  ⟨_, slice_eq_ok_iff.mpr ⟨ha, hl, rfl⟩⟩

/-- The record `h` of the first window is framed there, and the second window shows it stamped. -/
structure Stamp.Stamped (v : Stamp) (h : Header) (w w' : Window) : Prop extends v.Over h w w' where
  /-- the stamp fits the record -/
  fits : v.Fits h
  /-- the record is framed -/
  framed : Header.parse w h.offset = .ok h
  /-- the record can be addressed -/
  below : h.stop < Window.addressSpace

/-- A record that is framed at a cursor shows its stamp. -/
theorem Stamp.Over.stamped {v : Stamp} (ho : v.Over h w w') (hv : v.Fits h)
    (hw : w.limit < Window.addressSpace) (hp : Header.parse w cursor = .ok h) :
    v.Stamped h w w' := by
  obtain ⟨hcursor, -, hle, -⟩ := Header.parse_eq_ok hp
  exact ⟨ho, hv, hcursor ▸ hp, Nat.lt_of_le_of_lt hle hw⟩

namespace Stamp.Stamped

variable {v : Stamp} (hs : v.Stamped h w w')
include hs

theorem limit_upTo : (w.upTo h.stop).limit = h.stop := Header.limit_upTo_stop hs.framed

theorem limit_upTo' : (w'.upTo h.stop).limit = h.stop :=
  Header.limit_upTo_stop (hs.parse hs.framed)

/-- Behind the stamp the frames agree. -/
theorem agreeFrom_upTo : Window.AgreeFrom (v.stop h) (w.upTo h.stop) (w'.upTo h.stop) :=
  hs.agreeFrom.upTo (Header.parse_eq_ok hs.framed).2.2.1

/-- The stamp stands in the frame of its record. -/
theorem holds : (w'.upTo h.stop).Holds (h.offset + Header.length) v.bytes := by
  refine ⟨?_, hs.inside⟩
  rw [hs.limit_upTo']
  exact hs.fits.stop_le_stop

/-- There are ids and flags before, and then those of the stamp. -/
theorem read_fields :
    CommonFields.read w' h = (CommonFields.read w h).map fun _ => v.fields := by
  have hle : h.offset + Header.length + 20 ≤ (w.upTo h.stop).limit := by
    rw [hs.limit_upTo, Header.stop, Nat.add_assoc]
    exact Nat.add_le_add_left hs.fits.size _
  obtain ⟨hlen, hbytes⟩ := Window.holds_extract hle
  obtain ⟨c, hc⟩ := Blueprint.exists_encodeFields hlen
  have hread : CommonFields.read w h = .ok c :=
    (CommonFields.read_eq_ok_iff hs.below hs.limit_upTo).mpr (hc ▸ hbytes)
  have hstamp : CommonFields.read w' h = .ok v.fields :=
    (CommonFields.read_eq_ok_iff hs.below hs.limit_upTo').mpr (Window.holds_append.mp hs.holds).1
  rw [hread, hstamp]
  rfl

/-- What stands behind the ids and flags of a numeric option is its default. -/
theorem slice_default (hlong : Layout.numericLength ≤ h.size.toNat) :
    (w'.upTo h.stop).slice (Layout.defaultOffset h) 4 =
      ((w.upTo h.stop).slice (Layout.defaultOffset h) 4).map fun bs =>
        (v.default?.map Bytes.ofUInt32).getD bs := by
  have hle : Layout.defaultOffset h + 4 ≤ h.stop := by
    rw [Layout.defaultOffset, Header.stop, Nat.add_assoc]
    exact Nat.add_le_add_left hlong _
  have hbelow := Nat.lt_of_le_of_lt hle hs.below
  obtain ⟨bs, hbs⟩ := Window.exists_slice hbelow (by rwa [hs.limit_upTo])
  -- without a new default it is the one that was there
  cases hd : v.default? with
  | none =>
    have hlo : v.stop h ≤ Layout.defaultOffset h := Nat.le_of_eq (stop_of_none hd)
    rw [← hs.agreeFrom_upTo.slice_eq hlo, hbs]
    rfl
  | some d =>
    have hholds := hs.holds
    rw [bytes, hd] at hholds
    have hdefault := (Window.holds_append.mp hholds).2
    rw [Blueprint.length_encodeFields] at hdefault
    rw [hbs, Window.slice_eq_ok_iff_holds.mpr ⟨hbelow, Bytes.length_ofUInt32 d, hdefault⟩]
    rfl

theorem uint32_default (hlong : Layout.numericLength ≤ h.size.toNat) :
    (w'.upTo h.stop).uint32 (Layout.defaultOffset h) =
      ((w.upTo h.stop).uint32 (Layout.defaultOffset h)).map fun d => v.default?.getD d := by
  rw [Window.uint32, Window.uint32, hs.slice_default hlong]
  cases (w.upTo h.stop).slice (Layout.defaultOffset h) 4 with
  | error f => rfl
  | ok bs =>
    refine congrArg Except.ok ?_
    cases v.default? with
    | none => rfl
    | some d =>
      show UInt32.ofNat (Bytes.toNat (Bytes.ofUInt32 d)) = d
      rw [Bytes.toNat_ofUInt32, UInt32.ofNat_toNat]

/-! ## Layouts

The fixed part of each layout is that of the stamp.
-/

/-- The fixed part of a form is the stamp. -/
theorem form_layout : Layout.form w' h = (Layout.form w h).map fun _ => v.fields := by
  rw [Layout.form, Layout.form, hs.read_fields]
  exact bind_eq_map fun _ _ => bind_eq_map fun _ _ => rfl

/-- The fixed part of a text is the stamp. -/
theorem text_layout : Layout.text w' h = (Layout.text w h).map fun _ => v.fields := by
  rw [Layout.text, Layout.text, hs.read_fields]
  exact bind_eq_map fun _ _ => bind_eq_map fun _ _ => rfl

/-- The fixed part of a numeric option is the stamp, with its default. -/
theorem numeric_layout :
    Layout.numeric w' h =
      (Layout.numeric w h).map fun r => (v.fields, v.default?.getD r.2) := by
  rw [Layout.numeric, Layout.numeric, hs.read_fields]
  refine bind_eq_map fun _ _ => bind_eq_map fun _ hmin => bind_of_map rfl fun c _ => ?_
  refine bind_of_map (hs.uint32_default (Header.requireMin_eq_ok_iff.mp hmin)) fun d _ => rfl

/-! ## Decoders

Behind the fixed part nothing has changed.
-/

/-- A stamped form decodes to the form with the stamp. -/
theorem form_decode (hn : v.default? = none) :
    Form.decode w' h.offset depth = (Form.decode w h.offset depth).map (Form.stamp v) := by
  have hlabel : Field.require (w'.upTo h.stop) (h.offset + Layout.formLength) Kind.label.tag =
      Field.require (w.upTo h.stop) (h.offset + Layout.formLength) Kind.label.tag :=
    (Field.require_congr hs.agreeFrom_upTo (Nat.le_of_eq (stop_of_none hn))).symm
  rw [Form.decode, Form.decode, hs.framed, hs.parse hs.framed]
  show (Layout.form w' h >>= _) = Except.map _ (Layout.form w h >>= _)
  refine bind_of_map hs.form_layout fun _ _ => ?_
  rw [hlabel]
  exact bind_eq_map fun label _ => bind_eq_map fun name _ => rfl

/-- A stamped text decodes to the text with the stamp. -/
theorem text_decode (hn : v.default? = none) (kind : TextKind) :
    TextOption.decode w' h kind limits =
      (TextOption.decode w h kind limits).map (TextOption.stamp v) := by
  have ha := hs.agreeFrom_upTo
  have h₀ : v.stop h ≤ h.offset + Layout.textLength := Nat.le_of_eq (stop_of_none hn)
  rw [TextOption.decode, TextOption.decode]
  refine bind_of_map hs.text_layout fun _ _ => ?_
  simp only [← TextOption.decodeValue_congr ha h₀]
  refine bind_eq_map fun value hv => ?_
  have h₁ := Nat.le_trans h₀ (TextOption.le_of_decodeValue hv)
  simp only [← Field.requireText_congr ha h₁]
  refine bind_eq_map fun label hl => ?_
  simp only [← Field.optionalText_congr ha (Nat.le_trans h₁ (Field.le_of_requireText hl))]
  exact bind_eq_map fun help _ => bind_eq_map fun _ _ => rfl

/-- A stamped numeric option decodes to the option with the stamp. -/
theorem numeric_decode (kind : NumericKind) :
    NumericOption.decode w' h kind =
      (NumericOption.decode w h kind).map (NumericOption.stamp v) := by
  have ha := hs.agreeFrom_upTo
  have h₀ : v.stop h ≤ h.offset + Layout.numericLength := v.stop_le h
  rw [NumericOption.decode, NumericOption.decode]
  refine bind_of_map hs.numeric_layout fun _ _ => ?_
  simp only [← Field.requireText_congr ha h₀]
  refine bind_eq_map fun name hn => ?_
  have h₁ := Nat.le_trans h₀ (Field.le_of_requireText hn)
  simp only [← Field.requireText_congr ha h₁]
  refine bind_eq_map fun label hl => ?_
  have h₂ := Nat.le_trans h₁ (Field.le_of_requireText hl)
  simp only [← Field.optionalText_congr ha h₂]
  refine bind_eq_map fun help hh => ?_
  simp only [← NumericOption.decodeValues_congr ha (Nat.le_trans h₂ (Field.le_of_optionalText hh))]
  exact bind_eq_map fun values _ => rfl

end Stamp.Stamped

end SetupForms
