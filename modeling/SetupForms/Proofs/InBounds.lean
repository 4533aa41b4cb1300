import SetupForms.Proofs.Accounting
import SetupForms.Proofs.Agreement
import SetupForms.Proofs.MachineReads
import SetupForms.Proofs.WireRecord

/-!
# Decoding stays in bounds

The readers of Proofs/MachineReads come to the ends that the decoders come to, for every address and
every end that a machine can be given (`Machine.Unstopped`). `Machine.lift x` is a computation that
comes to the end `x`; a reader is put into that form step by step with `bind_lift`, which hands on
what the steps before have found. Two facts carry the sums: what was read ends before the end of the
buffer, and a record whose header was read ends at an address (`stop_lt_of_parse`), so that whatever
its size must hold has an address too (`add_of_le`). The loop over values ends at the end of its
record (`enumValues_eq_lift`), so the difference behind it is not negative. What the decoders give
out is nested (`Window.Nested`).
-/

namespace SetupForms

/-- A record that must hold `min` bytes ends behind them. -/
theorem Header.add_le_stop {h : Header} {k min : Nat} (hm : h.requireMin min = .ok ⟨⟩)
    (hk : k ≤ min) : h.offset + k ≤ h.stop :=
  Nat.add_le_add_left (Nat.le_trans hk (requireMin_eq_ok_iff.mp hm)) _

namespace Machine

variable {α β : Type}

/-! ## Computations without a stop

`lift` embeds the computations that can only fail into those that can also stop. The lemmas say that
it commutes with the ways in which steps are put together, and that a checked operation is a pure
one as soon as its check holds.
-/

/-- A chain does not stop if its first step does not, and the rest does not wherever that step has
an answer. -/
theorem bind_lift {x : Except Fault α} {f : α → Machine β} {g : α → Except Fault β}
    (hf : ∀ a, x = .ok a → f a = lift (g a)) : lift x >>= f = lift (x >>= g) := by
  cases x with
  | error e => rfl
  | ok a => exact hf a rfl

/-- The same with what is made of the answer at the end. -/
theorem bind_lift_map {γ : Type} {k : β → γ} {x : Except Fault α} {f : α → Machine γ}
    {g : α → Except Fault β} (hf : ∀ a, x = .ok a → f a = k <$> lift (g a)) :
    lift x >>= f = k <$> lift (x >>= g) := by
  cases x with
  | error e => rfl
  | ok a => exact hf a rfl

/-- What is made of an answer is made before or after the embedding. -/
theorem map_lift (f : α → β) (x : Except Fault α) : f <$> lift x = lift (x.map f) := by
  cases x <;> rfl

/-- A fault that is turned into an absence does not stop. -/
theorem optional_lift (x : Except Fault α) : optional (lift x) = pure x.toOption := rfl

/-- A sum that is an address does not stop. -/
theorem add_of_lt {a b : Nat} (h : a + b < Window.addressSpace) : add a b = pure (a + b) := if_pos h

theorem sub_of_le {a b : Nat} (h : b ≤ a) : sub a b = pure (a - b) := if_pos h

theorem cut_of_le {memory : List UInt8} {start stop : Nat} (hstart : start ≤ stop)
    (hstop : stop ≤ memory.length) : cut memory start stop = pure (memory.extract start stop) :=
  if_pos ⟨hstart, hstop⟩

/-- A sum that is an address is found. -/
theorem sum?_of_lt {a b : Nat} (h : a + b < Window.addressSpace) : sum? a b = some (a + b) :=
  if_pos h

/-! ## Windows

The reader of slices checks its own sum and its own end, so it needs no assumption. Every reader of
words is built on it.
-/

/-- A checked slice lies in its buffer, whatever it is asked for. -/
theorem slice_eq_lift (w : Window) (offset length : Nat) :
    slice w offset length = lift (w.slice offset length) := by
  unfold slice stopOf sum? Window.slice
  by_cases hsum : offset + length < Window.addressSpace
  · rw [if_pos hsum, if_neg (Nat.not_le.mpr hsum)]
    by_cases hlimit : w.limit < offset + length
    · simp only [if_pos hlimit]
      rfl
    · have hsize : w.limit ≤ w.bytes.toList.length := Nat.min_le_right ..
      simp only [if_neg hlimit, pure_bind]
      rw [cut_of_le (Nat.le_add_right ..) (by omega), ← Array.toList_extract]
      rfl
  · rw [if_neg hsum, if_pos (Nat.not_lt.mp hsum)]
    rfl

/-- A word is made of as many bytes as were asked for. -/
theorem wordAt_eq_lift (w : Window) (k offset : Nat) :
    wordAt w k offset = lift ((w.slice offset k).map Bytes.toNat) := by
  rw [wordAt, slice_eq_lift]
  exact bind_lift fun bs hs => if_pos (Window.length_of_slice hs)

/-- A 32-bit word is read without a stop. -/
theorem uint32_eq_lift (w : Window) (offset : Nat) : uint32 w offset = lift (w.uint32 offset) := by
  rw [uint32, wordAt_eq_lift, map_lift, Window.uint32]
  cases w.slice offset 4 <;> rfl

theorem uint64_eq_lift (w : Window) (offset : Nat) : uint64 w offset = lift (w.uint64 offset) := by
  rw [uint64, wordAt_eq_lift, map_lift, Window.uint64]
  cases w.slice offset 8 <;> rfl

/-! ## Headers and fields

From here on sums are not checked by the machine. That they stay below the end of the address space
follows from the bound on the buffer, because what was read lies in the buffer.
-/

/-- The end of a record is computed if it is an address. -/
theorem headerStop_of_lt {h : Header} (hstop : h.stop < Window.addressSpace) :
    headerStop h = pure h.stop := by
  rw [headerStop, sum?_of_lt hstop]
  rfl

/-- What stands in a record with an end has an address. -/
theorem add_of_le {h : Header} {k : Nat} (hstop : h.stop < Window.addressSpace)
    (hfits : h.offset + k ≤ h.stop) : add h.offset k = pure (h.offset + k) :=
  add_of_lt (Nat.lt_of_le_of_lt hfits hstop)

/-- What was consumed is computed if the cursor is not in front of the record. -/
theorem requireFilled_eq_lift {h : Header} {cursor : Nat} (hc : h.offset ≤ cursor) :
    requireFilled h cursor = lift (h.requireFilled cursor) := by
  rw [requireFilled, sub_of_le hc, pure_bind, Header.requireFilled, Header.stop]
  by_cases hfill : cursor = h.offset + h.size.toNat
  · rw [if_pos hfill, if_pos (by omega)]
    rfl
  · rw [if_neg hfill, if_neg (by omega)]
    rfl

section

variable {w : Window} (hsize : w.bytes.size < 0x8000000000000000)

include hsize

/-- The limit of a window is far below the last address. -/
theorem limit_lt : w.limit < 0x8000000000000000 :=
  Nat.lt_of_le_of_lt (Nat.min_le_right ..) hsize

/-- A header is read without a stop. -/
theorem header_eq_lift (offset : Nat) : header w offset = lift (Header.parse w offset) := by
  have hlimit := limit_lt hsize
  rw [header, Header.parse, uint32_eq_lift]
  refine bind_lift fun tag ht => ?_
  have htag := (Window.uint32_eq_ok_iff.mp ht).1
  rw [add_of_lt htag, pure_bind, uint32_eq_lift]
  refine bind_lift fun size hs => ?_
  obtain ⟨-, hend, -⟩ := Window.uint32_eq_ok_iff.mp hs
  refine bind_lift fun _ _ => ?_
  have hword := size.toNat_lt
  rw [headerStop_of_lt (by simp only [Header.stop, Window.addressSpace]; omega), pure_bind]
  split <;> rfl

/-- A tag is looked at without a stop, and the answer is never a fault. -/
theorem tagAt?_eq_pure (offset : Nat) : tagAt? w offset = pure (Header.tagAt? w offset) := by
  have hlimit := limit_lt hsize
  unfold tagAt? sum? Header.tagAt?
  by_cases hsum : offset + Header.length < Window.addressSpace
  · rw [if_pos hsum, uint32_eq_lift]
    by_cases hend : w.limit < offset + Header.length
    · simp only [if_pos hend]
    · simp only [if_neg hend, optional_lift]
  · rw [if_neg hsum, if_pos (by simp only [Window.addressSpace] at hsum; omega)]

/-- A record whose header was read ends at an address. -/
theorem stop_lt_of_parse {offset : Nat} {h : Header} (hp : Header.parse w offset = .ok h) :
    h.stop < Window.addressSpace :=
  Nat.lt_trans (Nat.lt_of_le_of_lt (Header.parse_eq_ok hp).2.2.1 (limit_lt hsize)) (by decide)

/-- A field is looked for without a stop, and the cursor behind it is its end. -/
theorem field?_eq_lift (cursor : Nat) (tag : UInt32) :
    field? w cursor tag =
      (fun found => (found, Field.after cursor found)) <$> lift (Field.next? w cursor tag) := by
  rw [field?, Field.next?, tagAt?_eq_pure hsize, pure_bind]
  by_cases htag : Header.tagAt? w cursor = some tag
  · rw [if_pos htag, if_pos htag, header_eq_lift hsize, ← map_lift, Functor.map_map]
    refine bind_lift_map fun h hp => ?_
    obtain ⟨rfl, -⟩ := Header.parse_eq_ok hp
    refine bind_lift_map fun _ hm => ?_
    have hstop := stop_lt_of_parse hsize hp
    rw [headerStop_of_lt hstop, pure_bind, add_of_le hstop (Header.add_le_stop hm (by decide)),
      pure_bind, uint32_eq_lift]
    refine bind_lift_map fun dataLength _ => ?_
    rw [add_of_le hstop (Header.add_le_stop hm (Nat.le_refl _)), pure_bind, slice_eq_lift]
    exact bind_lift_map fun data _ => rfl
  · rw [if_neg htag, if_neg htag]
    rfl

theorem field_eq_lift (cursor : Nat) (tag : UInt32) :
    field w cursor tag = (fun f => (f, f.stop)) <$> lift (Field.require w cursor tag) := by
  rw [field, Field.require, field?_eq_lift hsize, bind_map_left]
  refine bind_lift_map fun found _ => ?_
  cases found <;> rfl

omit hsize in
/-- The text of a field is cut out of its payload. -/
theorem text_eq_lift {f : Field} (hf : f.dataOffset < Window.addressSpace) :
    text f = lift f.text := by
  have hbytes : f.data.extract 0 (f.data.findIdx (· == 0)) = f.textBytes := by
    rw [Field.textBytes, Field.untilNul, List.takeWhile_eq_take_findIdx_not,
      List.extract_eq_take_drop]
    simp only [Nat.sub_zero, List.drop_zero, bne, Bool.not_not]
  rw [text, Field.text, cut_of_le (Nat.zero_le _) List.findIdx_le_length, pure_bind, hbytes,
    add_of_lt hf, pure_bind]
  cases Text.Utf8.decode? f.textBytes <;> rfl

/-- The payload of a field that was read starts at an address. -/
theorem dataOffset_lt_of_require {cursor : Nat} {tag : UInt32} {f : Field}
    (hf : Field.require w cursor tag = .ok f) : f.dataOffset < Window.addressSpace := by
  obtain ⟨ho, hlow, hhigh⟩ := Field.require_stop hf
  have hlimit := limit_lt hsize
  simp only [Field.dataOffset, Window.addressSpace]
  omega

/-- A mandatory text is read without a stop. -/
theorem requireText_eq_lift (cursor : Nat) (tag : UInt32) :
    requireText w cursor tag = lift (Field.requireText w cursor tag) := by
  rw [requireText, Field.requireText, field_eq_lift hsize, bind_map_left]
  refine bind_lift fun f hf => ?_
  dsimp only
  rw [text_eq_lift (dataOffset_lt_of_require hsize hf)]
  exact bind_lift fun s _ => rfl

theorem optionalText_eq_lift (cursor : Nat) (tag : UInt32) :
    optionalText w cursor tag = lift (Field.optionalText w cursor tag) := by
  rw [optionalText, Field.optionalText, field?_eq_lift hsize, bind_map_left]
  refine bind_lift fun found hfound => ?_
  cases found with
  | none => rfl
  | some f =>
    dsimp only
    rw [text_eq_lift (dataOffset_lt_of_require hsize (Field.require_eq_ok_iff.mpr hfound))]
    exact bind_lift fun s _ => rfl

end

/-! ## Fixed layouts

A fixed part is read only behind a check that the record is long enough for it, and the record ends
at an address. The check comes first in each of these readers, and the sums follow.
-/

section

variable {w : Window} {h : Header} (hstop : h.stop < Window.addressSpace)

include hstop

/-- Ids and flags are read without a stop. -/
theorem commonFields_eq_lift (hfits : h.offset + Layout.formLength ≤ h.stop) :
    commonFields w h = lift (CommonFields.read w h) := by
  have hbase : h.offset + Header.length + 20 ≤ h.stop := hfits
  rw [commonFields, CommonFields.read, headerStop_of_lt hstop, pure_bind, add_of_lt (by omega),
    pure_bind, uint64_eq_lift]
  refine bind_lift fun objectId _ => ?_
  rw [add_of_lt (by omega), pure_bind, uint64_eq_lift]
  refine bind_lift fun dependencyId _ => ?_
  rw [add_of_lt (by omega), pure_bind, uint32_eq_lift]
  exact bind_lift fun bits _ => rfl

theorem formLayout_eq_lift : formLayout w h = lift (Layout.form w h) := by
  rw [formLayout, Layout.form]
  refine bind_lift fun _ _ => bind_lift fun _ hm => ?_
  exact commonFields_eq_lift hstop (Header.add_le_stop hm (Nat.le_refl _))

theorem textLayout_eq_lift : textLayout w h = lift (Layout.text w h) := by
  rw [textLayout, Layout.text]
  refine bind_lift fun _ _ => bind_lift fun _ hm => ?_
  exact commonFields_eq_lift hstop (Header.add_le_stop hm (Nat.le_refl _))

theorem numericLayout_eq_lift : numericLayout w h = lift (Layout.numeric w h) := by
  rw [numericLayout, Layout.numeric]
  refine bind_lift fun _ _ => bind_lift fun _ hm => ?_
  have hfits := Header.add_le_stop (k := Layout.formLength) hm (by decide)
  rw [commonFields_eq_lift hstop hfits]
  refine bind_lift fun fields _ => ?_
  rw [add_of_le hstop hfits, pure_bind, headerStop_of_lt hstop, pure_bind, uint32_eq_lift]
  exact bind_lift fun default _ => rfl

theorem enumValueLayout_eq_lift : enumValueLayout w h = lift (Layout.enumValue w h) := by
  rw [enumValueLayout, Layout.enumValue]
  refine bind_lift fun _ _ => bind_lift fun _ hm => ?_
  have hfits := Header.add_le_stop (k := Header.length) hm (by decide)
  rw [add_of_le hstop hfits, pure_bind, headerStop_of_lt hstop, pure_bind, uint32_eq_lift]

end

/-! ## Forms and options

The decoders follow one another: what stands behind the fixed part is read in the frame of the
record, which is a window on the same buffer, so the bound on the buffer is handed on unchanged.
-/

section

variable {w : Window} (hsize : w.bytes.size < 0x8000000000000000)

include hsize

/-- A form is decoded without a stop. -/
theorem form_eq_lift (offset depth : Nat) :
    form w offset depth = lift (Form.decode w offset depth) := by
  rw [form, Form.decode, header_eq_lift hsize]
  refine bind_lift fun h hp => ?_
  obtain ⟨rfl, -⟩ := Header.parse_eq_ok hp
  have hstop := stop_lt_of_parse hsize hp
  rw [formLayout_eq_lift hstop]
  refine bind_lift fun fields hf => ?_
  have hinner : (w.upTo h.stop).bytes.size < 0x8000000000000000 := hsize
  rw [headerStop_of_lt hstop, pure_bind, add_of_le hstop (Layout.le_of_guarded hf), pure_bind,
    field_eq_lift hinner, bind_map_left]
  refine bind_lift fun label hl => ?_
  dsimp only
  rw [text_eq_lift (dataOffset_lt_of_require hinner hl)]
  exact bind_lift fun name _ => rfl

variable {h : Header} (hstop : h.stop < Window.addressSpace)

include hstop

/-- A value is decoded without a stop. -/
theorem enumValue_eq_lift : enumValue w h = lift (EnumValue.decode w h) := by
  rw [enumValue, EnumValue.decode, enumValueLayout_eq_lift hstop]
  refine bind_lift fun value hv => ?_
  have hinner : (w.upTo h.stop).bytes.size < 0x8000000000000000 := hsize
  rw [add_of_le hstop (Layout.le_of_guarded hv), pure_bind, headerStop_of_lt hstop, pure_bind,
    field_eq_lift hinner, bind_map_left]
  refine bind_lift fun label hl => ?_
  have hlow := (Field.require_stop hl).2.1
  dsimp only
  rw [requireFilled_eq_lift (by omega)]
  refine bind_lift fun _ _ => ?_
  rw [text_eq_lift (dataOffset_lt_of_require hinner hl)]
  exact bind_lift fun s _ => rfl

omit hstop in
/-- The loop over values is left at the end of the window. -/
theorem enumValues_eq_lift {cursor : Nat} (hc : cursor ≤ w.stop) :
    enumValues w cursor = (fun vs => (vs, w.stop)) <$> lift (EnumValue.decodeAll w cursor) := by
  induction hn : w.stop - cursor using Nat.strongRecOn generalizing cursor with
  | ind n ih =>
    by_cases hlt : cursor < w.stop
    · rw [enumValues_of_lt hlt, EnumValue.decodeAll_of_lt hlt, nextValue, header_eq_lift hsize,
        bind_assoc]
      refine bind_lift_map fun h hp => ?_
      have hstop := stop_lt_of_parse hsize hp
      have hnext := Header.lt_stop_of_parse hp
      have hle := Nat.le_trans (Header.parse_eq_ok hp).2.2.1 (Nat.min_le_left ..)
      rw [enumValue_eq_lift hsize hstop, bind_assoc]
      refine bind_lift_map fun v _ => ?_
      rw [headerStop_of_lt hstop, pure_bind, pure_bind]
      dsimp only
      rw [ih _ (by omega) hle rfl]
      cases EnumValue.decodeAll w h.stop <;> rfl
    · obtain rfl : cursor = w.stop := by omega
      rw [enumValues_of_le (Nat.le_refl _), EnumValue.decodeAll_of_le (Nat.le_refl _)]
      rfl

omit hstop in
/-- The values of an enum leave nothing to be filled, and other kinds must be full. -/
theorem values_eq_lift {cursor : Nat} (kind : NumericKind) (hw : w.stop = h.stop)
    (hlow : h.offset ≤ cursor) (hhigh : cursor ≤ w.stop) :
    values w h cursor kind = lift (NumericOption.decodeValues w h cursor kind) := by
  unfold values NumericOption.decodeValues
  cases kind with
  | enum =>
    rw [if_pos rfl, enumValues_eq_lift hsize hhigh, bind_map_left]
    dsimp only
    rw [requireFilled_eq_lift (Nat.le_trans hlow hhigh), Header.requireFilled_eq_ok_iff.mpr hw]
    cases EnumValue.decodeAll w cursor <;> rfl
  | number | bool =>
    rw [if_neg (by decide), pure_bind]
    dsimp only
    rw [requireFilled_eq_lift hlow]
    cases h.requireFilled cursor <;> rfl

/-- A numeric option is decoded without a stop. -/
theorem numeric_eq_lift (kind : NumericKind) :
    numeric w h kind = lift (NumericOption.decode w h kind) := by
  have hinner : (w.upTo h.stop).bytes.size < 0x8000000000000000 := hsize
  have hend : (w.upTo h.stop).limit ≤ h.stop := Nat.min_le_left ..
  rw [numeric, NumericOption.decode, numericLayout_eq_lift hstop]
  refine bind_lift ?_
  rintro ⟨fields, default⟩ hf
  dsimp only
  rw [headerStop_of_lt hstop, pure_bind, add_of_le hstop (Layout.le_of_guarded hf), pure_bind,
    requireText_eq_lift hinner]
  refine bind_lift ?_
  rintro ⟨name, c₁⟩ hn
  dsimp only
  rw [requireText_eq_lift hinner]
  refine bind_lift ?_
  rintro ⟨label, c₂⟩ hl
  dsimp only
  rw [optionalText_eq_lift hinner]
  refine bind_lift ?_
  rintro ⟨help, c₃⟩ hh
  have h₁ := Field.le_of_requireText hn
  have h₂ := Field.le_of_requireText hl
  have h₃ := Field.le_of_optionalText hh
  have hle := Field.stop_le_of_optionalText hh (Field.stop_le_of_requireText hl)
  dsimp only
  rw [values_eq_lift hinner kind rfl (by omega) (Nat.le_trans hle hend)]
  exact bind_lift fun values _ => rfl

omit hstop in
/-- The default and the name of a text option are read without a stop. -/
theorem textValue_eq_lift (cursor : Nat) (limits : Limits) (kind : TextKind) :
    textValue w cursor limits kind = lift (TextOption.decodeValue w cursor limits kind) := by
  cases kind with
  | comment => rfl
  | varchar =>
    rw [textValue, TextOption.decodeValue, field_eq_lift hsize, bind_map_left]
    refine bind_lift fun default _ => bind_lift fun _ _ => ?_
    dsimp only
    rw [requireText_eq_lift hsize]
    exact bind_lift fun name _ => rfl

/-- A text line is decoded without a stop. -/
theorem textOption_eq_lift (kind : TextKind) (limits : Limits) :
    textOption w h kind limits = lift (TextOption.decode w h kind limits) := by
  have hinner : (w.upTo h.stop).bytes.size < 0x8000000000000000 := hsize
  rw [textOption, TextOption.decode, textLayout_eq_lift hstop]
  refine bind_lift fun fields hf => ?_
  rw [headerStop_of_lt hstop, pure_bind, add_of_le hstop (Layout.le_of_guarded hf), pure_bind,
    textValue_eq_lift hinner]
  refine bind_lift ?_
  rintro ⟨default, name, c₁⟩ hv
  dsimp only
  rw [requireText_eq_lift hinner]
  refine bind_lift ?_
  rintro ⟨label, c₂⟩ hl
  dsimp only
  rw [optionalText_eq_lift hinner]
  refine bind_lift ?_
  rintro ⟨help, c₃⟩ hh
  have h₁ : h.offset + Layout.textLength ≤ c₁ := TextOption.le_of_decodeValue hv
  have h₂ := Field.le_of_requireText hl
  have h₃ := Field.le_of_optionalText hh
  dsimp only
  rw [requireFilled_eq_lift (by omega)]
  exact bind_lift fun _ _ => rfl

end

end Machine

/-! ## What is decoded is nested

This part is about the decoders alone. Each record lies in the region it was looked for in, and what
it is made of lies in it; a payload lies between the header of its field and the end of the field.
-/

/-- The field lies between two places, and its payload between its header and its own end. -/
structure Field.Inside (f : Field) (lo hi : Nat) : Prop where
  starts : lo ≤ f.offset
  payload : f.dataOffset + f.data.length ≤ f.stop
  ends : f.stop ≤ hi

section

variable {w : Window} {h : Header} {cursor : Nat} {limits : Limits}

/-- A field that is read lies behind the cursor and before the limit. -/
theorem Field.inside_of_read {f : Field} (hr : read w cursor = .ok f) :
    f.Inside cursor w.limit := by
  obtain ⟨ho, -, hstop⟩ := read_eq_ok hr
  refine ⟨Nat.le_of_eq ho.symm, ?_, hstop⟩
  obtain ⟨h, hp, hr⟩ := bind_eq_ok_iff.mp hr
  obtain ⟨rfl, -⟩ := Header.parse_eq_ok hp
  obtain ⟨-, hr⟩ := guard_eq_ok_iff.mp hr
  obtain ⟨n, -, hr⟩ := bind_eq_ok_iff.mp hr
  obtain ⟨data, hdata, hr⟩ := bind_eq_ok_iff.mp hr
  obtain rfl := pure_eq_ok_iff.mp hr
  have hend := (Window.slice_eq_ok_iff.mp hdata).2.1
  rw [Field.dataOffset, Window.length_of_slice hdata]
  exact Nat.le_trans hend (Nat.min_le_left ..)

/-- The default of a text option lies behind the fixed part, inside the record. -/
theorem TextOption.default_inside {o : TextOption} {kind : TextKind} {f : Field}
    (hd : decode w h kind limits = .ok o) (hf : o.default = some f) :
    f.Inside (h.offset + Layout.textLength) h.stop := by
  obtain ⟨hlow, hpayload, hhigh⟩ := Field.inside_of_read (read_default_of_decode hd hf)
  exact ⟨hlow, hpayload, Nat.le_trans hhigh (Nat.min_le_left ..)⟩

/-- A record of this size was found where it was looked for, and ends before the end of the region
and of the buffer. -/
def Window.Frames (w : Window) (cursor offset : Nat) (size : UInt32) : Prop :=
  offset = cursor ∧ offset + size.toNat ≤ min w.stop w.bytes.size

/-- What is decoded at a cursor is framed there, and what it is made of lies inside it. -/
structure Window.Nested (w : Window) (cursor : Nat) : Prop where
  header : ∀ h, Header.parse w cursor = .ok h → w.Frames cursor h.offset h.size
  tag : ∀ tag, Header.tagAt? w cursor = some tag →
    cursor + Header.length ≤ min w.stop w.bytes.size
  field : ∀ tag f, Field.next? w cursor tag = .ok (some f) →
    w.Frames cursor f.offset f.size ∧ f.Inside cursor (f.offset + f.size.toNat)
  form : ∀ depth form, Form.decode w cursor depth = .ok form →
    w.Frames cursor form.offset form.size ∧
      form.offset + Layout.formLength ≤ form.childrenStart ∧
      form.childrenStart ≤ form.offset + form.size.toNat
  numeric : ∀ h kind o, Header.parse w cursor = .ok h → NumericOption.decode w h kind = .ok o →
    w.Frames cursor o.offset o.size ∧ o.kind = kind ∧ o.Tiled w.bytes h
  enumValue : ∀ h v, Header.parse w cursor = .ok h → EnumValue.decode w h = .ok v →
    w.Frames cursor v.offset h.size
  textOption : ∀ h kind limits o, Header.parse w cursor = .ok h →
    TextOption.decode w h kind limits = .ok o →
    w.Frames cursor o.offset o.size ∧ o.kind = kind ∧ o.Complete ∧
      ∀ f, o.default = some f → f.Inside (o.offset + Layout.textLength) (o.offset + o.size.toNat)

theorem Window.frames_of_parse (hp : Header.parse w cursor = .ok h) :
    w.Frames cursor h.offset h.size := by
  obtain ⟨ho, -, hstop, -⟩ := Header.parse_eq_ok hp
  exact ⟨ho, hstop⟩

/-- Whatever is decoded at a cursor is nested. -/
theorem Window.nested (w : Window) (cursor : Nat) : w.Nested cursor where
  header _ hp := frames_of_parse hp
  tag tag ht := (Header.tagAt?_eq_some_iff.mp ht).1
  field tag f hf := by
    have hread := Field.next?_eq_some hf
    obtain ⟨ho, -, hstop⟩ := Field.read_eq_ok hread
    obtain ⟨hlow, hpayload, -⟩ := Field.inside_of_read hread
    exact ⟨⟨ho, hstop⟩, hlow, hpayload, Nat.le_refl _⟩
  form depth form hd := by
    obtain ⟨rfl, -, hs, hlow, hhigh, hstop⟩ := Form.decode_eq_ok hd
    rw [hs] at hhigh hstop
    exact ⟨⟨rfl, hstop⟩, Nat.le_of_add_right_le hlow, hhigh⟩
  numeric h kind o hp hd := by
    obtain ⟨ho, hs, hk⟩ := NumericOption.frame_of_decode hd
    exact ⟨ho ▸ hs ▸ frames_of_parse hp, hk, NumericOption.tiled_of_decode hd⟩
  enumValue h v hp hd := EnumValue.offset_of_decode hd ▸ frames_of_parse hp
  textOption h kind limits o hp hd := by
    obtain ⟨ho, hs, hk⟩ := TextOption.frame_of_decode hd
    refine ⟨ho ▸ hs ▸ frames_of_parse hp, hk, TextOption.complete_of_decode hd, fun f hf => ?_⟩
    rw [ho, hs]
    exact TextOption.default_inside hd hf

end

/-! ## Both together

The statement is for one cursor and all readers at it. A reader that is handed a header is tried
with every header that can be read at the cursor, because only such a header is ever handed to it.
-/

/-- At this cursor no reader stops, and each comes to the end that its decoder comes to. What is
decoded behind a header is read behind every header that stands there. -/
structure Machine.Unstopped (w : Window) (cursor : Nat) : Prop where
  header : Machine.header w cursor = lift (Header.parse w cursor)
  tag : Machine.tagAt? w cursor = pure (Header.tagAt? w cursor)
  field : ∀ tag, Machine.field? w cursor tag =
    (fun found => (found, Field.after cursor found)) <$> lift (Field.next? w cursor tag)
  form : ∀ depth, Machine.form w cursor depth = lift (Form.decode w cursor depth)
  numeric : ∀ h kind, Header.parse w cursor = .ok h →
    Machine.numeric w h kind = lift (NumericOption.decode w h kind)
  enumValue : ∀ h, Header.parse w cursor = .ok h →
    Machine.enumValue w h = lift (EnumValue.decode w h)
  textOption : ∀ h kind limits, Header.parse w cursor = .ok h →
    Machine.textOption w h kind limits = lift (TextOption.decode w h kind limits)

/-- In a buffer of less than half of the address space no reader stops. -/
theorem Machine.unstopped {w : Window} (hsize : w.bytes.size < 0x8000000000000000) (cursor : Nat) :
    Unstopped w cursor where
  header := header_eq_lift hsize cursor
  tag := tagAt?_eq_pure hsize cursor
  field := field?_eq_lift hsize cursor
  form := form_eq_lift hsize cursor
  numeric _ kind hp := numeric_eq_lift hsize (stop_lt_of_parse hsize hp) kind
  enumValue _ hp := enumValue_eq_lift hsize (stop_lt_of_parse hsize hp)
  textOption _ kind limits hp := textOption_eq_lift hsize (stop_lt_of_parse hsize hp) kind limits

/-- **Decoding stays in bounds.** Wherever a buffer is read and whatever end is given, up to the
last address, no sum overflows, no difference is negative and no slice leaves the buffer; and what
is decoded is nested. -/
theorem Window.decoding_in_bounds {bytes : Array UInt8} (hsize : bytes.size < 0x8000000000000000)
    (offset stop : UInt64) :
    Machine.Unstopped ⟨bytes, stop.toNat⟩ offset.toNat ∧
      Window.Nested ⟨bytes, stop.toNat⟩ offset.toNat :=
  ⟨Machine.unstopped hsize offset.toNat, nested ⟨bytes, stop.toNat⟩ offset.toNat⟩

/-- A drop-down of two values, with the last address for an end. -/
theorem Window.decoding_in_bounds_dropDown :
    let option : Blueprint.OptionSpec :=
      { kind := .enum, fields := ⟨5, 0, ⟨0⟩⟩, default := 1,
        name := some (.text .optionName "N"), label := some (.text .label "L"),
        values := [.labelled 0 "Off", .labelled 1 "On"] }
    let w : Window := ⟨option.encode.toArray, 0xffffffffffffffff⟩
    let h : Header := ⟨0, Kind.enum.tag, 115⟩
    w.bytes.size < 0x8000000000000000 ∧ Header.parse w 0 = .ok h ∧
      ∃ o, Machine.numeric w h .enum = pure o ∧ o.values.length = 2 ∧ o.Tiled w.bytes h := by
  intro option w h
  have hsize : w.bytes.size < 0x8000000000000000 := by decide +kernel
  have hp : Header.parse w 0 = .ok h := toOption_eq_some_iff.mp (by decide +kernel)
  have hcount : (NumericOption.decode w h .enum).toOption.map (·.values.length) = some 2 := by
    decide +kernel
  obtain ⟨o, hd, hvalues⟩ := Option.map_eq_some_iff.mp hcount
  rw [toOption_eq_some_iff] at hd
  obtain ⟨hrun, hnested⟩ := decoding_in_bounds hsize 0 0xffffffffffffffff
  have hnumeric : Machine.numeric w h .enum = Machine.lift (NumericOption.decode w h .enum) :=
    hrun.numeric h .enum hp
  exact ⟨hsize, hp, o, hnumeric.trans (congrArg Machine.lift hd), hvalues,
    (hnested.numeric h .enum o hp hd).2.2⟩

/-- A header that was not read can stop a machine: what stands behind this one has no address. -/
example (w : Window) : Machine.commonFields w ⟨0xfffffffffffffff8, 0, 0⟩ = Machine.halt .overflow :=
  rfl

end SetupForms
