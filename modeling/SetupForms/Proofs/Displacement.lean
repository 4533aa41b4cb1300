import SetupForms.Record.Form
import SetupForms.Record.Option

/-!
# Displacement

No reader knows where its buffer starts. `Displacement` says by how many bytes and by how many
levels of forms something is moved, and whatever speaks of places moves with it: headers, fields,
options, forms and the faults themselves. If a window shows a part of another one (`Window.Shows`),
then what is read in the whole is what is read in the part, moved: `Window.Shows.slice_move` for
bytes, `Header.parse_move` for headers, `Field.read_move` for fields and `Layout.form_move` and its
companions for the fixed parts of records.

The statements have one shape: a computation on the whole is `Displacement.result` of the
computation on the part. A fault moves as well, so that nothing has to be said about success, and a
chain of steps moves if its steps do (`Displacement.result_bind`). The proofs therefore follow the
text of the readers line by line.
-/

namespace SetupForms

/-- How far something is moved. -/
structure Displacement where
  /-- by how many bytes -/
  bytes : Nat
  /-- by how many levels of forms -/
  levels : Nat

variable (δ : Displacement)

/-! ## What moves

Places move by the number of bytes, depths by the number of levels. Sizes, lengths, tags, texts and
values stay what they are.
-/

/-- A fault moves with the place it speaks of. Lengths and what was consumed stay. -/
def Fault.move : Fault → Fault
  | truncated offset needed available => truncated (offset + δ.bytes) needed available
  | recordTooSmall offset tag size min => recordTooSmall (offset + δ.bytes) tag size min
  | recordOverrun offset tag size stop =>
    recordOverrun (offset + δ.bytes) tag size (stop + δ.bytes)
  | sizeMismatch offset tag declared consumed =>
    sizeMismatch (offset + δ.bytes) tag declared consumed
  | missingField offset tag => missingField (offset + δ.bytes) tag
  | unexpectedTag offset expected found => unexpectedTag (offset + δ.bytes) expected found
  | invalidText offset => invalidText (offset + δ.bytes)
  | nestingTooDeep offset max => nestingTooDeep (offset + δ.bytes) (max + δ.levels)
  | unknownRecord offset tag => unknownRecord (offset + δ.bytes) tag
  | fieldTooLong offset tag length max => fieldTooLong (offset + δ.bytes) tag length max
  | f => f

/-- A header moves with its place. -/
def Header.move (h : Header) : Header := { h with offset := h.offset + δ.bytes }

/-- A field moves with its place. -/
def Field.move (f : Field) : Field := { f with offset := f.offset + δ.bytes }

/-- A value moves with its place. -/
def EnumValue.move (v : EnumValue) : EnumValue := { v with offset := v.offset + δ.bytes }

/-- An option moves with its values. -/
def NumericOption.move (o : NumericOption) : NumericOption :=
  { o with
    offset := o.offset + δ.bytes
    values := o.values.map (EnumValue.move δ) }

/-- A text line moves with its default. -/
def TextOption.move (o : TextOption) : TextOption :=
  { o with
    offset := o.offset + δ.bytes
    default := o.default.map (Field.move δ) }

/-- A form moves with its children, and lies deeper by as many levels. -/
def Form.move (form : Form) : Form :=
  { form with
    offset := form.offset + δ.bytes
    depth := form.depth + δ.levels
    childrenStart := form.childrenStart + δ.bytes
    stop := form.stop + δ.bytes }

/-- The limit on the depth moves with the levels. -/
def Limits.move (limits : Limits) : Limits :=
  { limits with maxDepth := limits.maxDepth + δ.levels }

/-- What a computation gives when all that it speaks of moves. -/
def Displacement.result {α β : Type} (move : α → β) : Except Fault α → Except Fault β
  | .ok a => .ok (move a)
  | .error f => .error (f.move δ)

variable {δ}

@[simp] theorem Header.stop_move (h : Header) : (h.move δ).stop = h.stop + δ.bytes :=
  Nat.add_right_comm ..

@[simp] theorem Field.stop_move (f : Field) : (f.move δ).stop = f.stop + δ.bytes :=
  Nat.add_right_comm ..

@[simp] theorem Field.dataOffset_move (f : Field) :
    (f.move δ).dataOffset = f.dataOffset + δ.bytes :=
  Nat.add_right_comm ..

namespace Displacement

variable {α α' β β' : Type} {move : α → β} {move' : α' → β'}

/-- Steps that move one by one move together. -/
theorem result_bind {x : Except Fault β} {x' : Except Fault α} {k : β → Except Fault β'}
    {k' : α → Except Fault α'} (hx : x = δ.result move x')
    (hk : ∀ a, x' = .ok a → k (move a) = δ.result move' (k' a)) :
    x >>= k = δ.result move' (x' >>= k') := by
  rw [hx]
  cases x' with
  | error f => rfl
  | ok a => exact hk a rfl

/-- What succeeds when everything is moved has succeeded before. -/
theorem result_eq_ok_iff {x : Except Fault α} {b : β} :
    δ.result move x = .ok b ↔ ∃ a, x = .ok a ∧ move a = b := by
  cases x with
  | error f =>
    constructor
    · intro h
      cases h
    · rintro ⟨a, h, -⟩
      cases h
  | ok a =>
    constructor
    · exact fun h => ⟨a, rfl, Except.ok.inj h⟩
    · rintro ⟨c, h, rfl⟩
      obtain rfl := Except.ok.inj h
      rfl

/-- What is made of an answer moves with it. -/
theorem result_map {x : Except Fault β} {x' : Except Fault α} {g : β → β'} {g' : α → α'}
    (hx : x = δ.result move x') (hg : ∀ a, g (move a) = move' (g' a)) :
    x.map g = δ.result move' (x'.map g') := by
  rw [hx]
  cases x' with
  | error f => rfl
  | ok a => exact congrArg Except.ok (hg a)

/-- A choice moves if both sides do and the condition stays. -/
theorem result_ite {c c' : Prop} [Decidable c] [Decidable c'] {x y : Except Fault β}
    {x' y' : Except Fault α} (hc : c ↔ c') (hx : c' → x = δ.result move x')
    (hy : ¬c' → y = δ.result move y') :
    (if c then x else y) = δ.result move (if c' then x' else y') := by
  by_cases h : c'
  · rw [if_pos h, if_pos (hc.mpr h), hx h]
  · rw [if_neg h, if_neg (mt hc.mp h), hy h]

end Displacement

open Displacement

/-! ## Windows

A part is a window on its own buffer. It must be possible to read both windows up to their ends, for
otherwise the whole could be cut off where the part is not; and the whole must end below 2^32, so
that no place a reader asks for is too far away for a word in one of them and not in the other.
-/

/-- The window `v` shows what `w` shows from `offset` on, up to the same end. -/
structure Window.Shows (offset : Nat) (w v : Window) : Prop where
  /-- they end at the same place -/
  stop : w.stop = v.stop + offset
  /-- the whole can be read up to its end -/
  whole : w.stop ≤ w.bytes.size
  /-- the part can be read up to its end -/
  part : v.stop ≤ v.bytes.size
  /-- no place in the whole is far from the start -/
  near : w.stop < 0x100000000
  /-- the same bytes are shown -/
  bytes : ∀ i < v.stop, w.bytes[i + offset]? = v.bytes[i]?

variable {w v : Window} {offset length cursor depth : Nat} {h : Header} {tag : UInt32}

namespace Window.Shows

/-- The part can be read up to its end. -/
theorem limit_part (hv : Shows δ.bytes w v) : v.limit = v.stop := Nat.min_eq_left hv.part

/-- The whole can be read up to the end of the part. -/
theorem limit_whole (hv : Shows δ.bytes w v) : w.limit = v.limit + δ.bytes := by
  rw [hv.limit_part, ← hv.stop]
  exact Nat.min_eq_left hv.whole

/-- A part of the part is a part of the whole. -/
theorem upTo {stop : Nat} (hv : Shows δ.bytes w v) (hs : stop ≤ v.stop) :
    Shows δ.bytes (w.upTo (stop + δ.bytes)) (v.upTo stop) := by
  obtain ⟨hstop, hwhole, hpart, hnear, hbytes⟩ := hv
  refine ⟨rfl, ?_, Nat.le_trans hs hpart, ?_, fun i hi => hbytes i (Nat.lt_of_lt_of_le hi hs)⟩
  · show stop + δ.bytes ≤ w.bytes.size
    omega
  · show stop + δ.bytes < 0x100000000
    omega

/-- A part that is cut out shows what the whole shows there. -/
theorem extract {stop : Nat} (hle : offset ≤ stop) (hs : stop ≤ w.bytes.size)
    (hnear : stop < 0x100000000) :
    Shows offset (w.upTo stop) (.ofBytes (w.bytes.extract offset stop)) := by
  have hsize : (w.bytes.extract offset stop).size = stop - offset := by
    rw [Array.size_extract, Nat.min_eq_left hs]
  refine ⟨?_, hs, Nat.le_refl _, hnear, fun i hi => ?_⟩
  · show stop = (w.bytes.extract offset stop).size + offset
    omega
  · have hi : i < (w.bytes.extract offset stop).size := hi
    show w.bytes[i + offset]? = (w.bytes.extract offset stop)[i]?
    rw [Array.getElem?_extract, Nat.min_eq_left hs, if_pos (by omega), Nat.add_comm]

/-- A read of what a 32-bit word can ask for moves. -/
theorem slice_move (hv : Shows δ.bytes w v) (hl : offset + length < v.stop + 0x200000000) :
    w.slice (offset + δ.bytes) length = δ.result (fun bs => bs) (v.slice offset length) := by
  have hstop := hv.stop
  have hnear := hv.near
  have hsize := hv.part
  have hsize' := hv.whole
  have hpart := hv.limit_part
  have hwhole := hv.limit_whole
  -- a place is out of reach of a word in both windows or in neither
  have haddress : addressSpace = 0x10000000000000000 := rfl
  refine result_ite (by omega) (by omega) fun _ => ?_
  refine result_ite (by omega) (fun hin => ?_) fun hin => ?_
  · rw [hwhole, Nat.add_sub_add_right]
    rfl
  · refine congrArg Except.ok (List.ext_getElem? fun i => ?_)
    rw [Array.getElem?_toList, Array.getElem?_toList, Array.getElem?_extract,
      Array.getElem?_extract, Nat.min_eq_left (by omega), Nat.min_eq_left (by omega)]
    by_cases hi : i < offset + length - offset
    · rw [if_pos hi, if_pos (by omega), ← hv.bytes _ (by omega), Nat.add_right_comm]
    · rw [if_neg hi, if_neg (by omega)]

/-- A 32-bit word is read alike. -/
theorem uint32_move (hv : Shows δ.bytes w v) (hl : offset ≤ v.stop + 0x100000000) :
    w.uint32 (offset + δ.bytes) = δ.result (fun x => x) (v.uint32 offset) :=
  result_map (hv.slice_move (by omega)) fun _ => rfl

theorem uint64_move (hv : Shows δ.bytes w v) (hl : offset ≤ v.stop + 0x100000000) :
    w.uint64 (offset + δ.bytes) = δ.result (fun x => x) (v.uint64 offset) :=
  result_map (hv.slice_move (by omega)) fun _ => rfl

end Window.Shows

open Window

/-! ## Headers

Sizes and tags stay, so that a header is refused in the whole for the same reason as in the part.
-/

namespace Header

/-- A record is too small in both or in neither. -/
theorem requireMin_move (min : Nat) :
    (h.move δ).requireMin min = δ.result (fun x => x) (h.requireMin min) :=
  result_ite Iff.rfl (fun _ => rfl) fun _ => rfl

/-- A tag is the expected one in both or in neither. -/
theorem requireTag_move (expected : UInt32) :
    (h.move δ).requireTag expected = δ.result (fun x => x) (h.requireTag expected) :=
  result_ite Iff.rfl (fun _ => rfl) fun _ => rfl

/-- A tag is of a class in both or in neither. -/
theorem requireClass_move (p : Kind → Bool) (expected : UInt32) :
    (h.move δ).requireClass p expected = δ.result (fun x => x) (h.requireClass p expected) :=
  result_ite Iff.rfl (fun _ => rfl) fun _ => rfl

/-- What was consumed is a difference of places, and stays. -/
theorem requireFilled_move :
    (h.move δ).requireFilled (cursor + δ.bytes) =
      δ.result (fun x => x) (h.requireFilled cursor) := by
  refine result_ite (by rw [stop_move]; omega) (fun _ => rfl) fun _ => ?_
  refine congrArg (fun n => Except.error (Fault.sizeMismatch _ _ _ n)) ?_
  exact Nat.add_sub_add_right ..

/-- A header is parsed alike wherever it stands. -/
theorem parse_move (hv : Shows δ.bytes w v) (hc : cursor ≤ v.stop) :
    parse w (cursor + δ.bytes) = δ.result (move δ) (parse v cursor) := by
  rw [parse, parse]
  refine result_bind (hv.uint32_move (by omega)) fun tag _ => ?_
  rw [Nat.add_right_comm]
  refine result_bind (hv.uint32_move (by omega)) fun size _ => ?_
  refine result_bind (requireMin_move (h := ⟨cursor, tag, size⟩) length) fun _ _ => ?_
  have hwhole := hv.limit_whole
  refine result_ite (by simp only [stop]; omega) (fun _ => ?_) fun _ => rfl
  rw [hwhole]
  rfl

/-- The tag that is to be seen is the same. -/
theorem tagAt?_move (hv : Shows δ.bytes w v) (hc : cursor ≤ v.stop) :
    tagAt? w (cursor + δ.bytes) = tagAt? v cursor := by
  have hwhole := hv.limit_whole
  unfold tagAt?
  by_cases hin : v.limit < cursor + length
  · rw [if_pos hin, if_pos (by omega)]
  · rw [if_neg hin, if_neg (by omega), hv.uint32_move (by omega)]
    cases v.uint32 cursor <;> rfl

/-- A header in the part ends in the part. -/
theorem stop_le_of_shows (hv : Shows δ.bytes w v) (hp : parse v cursor = .ok h) :
    h.offset = cursor ∧ h.stop ≤ v.stop := by
  obtain ⟨ho, -, hs, -⟩ := parse_eq_ok hp
  exact ⟨ho, hv.limit_part ▸ hs⟩

end Header

/-! ## Fields

A field is a record of its own, which ends in the part.
-/

namespace Field

/-- A text is read from the payload, and only its fault knows of a place. -/
theorem text_move (f : Field) : (f.move δ).text = δ.result (fun x => x) f.text := by
  have hbytes : (f.move δ).textBytes = f.textBytes := rfl
  rw [text, text, hbytes, dataOffset_move]
  cases Text.Utf8.decode? f.textBytes <;> rfl

/-- A field is read alike wherever it stands. -/
theorem read_move (hv : Shows δ.bytes w v) (hc : cursor ≤ v.stop) :
    read w (cursor + δ.bytes) = δ.result (move δ) (read v cursor) := by
  rw [read, read]
  refine result_bind (Header.parse_move hv hc) fun h hp => ?_
  refine result_bind (Header.requireMin_move headerLength) fun _ hm => ?_
  obtain ⟨rfl, hs⟩ := Header.stop_le_of_shows hv hp
  have hin := hv.upTo hs
  have hmin := Header.requireMin_eq_ok_iff.mp hm
  have hle : h.offset + headerLength ≤ h.stop := Nat.add_le_add_left hmin _
  simp only [headerLength, Header.length] at hle
  simp only [Header.stop_move, Nat.add_right_comm h.offset δ.bytes]
  refine result_bind (hin.uint32_move (by simp only [Header.length, upTo]; omega)) fun n _ => ?_
  have hn := n.toNat_lt
  refine result_bind
    (hin.slice_move (by simp only [headerLength, Header.length, upTo]; omega)) fun data _ => rfl

/-- It is found or not, alike. -/
theorem next?_move (hv : Shows δ.bytes w v) (hc : cursor ≤ v.stop) :
    next? w (cursor + δ.bytes) tag = δ.result (Option.map (move δ)) (next? v cursor tag) := by
  refine result_ite (by rw [Header.tagAt?_move hv hc]) (fun _ => ?_) fun _ => rfl
  exact result_map (read_move hv hc) fun _ => rfl

/-- A field that must be there is missing in both or in neither. -/
theorem require_move (hv : Shows δ.bytes w v) (hc : cursor ≤ v.stop) :
    require w (cursor + δ.bytes) tag = δ.result (move δ) (require v cursor tag) := by
  refine result_bind (next?_move hv hc) fun found _ => ?_
  cases found <;> rfl

/-- A cursor moves along with what was read in front of it. -/
theorem requireText_move (hv : Shows δ.bytes w v) (hc : cursor ≤ v.stop) :
    requireText w (cursor + δ.bytes) tag =
      δ.result (Prod.map (fun s => s) (· + δ.bytes)) (requireText v cursor tag) := by
  refine result_bind (require_move hv hc) fun f _ => ?_
  refine result_bind (text_move f) fun s _ => ?_
  rw [stop_move]
  rfl

theorem optionalText_move (hv : Shows δ.bytes w v) (hc : cursor ≤ v.stop) :
    optionalText w (cursor + δ.bytes) tag =
      δ.result (Prod.map (fun s => s) (· + δ.bytes)) (optionalText v cursor tag) := by
  refine result_bind (next?_move hv hc) fun found _ => ?_
  cases found with
  | none => rfl
  | some f =>
    refine result_bind (text_move f) fun s _ => ?_
    rw [stop_move]
    rfl

end Field

/-! ## Fixed layouts

A fixed part is read word by word behind the header. Its length has been compared with the size of
the record first, so no word of it lies outside of the part.
-/

/-- Ids and flags are read alike. -/
theorem CommonFields.read_move (hv : Shows δ.bytes w v) (hs : h.stop ≤ v.stop)
    (hm : Layout.formLength ≤ h.size.toNat) :
    read w (h.move δ) = δ.result (fun x => x) (read v h) := by
  have hin := hv.upTo hs
  have hle : h.offset + Layout.formLength ≤ h.stop := Nat.add_le_add_left hm _
  simp only [Layout.formLength, Header.length] at hle
  rw [read, read, Header.stop_move]
  have hbase : (h.move δ).offset + Header.length = h.offset + Header.length + δ.bytes :=
    Nat.add_right_comm ..
  simp only [hbase, Nat.add_right_comm (h.offset + Header.length) δ.bytes]
  refine result_bind (hin.uint64_move (by simp only [Header.length, upTo]; omega)) fun _ _ => ?_
  refine result_bind (hin.uint64_move (by simp only [Header.length, upTo]; omega)) fun _ _ => ?_
  exact result_bind (hin.uint32_move (by simp only [Header.length, upTo]; omega)) fun _ _ => rfl

namespace Layout

theorem form_move (hv : Shows δ.bytes w v) (hs : h.stop ≤ v.stop) :
    form w (h.move δ) = δ.result (fun x => x) (form v h) := by
  refine result_bind (Header.requireTag_move _) fun _ _ => ?_
  refine result_bind (Header.requireMin_move _) fun _ hm => ?_
  exact CommonFields.read_move hv hs (Header.requireMin_eq_ok_iff.mp hm)

theorem text_move (hv : Shows δ.bytes w v) (hs : h.stop ≤ v.stop) :
    text w (h.move δ) = δ.result (fun x => x) (text v h) := by
  refine result_bind (Header.requireClass_move _ _) fun _ _ => ?_
  refine result_bind (Header.requireMin_move _) fun _ hm => ?_
  exact CommonFields.read_move hv hs (Header.requireMin_eq_ok_iff.mp hm)

theorem numeric_move (hv : Shows δ.bytes w v) (hs : h.stop ≤ v.stop) :
    numeric w (h.move δ) = δ.result (fun x => x) (numeric v h) := by
  refine result_bind (Header.requireClass_move _ _) fun _ _ => ?_
  refine result_bind (Header.requireMin_move _) fun _ hm => ?_
  have hmin := Header.requireMin_eq_ok_iff.mp hm
  have hle : h.offset + numericLength ≤ h.stop := Nat.add_le_add_left hmin _
  have hform : formLength ≤ h.size.toNat := Nat.le_of_add_right_le hmin
  have hdefault : defaultOffset (h.move δ) = defaultOffset h + δ.bytes := Nat.add_right_comm ..
  simp only [numericLength] at hle
  refine result_bind (CommonFields.read_move hv hs hform) fun _ _ => ?_
  rw [Header.stop_move, hdefault]
  exact result_bind ((hv.upTo hs).uint32_move (by simp only [defaultOffset, upTo]; omega))
    fun _ _ => rfl

theorem enumValue_move (hv : Shows δ.bytes w v) (hs : h.stop ≤ v.stop) :
    enumValue w (h.move δ) = δ.result (fun x => x) (enumValue v h) := by
  refine result_bind (Header.requireTag_move _) fun _ _ => ?_
  refine result_bind (Header.requireMin_move _) fun _ hm => ?_
  have hle : h.offset + enumValueLength ≤ h.stop :=
    Nat.add_le_add_left (Header.requireMin_eq_ok_iff.mp hm) _
  have hvalue : (h.move δ).offset + Header.length = h.offset + Header.length + δ.bytes :=
    Nat.add_right_comm ..
  simp only [enumValueLength] at hle
  rw [Header.stop_move, hvalue]
  exact (hv.upTo hs).uint32_move (by simp only [upTo]; omega)

end Layout

end SetupForms
