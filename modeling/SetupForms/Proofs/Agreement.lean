import SetupForms.Proofs.OutlineNode
import SetupForms.Proofs.WireRecord

/-!
# Windows that agree

`Window.AgreeFrom lo w w'` says that two windows are alike from `lo` on. No reader looks back: what
it reads from a cursor on is the same in two windows that agree from there, faults included. The
last of these statements is about whole outlines (`Node.children_congr`). A decoder that has a
header looks only into the frame of that header, so for it the frames must agree.

The point of such statements is that a record is decoded from its own bytes: whatever two buffers
hold in front of a record, they hold the same record if they agree from its offset on. The limits of
the windows must be the same as well, because a reader compares with them before it reads; the
buffers themselves may go on behind the limit in different ways.
-/

namespace SetupForms

variable {w w' : Window} {lo cursor depth : Nat} {h : Header} {limits : Limits} {tag : UInt32}

namespace Window

/-- Two windows with the same end show the same bytes from `lo` on. -/
structure AgreeFrom (lo : Nat) (w w' : Window) : Prop where
  /-- they end alike -/
  stop : w.stop = w'.stop
  /-- as much can be read, though the buffers may go on behind it -/
  limit : w.limit = w'.limit
  /-- what can be read from `lo` on is the same -/
  bytes : ∀ i, lo ≤ i → i < w.limit → w.bytes[i]? = w'.bytes[i]?

namespace AgreeFrom

/-- Windows that agree from an offset on agree from every later one. -/
theorem mono {lo' : Nat} (ha : AgreeFrom lo w w') (hlo : lo ≤ lo') : AgreeFrom lo' w w' :=
  ⟨ha.stop, ha.limit, fun i hi => ha.bytes i (Nat.le_trans hlo hi)⟩

/-- Windows that agree still do when both are cut at the same place. -/
theorem upTo {stop : Nat} (ha : AgreeFrom lo w w') (hs : stop ≤ w.limit) :
    AgreeFrom lo (w.upTo stop) (w'.upTo stop) := by
  have hlimit := limit_upTo_of_le hs
  refine ⟨rfl, hlimit.trans (limit_upTo_of_le (ha.limit ▸ hs)).symm, fun i hi hlt =>
    ha.bytes i hi ?_⟩
  omega

/-- A slice behind the offset is the same in both windows, and so is the reason why there is none.
-/
theorem slice_eq {offset length : Nat} (ha : AgreeFrom lo w w') (hlo : lo ≤ offset) :
    w.slice offset length = w'.slice offset length := by
  unfold slice
  rw [← ha.limit]
  split
  · rfl
  split
  · rfl
  next hl =>
    have hs : w.limit ≤ w.bytes.size := Nat.min_le_right ..
    have hs' : w'.limit ≤ w'.bytes.size := Nat.min_le_right ..
    rw [← ha.limit] at hs'
    congr 1
    apply List.ext_getElem?
    intro i
    rw [Array.getElem?_toList, Array.getElem?_toList, Array.getElem?_extract,
      Array.getElem?_extract, Nat.min_eq_left (by omega), Nat.min_eq_left (by omega)]
    split
    · exact ha.bytes _ (by omega) (by omega)
    · rfl

theorem uint32_eq {offset : Nat} (ha : AgreeFrom lo w w') (hlo : lo ≤ offset) :
    w.uint32 offset = w'.uint32 offset := by
  rw [uint32, uint32, ha.slice_eq hlo]

theorem uint64_eq {offset : Nat} (ha : AgreeFrom lo w w') (hlo : lo ≤ offset) :
    w.uint64 offset = w'.uint64 offset := by
  rw [uint64, uint64, ha.slice_eq hlo]

end AgreeFrom

end Window

open Window

/-! ## Headers and fields

Each reader is a chain of steps, each of which reads at a cursor that is not before the one it was
given. So a chain is the same in both windows as soon as its steps are, and the only thing to be
shown at a step is that its cursor is still behind `lo`.
-/

namespace Header

/-- A header is parsed alike. -/
theorem parse_congr (ha : AgreeFrom lo w w') (hlo : lo ≤ cursor) :
    parse w cursor = parse w' cursor := by
  rw [parse, parse, ha.uint32_eq hlo, ha.uint32_eq (Nat.le_add_right_of_le hlo), ha.limit]

theorem tagAt?_congr (ha : AgreeFrom lo w w') (hlo : lo ≤ cursor) :
    tagAt? w cursor = tagAt? w' cursor := by
  rw [tagAt?, tagAt?, ha.uint32_eq hlo, ha.limit]

end Header

namespace Field

/-- A field is read alike: its header is, and its frame is a cut of both windows at one place. -/
theorem read_congr (ha : AgreeFrom lo w w') (hlo : lo ≤ cursor) :
    read w cursor = read w' cursor := by
  rw [read, read, ← Header.parse_congr ha hlo]
  refine bind_congr_ok fun h hp => ?_
  have hin := ha.upTo (Header.parse_eq_ok hp).2.2.1
  simp only [hin.uint32_eq (Nat.le_add_right_of_le hlo), hin.slice_eq (Nat.le_add_right_of_le hlo)]

theorem next?_congr (ha : AgreeFrom lo w w') (hlo : lo ≤ cursor) :
    next? w cursor tag = next? w' cursor tag := by
  rw [next?, next?, Header.tagAt?_congr ha hlo, read_congr ha hlo]

theorem require_congr (ha : AgreeFrom lo w w') (hlo : lo ≤ cursor) :
    require w cursor tag = require w' cursor tag := by
  rw [require, require, next?_congr ha hlo]

theorem requireText_congr (ha : AgreeFrom lo w w') (hlo : lo ≤ cursor) :
    requireText w cursor tag = requireText w' cursor tag := by
  rw [requireText, requireText, require_congr ha hlo]

theorem optionalText_congr (ha : AgreeFrom lo w w') (hlo : lo ≤ cursor) :
    optionalText w cursor tag = optionalText w' cursor tag := by
  rw [optionalText, optionalText, next?_congr ha hlo]

end Field

/-! ## Records

A decoder is handed a header and keeps to the frame of that header. What it needs is therefore
weaker than agreement from a cursor on: the two frames must agree (`Header.AgreeInside`), and what
follows the record may differ.
-/

/-- The frames of a record agree. -/
abbrev Header.AgreeInside (h : Header) (w w' : Window) : Prop :=
  AgreeFrom h.offset (w.upTo h.stop) (w'.upTo h.stop)

/-- Windows that agree from a cursor on agree in the record that is framed there. -/
theorem Window.AgreeFrom.inside (ha : AgreeFrom lo w w') (hlo : lo ≤ cursor)
    (hp : Header.parse w cursor = .ok h) : h.AgreeInside w w' := by
  obtain ⟨rfl, -, hs, -⟩ := Header.parse_eq_ok hp
  exact (ha.mono hlo).upTo hs

theorem CommonFields.read_congr (ha : h.AgreeInside w w') :
    CommonFields.read w h = CommonFields.read w' h := by
  simp only [CommonFields.read, ha.uint64_eq (Nat.le_add_right_of_le (Nat.le_add_right ..)),
    ha.uint64_eq (Nat.le_add_right ..), ha.uint32_eq (Nat.le_add_right_of_le (Nat.le_add_right ..))]

namespace Layout

theorem form_congr (ha : h.AgreeInside w w') : form w h = form w' h := by
  rw [form, form, CommonFields.read_congr ha]

theorem text_congr (ha : h.AgreeInside w w') : text w h = text w' h := by
  rw [text, text, CommonFields.read_congr ha]

theorem numeric_congr (ha : h.AgreeInside w w') : numeric w h = numeric w' h := by
  rw [numeric, numeric, CommonFields.read_congr ha,
    ha.uint32_eq (show h.offset ≤ defaultOffset h from Nat.le_add_right ..)]

theorem enumValue_congr (ha : h.AgreeInside w w') : enumValue w h = enumValue w' h := by
  rw [enumValue, enumValue, ha.uint32_eq (Nat.le_add_right ..)]

end Layout

namespace EnumValue

theorem decode_congr (ha : h.AgreeInside w w') : decode w h = decode w' h := by
  rw [decode, decode, Layout.enumValue_congr ha]
  simp only [Field.require_congr ha (Nat.le_add_right ..)]

/-- Values one behind the other are decoded alike. -/
theorem decodeAll_congr (ha : AgreeFrom lo w w') (hlo : lo ≤ cursor) :
    decodeAll w cursor = decodeAll w' cursor := by
  -- the induction is on what is left of the window, which every value makes smaller
  induction hn : w.stop - cursor using Nat.strongRecOn generalizing cursor with
  | ind n ih =>
    by_cases hc : cursor < w.stop
    · rw [decodeAll_of_lt hc, decodeAll_of_lt (ha.stop ▸ hc), ← Header.parse_congr ha hlo]
      refine bind_congr_ok fun h hp => ?_
      have hlt := Header.lt_stop_of_parse hp
      rw [decode_congr (ha.inside hlo hp), ih _ (by omega) (by omega) rfl]
    · rw [decodeAll_of_le (by omega), decodeAll_of_le (by have := ha.stop; omega)]

end EnumValue

namespace NumericOption

theorem decodeValues_congr (ha : AgreeFrom lo w w') (hlo : lo ≤ cursor) (kind : NumericKind) :
    decodeValues w h cursor kind = decodeValues w' h cursor kind := by
  cases kind with
  | enum => exact EnumValue.decodeAll_congr ha hlo
  | number | bool => rfl

/-- A numeric option is decoded alike in frames that agree. -/
theorem decode_congr (ha : h.AgreeInside w w') (kind : NumericKind) :
    decode w h kind = decode w' h kind := by
  rw [decode, decode, ← Layout.numeric_congr ha]
  refine bind_congr_ok fun fields _ => ?_
  -- the cursor only moves on, so it never leaves the part where the frames agree
  have h₀ : h.offset ≤ h.offset + Layout.numericLength := Nat.le_add_right ..
  simp only [← Field.requireText_congr ha h₀]
  refine bind_congr_ok fun name hn => ?_
  have h₁ := Nat.le_trans h₀ (Field.le_of_requireText hn)
  simp only [← Field.requireText_congr ha h₁]
  refine bind_congr_ok fun label hl => ?_
  have h₂ := Nat.le_trans h₁ (Field.le_of_requireText hl)
  simp only [← Field.optionalText_congr ha h₂]
  refine bind_congr_ok fun help hh => ?_
  simp only [decodeValues_congr ha (Nat.le_trans h₂ (Field.le_of_optionalText hh))]

end NumericOption

namespace TextOption

theorem decodeValue_congr (ha : AgreeFrom lo w w') (hlo : lo ≤ cursor) (kind : TextKind) :
    decodeValue w cursor limits kind = decodeValue w' cursor limits kind := by
  cases kind with
  | comment => rfl
  | varchar =>
    rw [decodeValue, decodeValue, ← Field.require_congr ha hlo]
    refine bind_congr_ok fun default hd => ?_
    have hle := Nat.le_trans hlo (Nat.le_of_add_right_le (Field.require_stop hd).2.1)
    simp only [Field.requireText_congr ha hle]

/-- The cursor behind the default and the name. -/
theorem le_of_decodeValue {kind : TextKind} {found : Option Field × Option String × Nat}
    (hd : decodeValue w cursor limits kind = .ok found) : cursor ≤ found.2.2 := by
  cases kind with
  | comment =>
    obtain rfl := Except.ok.inj hd
    exact Nat.le_refl _
  | varchar =>
    obtain ⟨default, hf, hd⟩ := bind_eq_ok_iff.mp hd
    obtain ⟨-, hd⟩ := guard_eq_ok_iff.mp hd
    obtain ⟨name, hn, hd⟩ := bind_eq_ok_iff.mp hd
    obtain rfl := pure_eq_ok_iff.mp hd
    exact Nat.le_trans (Nat.le_of_add_right_le (Field.require_stop hf).2.1)
      (Field.le_of_requireText hn)

/-- A text line is decoded alike in frames that agree. -/
theorem decode_congr (ha : h.AgreeInside w w') (kind : TextKind) :
    decode w h kind limits = decode w' h kind limits := by
  rw [decode, decode, ← Layout.text_congr ha]
  refine bind_congr_ok fun fields _ => ?_
  have h₀ : h.offset ≤ h.offset + Layout.textLength := Nat.le_add_right ..
  simp only [← decodeValue_congr ha h₀]
  refine bind_congr_ok fun value hv => ?_
  have h₁ := Nat.le_trans h₀ (le_of_decodeValue hv)
  simp only [← Field.requireText_congr ha h₁]
  refine bind_congr_ok fun label hl => ?_
  simp only [Field.optionalText_congr ha (Nat.le_trans h₁ (Field.le_of_requireText hl))]

end TextOption

/-- Beyond its header a form is read from its frame alone. -/
theorem Form.decode_congr (hp : Header.parse w cursor = .ok h)
    (hp' : Header.parse w' cursor = .ok h) (ha : h.AgreeInside w w') :
    decode w cursor depth = decode w' cursor depth := by
  obtain ⟨rfl, -⟩ := Header.parse_eq_ok hp
  rw [decode, decode, hp, hp']
  show Layout.form w h >>= _ = Layout.form w' h >>= _
  rw [← Layout.form_congr ha]
  simp only [Field.require_congr ha (Nat.le_add_right ..)]

/-! ## Outlines

The outline of a form is found by recursion on what is left of the window and into nested forms, so
both hypotheses of the induction are needed: the rest of the window is compared from the end of the
record on, and the children of a nested form in the window of that form.
-/

namespace Node

/-- The node of a framed record is the same if the frames agree and what nested forms hold is the
same. -/
theorem ofHeader_congr {inside : (nested : Form) →
      Form.decode w h.offset (depth + 1) = .ok nested → List Node}
    {inside' : (nested : Form) → Form.decode w' h.offset (depth + 1) = .ok nested → List Node}
    (hp : Header.parse w cursor = .ok h) (hp' : Header.parse w' cursor = .ok h)
    (ha : h.AgreeInside w w') (hin : ∀ nested hw hw', inside nested hw = inside' nested hw') :
    ofHeader w limits depth h inside = ofHeader w' limits depth h inside' := by
  obtain ⟨rfl, -⟩ := Header.parse_eq_ok hp
  have hd : Form.decode w h.offset (depth + 1) = Form.decode w' h.offset (depth + 1) :=
    Form.decode_congr hp hp' ha
  cases hr : Role.ofTag h.tag with
  | form =>
    by_cases hm : limits.maxDepth < depth + 1
    · rw [ofHeader_of_tooDeep hr hm, ofHeader_of_tooDeep hr hm]
    cases hw : Form.decode w h.offset (depth + 1) with
    | error f => rw [ofHeader_of_badForm hr hm hw, ofHeader_of_badForm hr hm (hd ▸ hw)]
    | ok nested =>
      rw [ofHeader_of_form hr hm hw, ofHeader_of_form hr hm (hd ▸ hw), hin]
  | numeric kind =>
    rw [ofHeader_of_numeric hr, ofHeader_of_numeric hr, NumericOption.decode_congr ha]
  | text kind => rw [ofHeader_of_text hr, ofHeader_of_text hr, TextOption.decode_congr ha]
  | unrecognized => rw [ofHeader_of_unrecognized hr, ofHeader_of_unrecognized hr]

/-- Windows that agree from a cursor on have the same outline from there. -/
theorem children_congr (ha : AgreeFrom lo w w') (hlo : lo ≤ cursor) :
    children w limits depth cursor = children w' limits depth cursor := by
  fun_induction children w limits depth cursor generalizing w' with
  | case1 w depth cursor hlt f hp =>
    rw [children_of_torn (ha.stop ▸ hlt) (Header.parse_congr ha hlo ▸ hp),
      Header.tagAt?_congr ha hlo]
  | case2 w depth cursor hlt h hp ihin ihrest =>
    have hs := Header.lt_stop_of_parse hp
    have ho := (Header.parse_eq_ok hp).1
    have hp' := (Header.parse_congr ha hlo).symm.trans hp
    rw [ihrest ha (by omega), children_of_framed (w := w') (ha.stop ▸ hlt) hp']
    congr 1
    -- what a nested form holds lies in its own window, and there the windows agree too
    refine ofHeader_congr hp hp' (ha.inside hlo hp) fun nested hw _ => ?_
    obtain ⟨-, -, -, hlow, -, hns⟩ := Form.decode_eq_ok hw
    exact ihin nested hw (ha.upTo hns) (by omega)
  | case3 w depth cursor hge =>
    rw [children_of_le (by have := ha.stop; omega)]

end Node

end SetupForms
