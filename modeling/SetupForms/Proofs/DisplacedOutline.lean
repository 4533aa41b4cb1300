import SetupForms.Proofs.Accounting
import SetupForms.Proofs.Displacement
import SetupForms.Proofs.WireRecord

/-!
# Displaced outlines

Options and forms are decoded alike wherever they stand, and so are whole outlines: if a window
shows a part of another one, the outline of the whole from a place in the part on is that of the
part, moved (`Node.children_move`). The forms around the part are counted in the limit on the depth.

The decoders are chains of readers, and each reader is known to move (`Displacement`). What is left
for a decoder is to see that no cursor leaves the part, because only there is the whole known to be
like it. So every step that moves on comes with a bound on where it has come to.
-/

namespace SetupForms

open Displacement Window

variable {δ : Displacement} {w v : Window} {cursor depth : Nat} {h : Header} {limits : Limits}

/-! ## Options

A decoder ends inside the record whose header it was given, and the record ends inside the part. The
fixed part comes first, and the readers of the fields take over where it ends.
-/

namespace EnumValue

/-- A value is decoded alike wherever it stands. -/
theorem decode_move (hv : Shows δ.bytes w v) (hs : h.stop ≤ v.stop) :
    decode w (h.move δ) = δ.result (move δ) (decode v h) := by
  have hlabel : (h.move δ).offset + Layout.enumValueLength =
      h.offset + Layout.enumValueLength + δ.bytes := Nat.add_right_comm ..
  rw [decode, decode, Header.stop_move, hlabel]
  refine result_bind (Layout.enumValue_move hv hs) fun value hf => ?_
  refine result_bind (Field.require_move (hv.upTo hs) (Layout.le_of_guarded hf)) fun field _ => ?_
  rw [Field.stop_move]
  refine result_bind Header.requireFilled_move fun _ _ => ?_
  exact result_bind (Field.text_move field) fun _ _ => rfl

/-- Values one behind the other are decoded alike. -/
theorem decodeAll_move (hv : Shows δ.bytes w v) (hc : cursor ≤ v.stop) :
    decodeAll w (cursor + δ.bytes) = δ.result (List.map (move δ)) (decodeAll v cursor) := by
  -- the induction is on what is left of the part, and the header that parses makes it smaller
  induction hn : v.stop - cursor using Nat.strongRecOn generalizing cursor with
  | ind n ih =>
    have hstop := hv.stop
    by_cases hlt : cursor < v.stop
    · rw [decodeAll_of_lt hlt, decodeAll_of_lt (by omega)]
      refine result_bind (Header.parse_move hv hc) fun h hp => ?_
      have hs := (Header.stop_le_of_shows hv hp).2
      have hnext := Header.lt_stop_of_parse hp
      refine result_bind (decode_move hv hs) fun value _ => ?_
      rw [Header.stop_move]
      exact result_map (ih _ (by omega) hs rfl) fun _ => rfl
    · rw [decodeAll_of_le (by omega), decodeAll_of_le (by omega)]
      rfl

end EnumValue

namespace NumericOption

/-- Only an enum has values, so that for the other kinds nothing is left to move. -/
theorem decodeValues_move (hv : Shows δ.bytes w v) (hc : cursor ≤ v.stop) (kind : NumericKind) :
    decodeValues w (h.move δ) (cursor + δ.bytes) kind =
      δ.result (List.map (EnumValue.move δ)) (decodeValues v h cursor kind) := by
  cases kind with
  | enum => exact EnumValue.decodeAll_move hv hc
  | number | bool => exact result_map Header.requireFilled_move fun _ => rfl

/-- A numeric option is decoded alike wherever it stands. -/
theorem decode_move (hv : Shows δ.bytes w v) (hs : h.stop ≤ v.stop) (kind : NumericKind) :
    decode w (h.move δ) kind = δ.result (move δ) (decode v h kind) := by
  have hin := hv.upTo hs
  have hlimit : (v.upTo h.stop).limit = h.stop := hin.limit_part
  have hname : (h.move δ).offset + Layout.numericLength =
      h.offset + Layout.numericLength + δ.bytes := Nat.add_right_comm ..
  rw [decode, decode, Header.stop_move, hname]
  -- no cursor leaves the record
  refine result_bind (Layout.numeric_move hv hs) fun fixed hf => ?_
  refine result_bind (Field.requireText_move hin (Layout.le_of_guarded hf)) fun name hn => ?_
  have h₁ := hlimit ▸ Field.stop_le_of_requireText hn
  refine result_bind (Field.requireText_move hin h₁) fun label hl => ?_
  have h₂ := hlimit ▸ Field.stop_le_of_requireText hl
  refine result_bind (Field.optionalText_move hin h₂) fun help hh => ?_
  have h₃ := hlimit ▸ Field.stop_le_of_optionalText hh (hlimit.symm ▸ h₂)
  exact result_bind (decodeValues_move hin h₃ kind) fun _ _ => rfl

end NumericOption

namespace TextOption

/-- The length of a default has nothing to do with its place. -/
theorem requireLength_move (default : Field) :
    requireLength (limits.move δ) (default.move δ) =
      δ.result (fun x => x) (requireLength limits default) :=
  result_ite Iff.rfl (fun _ => rfl) fun _ => rfl

/-- The default and the name of a text option move together with the cursor behind them. -/
theorem decodeValue_move (hv : Shows δ.bytes w v) (hc : cursor ≤ v.stop) (kind : TextKind) :
    decodeValue w (cursor + δ.bytes) (limits.move δ) kind =
      δ.result (Prod.map (Option.map (Field.move δ)) (Prod.map (fun s => s) (· + δ.bytes)))
        (decodeValue v cursor limits kind) := by
  cases kind with
  | comment => rfl
  | varchar =>
    refine result_bind (Field.require_move hv hc) fun default hd => ?_
    refine result_bind (requireLength_move default) fun _ _ => ?_
    have hstop := hv.limit_part ▸ (Field.require_stop hd).2.2
    rw [Field.stop_move]
    exact result_bind (Field.requireText_move hv hstop) fun _ _ => rfl

/-- The cursor behind the default and the name is still in the part. -/
theorem stop_le_of_decodeValue {kind : TextKind} {found : Option Field × Option String × Nat}
    (hd : decodeValue v cursor limits kind = .ok found) (hc : cursor ≤ v.limit) :
    found.2.2 ≤ v.limit := by
  cases kind with
  | comment =>
    obtain rfl := Except.ok.inj hd
    exact hc
  | varchar =>
    obtain ⟨default, -, hd⟩ := bind_eq_ok_iff.mp hd
    obtain ⟨-, hd⟩ := guard_eq_ok_iff.mp hd
    obtain ⟨name, hn, hd⟩ := bind_eq_ok_iff.mp hd
    obtain rfl := pure_eq_ok_iff.mp hd
    exact Field.stop_le_of_requireText hn

/-- A text line is decoded alike wherever it stands. -/
theorem decode_move (hv : Shows δ.bytes w v) (hs : h.stop ≤ v.stop) (kind : TextKind) :
    decode w (h.move δ) kind (limits.move δ) = δ.result (move δ) (decode v h kind limits) := by
  have hin := hv.upTo hs
  have hlimit : (v.upTo h.stop).limit = h.stop := hin.limit_part
  have hstart : (h.move δ).offset + Layout.textLength = h.offset + Layout.textLength + δ.bytes :=
    Nat.add_right_comm ..
  rw [decode, decode, Header.stop_move, hstart]
  refine result_bind (Layout.text_move hv hs) fun fields hf => ?_
  have h₀ := Layout.le_of_guarded hf
  refine result_bind (decodeValue_move hin h₀ kind) fun value hd => ?_
  have h₁ := hlimit ▸ stop_le_of_decodeValue hd (hlimit.symm ▸ h₀)
  refine result_bind (Field.requireText_move hin h₁) fun label hl => ?_
  have h₂ := hlimit ▸ Field.stop_le_of_requireText hl
  refine result_bind (Field.optionalText_move hin h₂) fun help _ => ?_
  exact result_bind Header.requireFilled_move fun _ _ => rfl

end TextOption

/-! ## Forms

A form lies one level deeper in the whole for each form around the part, and its children start and
end with it.
-/

/-- A form is decoded alike wherever it stands. -/
theorem Form.decode_move (hv : Shows δ.bytes w v) (hc : cursor ≤ v.stop) :
    decode w (cursor + δ.bytes) (depth + δ.levels) = δ.result (move δ) (decode v cursor depth) := by
  rw [decode, decode]
  refine result_bind (Header.parse_move hv hc) fun h hp => ?_
  obtain ⟨rfl, hs⟩ := Header.stop_le_of_shows hv hp
  refine result_bind (Layout.form_move hv hs) fun fields hf => ?_
  rw [Header.stop_move, Nat.add_right_comm]
  refine result_bind (Field.require_move (hv.upTo hs) (Layout.le_of_guarded hf)) fun label _ => ?_
  refine result_bind (Field.text_move label) fun name _ => ?_
  rw [Field.stop_move]
  rfl

/-! ## Outlines

The induction goes along the outline of the part. A header that parses in the part parses in the
whole, and one that does not is the torn tail of both. The limit on the depth moves with the depth,
so that a form is too deep in both or in neither.
-/

namespace Node

mutual

/-- A node moves with all that it holds. -/
def move (δ : Displacement) : Node → Node
  | form f children => form (f.move δ) (moveAll δ children)
  | numeric o => numeric (o.move δ)
  | text o => text (o.move δ)
  | unrecognized offset tag => unrecognized (offset + δ.bytes) tag
  | malformed offset tag fault => malformed (offset + δ.bytes) tag (fault.move δ)
  | torn offset tag fault => torn (offset + δ.bytes) tag (fault.move δ)

/-- Nodes one behind the other move one by one. -/
def moveAll (δ : Displacement) : List Node → List Node
  | [] => []
  | n :: ns => move δ n :: moveAll δ ns

end

/-- The node of a framed record moves, if what nested forms hold does. -/
theorem ofHeader_move (hv : Shows δ.bytes w v) (hp : Header.parse v cursor = .ok h)
    {inside : (nested : Form) →
      Form.decode w (h.move δ).offset (depth + δ.levels + 1) = .ok nested → List Node}
    {inside' : (nested : Form) → Form.decode v h.offset (depth + 1) = .ok nested → List Node}
    (hin : ∀ nested hw hd, inside (nested.move δ) hw = moveAll δ (inside' nested hd)) :
    ofHeader w (limits.move δ) (depth + δ.levels) (h.move δ) inside =
      move δ (ofHeader v limits depth h inside') := by
  have hs := (Header.stop_le_of_shows hv hp).2
  have hlt := Header.lt_stop_of_parse hp
  obtain ⟨rfl, -⟩ := Header.parse_eq_ok hp
  have hform : Form.decode w (h.move δ).offset (depth + δ.levels + 1) =
      δ.result (Form.move δ) (Form.decode v h.offset (depth + 1)) := by
    rw [Nat.add_right_comm]
    exact Form.decode_move hv (by omega)
  cases hr : Role.ofTag h.tag with
  | form =>
    by_cases hm : limits.maxDepth < depth + 1
    · have hm' : (limits.move δ).maxDepth < depth + δ.levels + 1 := by
        simp only [Limits.move]
        omega
      rw [ofHeader_of_tooDeep hr hm, ofHeader_of_tooDeep (h := h.move δ) hr hm']
      rfl
    have hm' : ¬(limits.move δ).maxDepth < depth + δ.levels + 1 := by
      simp only [Limits.move]
      omega
    cases hd : Form.decode v h.offset (depth + 1) with
    | error f =>
      rw [hd] at hform
      rw [ofHeader_of_badForm hr hm hd, ofHeader_of_badForm (h := h.move δ) hr hm' hform]
      rfl
    | ok nested =>
      rw [hd] at hform
      rw [ofHeader_of_form hr hm hd, ofHeader_of_form (h := h.move δ) hr hm' hform,
        hin nested hform hd]
      rfl
  | numeric kind =>
    rw [ofHeader_of_numeric hr, ofHeader_of_numeric (h := h.move δ) hr,
      NumericOption.decode_move hv hs]
    cases NumericOption.decode v h kind <;> rfl
  | text kind =>
    rw [ofHeader_of_text hr, ofHeader_of_text (h := h.move δ) hr, TextOption.decode_move hv hs]
    cases TextOption.decode v h kind limits <;> rfl
  | unrecognized =>
    rw [ofHeader_of_unrecognized hr, ofHeader_of_unrecognized (h := h.move δ) hr]
    rfl

/-- **Outlines move.** From a place in the part on, the outline of the whole is that of the part,
moved. -/
theorem children_move (hv : Shows δ.bytes w v) (hc : cursor ≤ v.stop) :
    children w (limits.move δ) (depth + δ.levels) (cursor + δ.bytes) =
      moveAll δ (children v limits depth cursor) := by
  fun_induction children v limits depth cursor generalizing w with
  | case1 v depth cursor hlt f hp =>
    have hp' : Header.parse w (cursor + δ.bytes) = .error (f.move δ) := by
      rw [Header.parse_move hv hc, hp]
      rfl
    rw [children_of_torn (by have := hv.stop; omega) hp', Header.tagAt?_move hv hc]
    rfl
  | case2 v depth cursor hlt h hp ihin ihrest =>
    have hp' : Header.parse w (cursor + δ.bytes) = .ok (h.move δ) := by
      rw [Header.parse_move hv hc, hp]
      rfl
    have hs := (Header.stop_le_of_shows hv hp).2
    rw [children_of_framed (by have := hv.stop; omega) hp', Header.stop_move, ihrest hv hs, moveAll]
    congr 1
    refine ofHeader_move hv hp fun nested _ hd => ?_
    obtain ⟨-, -, -, -, hin, hns⟩ := Form.decode_eq_ok hd
    have hstop : nested.stop ≤ v.stop := hv.limit_part ▸ hns
    rw [← ihin nested hd (hv.upTo hstop) hin, Nat.add_right_comm depth]
    rfl
  | case3 v depth cursor hge =>
    rw [children_of_le (by have := hv.stop; omega)]
    rfl

end Node

end SetupForms
