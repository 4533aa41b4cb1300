import SetupForms.Proofs.Passes
import SetupForms.Proofs.Stamping

/-!
# Ids and flags are not looked at

No decision of a walk rests on the ids and flags of a record, or on its default. The outlines of two
windows that differ in a stamp on a framed record are the same, but for the stamp on its node
(`Node.children_stamped`). So a walk over the one is a walk over the other with a callback that puts
the stamp on its events (`Walk.node_stampAt`), and a callback that does not ask for the stamp leaves
the same report (`Walk.node_blind`).

The argument has two halves that meet in the outline. The first is about decoding: a stamp on one
record leaves every other record as it is, because it keeps the size of the record, so the headers
around it are found where they were. The second is about the walk and knows nothing of bytes: it
calls back with the nodes of the outline, so a stamp on a node is a stamp on the events of that
node.
-/

namespace SetupForms

universe u

variable {σ : Type u} {w w' : Window} {cursor depth offset : Nat} {h : Header} {limits : Limits}
  {v : Stamp}

/-! ## One record among others is stamped

A stamp is put on by offset. There is at most one record of an outline at an offset, so that a stamp
on everything at this offset is a stamp on one record; and what a report says of a record, its
offset and its kind, is not touched by the stamp.
-/

/-- The form with a stamp on it, if it is the one at `offset`. -/
def Form.stampAt (v : Stamp) (offset : Nat) (f : Form) : Form :=
  if f.offset = offset then f.stamp v else f

/-- The numeric option with a stamp on it, if it is the one at `offset`. -/
def NumericOption.stampAt (v : Stamp) (offset : Nat) (o : NumericOption) : NumericOption :=
  if o.offset = offset then o.stamp v else o

/-- The text option with a stamp on it, if it is the one at `offset`. -/
def TextOption.stampAt (v : Stamp) (offset : Nat) (o : TextOption) : TextOption :=
  if o.offset = offset then o.stamp v else o

/-- A stamp touches neither what a report says of an option nor the values of an enum. -/
theorem NumericOption.stampAt_eq (o : NumericOption) :
    (o.stampAt v offset).offset = o.offset ∧ (o.stampAt v offset).kind = o.kind ∧
      (o.stampAt v offset).values = o.values := by
  rw [stampAt]
  split <;> exact ⟨rfl, rfl, rfl⟩

/-- A stamp does not touch what a report says of a text line. -/
theorem TextOption.stampAt_eq (o : TextOption) :
    (o.stampAt v offset).offset = o.offset ∧ (o.stampAt v offset).kind = o.kind := by
  rw [stampAt]
  split <;> exact ⟨rfl, rfl⟩

/-- A stamp does not touch where a form stands, what it is called and where it ends. -/
theorem Form.stampAt_eq (f : Form) :
    (f.stampAt v offset).offset = f.offset ∧ (f.stampAt v offset).name = f.name ∧
      (f.stampAt v offset).childrenStart = f.childrenStart ∧
      (f.stampAt v offset).stop = f.stop := by
  rw [stampAt]
  split <;> exact ⟨rfl, rfl, rfl, rfl⟩

/-- The event with a stamp on its form or option, if that is the one at `offset`. -/
def Event.stampAt (v : Stamp) (offset : Nat) : Event → Event
  | enter form => enter (form.stampAt v offset)
  | exit form => exit (form.stampAt v offset)
  | value o x => value (o.stampAt v offset) x
  | numeric o => numeric (o.stampAt v offset)
  | text o => text (o.stampAt v offset)

/-! ## Outlines

The induction follows the place of the stamped record (`Frames`): it is the record at the cursor, or
one behind it, or one inside of it. In each case the part of the buffer that has changed lies on one
side of what is compared.
-/

namespace Node

mutual

/-- The node with a stamp on the form or option at `offset`. -/
def stampAt (v : Stamp) (offset : Nat) : Node → Node
  | form f children => form (f.stampAt v offset) (stampAll v offset children)
  | numeric o => numeric (o.stampAt v offset)
  | text o => text (o.stampAt v offset)
  | unrecognized offset tag => unrecognized offset tag
  | malformed offset tag fault => malformed offset tag fault
  | torn offset tag fault => torn offset tag fault

/-- The nodes with a stamp on the form or option at `offset`. -/
def stampAll (v : Stamp) (offset : Nat) : List Node → List Node
  | [] => []
  | n :: ns => stampAt v offset n :: stampAll v offset ns

end

mutual

/-- A stamp elsewhere does not show. -/
theorem stampAt_of_ne : ∀ n : Node, (∀ e ∈ n.events, e.offset ≠ offset) → n.stampAt v offset = n
  | form f ns => fun he => by
    have hf : f.offset ≠ offset := he (.enter f) (by simp [events])
    have hns := stampAll_of_ne ns fun e hm => he e (by simp [events, hm])
    rw [stampAt, Form.stampAt, if_neg hf, hns]
  | numeric o => fun he => by
    have ho : o.offset ≠ offset := he (.numeric o) (by simp [events])
    rw [stampAt, NumericOption.stampAt, if_neg ho]
  | text o => fun he => by
    have ho : o.offset ≠ offset := he (.text o) (by simp [events])
    rw [stampAt, TextOption.stampAt, if_neg ho]
  | unrecognized .. | malformed .. | torn .. => fun _ => rfl

theorem stampAll_of_ne :
    ∀ ns : List Node, (∀ e ∈ eventsAll ns, e.offset ≠ offset) → stampAll v offset ns = ns
  | [] => fun _ => rfl
  | n :: ns => fun he => by
    rw [stampAll, stampAt_of_ne n fun e hm => he e (List.mem_append_left _ hm),
      stampAll_of_ne ns fun e hm => he e (List.mem_append_right _ hm)]

end

variable {n : Node} {ns : List Node} {lo hi : Nat}

/-- A stamp outside of the stretch of a node does not show in it. -/
theorem Within.stampAt_eq (hn : n.Within lo hi) (hout : hi ≤ offset ∨ offset < lo) :
    n.stampAt v offset = n := by
  refine stampAt_of_ne n fun e he => ?_
  have := hn.events e he
  omega

theorem stampAll_of_within (hns : ∀ n ∈ ns, n.Within lo hi) (hout : hi ≤ offset ∨ offset < lo) :
    stampAll v offset ns = ns := by
  refine stampAll_of_ne ns fun e he => ?_
  obtain ⟨n, hn, he⟩ := mem_eventsAll.mp he
  have := (hns n hn).events e he
  omega

/-- A stamp does not show behind it. -/
theorem stampAll_children (hlt : offset < cursor) :
    stampAll v offset (children w limits depth cursor) = children w limits depth cursor :=
  stampAll_of_within within_children (.inr hlt)

/-- The node of a stamped record shows the record with the stamp on it, if it shows it at all. -/
theorem ofHeader_stamped (hs : v.Stamped h w w') {inside : (nested : Form) →
      Form.decode w h.offset (depth + 1) = .ok nested → List Node}
    {inside' : (nested : Form) → Form.decode w' h.offset (depth + 1) = .ok nested → List Node}
    (hin : v.default? = none → ∀ nested hd hd',
      inside' (nested.stamp v) hd' = stampAll v h.offset (inside nested hd)) :
    ofHeader w' limits depth h inside' =
      (ofHeader w limits depth h inside).stampAt v h.offset := by
  cases hr : Role.ofTag h.tag with
  | form =>
    have hn : v.default? = none := hs.fits.default_eq_none fun kind hkind => by simp [hr] at hkind
    by_cases hm : limits.maxDepth < depth + 1
    · rw [ofHeader_of_tooDeep hr hm, ofHeader_of_tooDeep hr hm, stampAt]
    have hd' : Form.decode w' h.offset (depth + 1) = _ := hs.form_decode hn
    cases hd : Form.decode w h.offset (depth + 1) with
    | error f =>
      rw [hd] at hd'
      rw [ofHeader_of_badForm hr hm hd, ofHeader_of_badForm hr hm hd', stampAt]
    | ok nested =>
      rw [hd] at hd'
      have ho : nested.offset = h.offset := (Form.decode_eq_ok hd).1
      rw [ofHeader_of_form hr hm hd, ofHeader_of_form hr hm hd', hin hn nested hd hd', stampAt,
        Form.stampAt, if_pos ho]
  | numeric kind =>
    rw [ofHeader_of_numeric hr, ofHeader_of_numeric hr, hs.numeric_decode]
    cases hd : NumericOption.decode w h kind with
    | error f => rfl
    | ok o =>
      show numeric (o.stamp v) = (numeric o).stampAt v h.offset
      rw [stampAt, NumericOption.stampAt, if_pos (NumericOption.offset_of_decode hd).1]
  | text kind =>
    have hn : v.default? = none := hs.fits.default_eq_none fun kind hkind => by simp [hr] at hkind
    rw [ofHeader_of_text hr, ofHeader_of_text hr, hs.text_decode hn]
    cases hd : TextOption.decode w h kind limits with
    | error f => rfl
    | ok o =>
      show text (o.stamp v) = (text o).stampAt v h.offset
      rw [stampAt, TextOption.stampAt, if_pos (TextOption.offset_of_decode hd)]
  | unrecognized => exact absurd hr hs.fits.role

/-- **Outlines are blind.** Windows that differ in a stamp on a framed record hold the same, but for
the stamp. -/
theorem children_stamped (hf : Frames limits h w depth cursor) (ho : v.Over h w w')
    (hv : v.Fits h) (hw : w.limit < Window.addressSpace) :
    children w' limits depth cursor = stampAll v h.offset (children w limits depth cursor) := by
  have hlt := hv.lt_stop
  have hs := ho.spares hv
  induction hf generalizing w' with
  | @here w depth cursor hc hp =>
    rw [children_of_framed hc hp, children_of_framed (ho.stop ▸ hc) (ho.parse hp),
      ← children_congr hs.agreeFrom_after (Nat.le_refl _), stampAll, stampAll_children hlt]
    refine congrArg (· :: _) (ofHeader_stamped (ho.stamped hv hw hp) fun hn nested hd _ => ?_)
    -- what the stamped form holds stands behind the stamp
    have hbehind : v.stop h ≤ nested.childrenStart := Stamp.stop_le_childrenStart hn hd
    rw [stampAll_children (Nat.lt_of_lt_of_le (v.lt_stop h) hbehind)]
    exact (children_congr (ho.agreeFrom.upTo (Form.decode_eq_ok hd).2.2.2.2.2) hbehind).symm
  | @later w depth cursor g hc hp hf ih =>
    -- nothing in the record in front of the stamp has changed
    have hg := hf.bounds.1
    have hp' := hs.parse_earlier hp hg
    have hsame : (ofHeader w limits depth g fun nested _ =>
        children (w.upTo nested.stop) limits (depth + 1) nested.childrenStart).stampAt v h.offset =
          _ :=
      Within.stampAt_eq (within_ofHeader hp fun _ _ => within_children) (.inl hg)
    rw [children_of_framed hc hp, children_of_framed (ho.stop ▸ hc) hp', stampAll, hsame,
      ih ho hw hs, ofHeader_congr hp hp' (hs.agreeFrom_before hg) fun nested hn _ => ?_]
    exact children_congr (hs.agreeFrom_earlier hp hn hg) (Nat.zero_le _)
  | @inside w depth cursor g form hc hp hr hm hd hf ih =>
    -- the form around the stamp is entered in both walks
    have ha := hs.around hw hp hd hf
    have hin := ih (ho.upTo form.stop) ha.limit_lt (hs.upTo form.stop)
    have hrest : stampAll v h.offset (children w limits depth g.stop) = _ :=
      stampAll_children (Nat.lt_of_lt_of_le hlt ha.stop_le)
    rw [children_of_framed hc hp, children_of_framed (ho.stop ▸ hc) ha.parse,
      ofHeader_of_form hr (Nat.not_lt.mpr hm) hd, ofHeader_of_form hr (Nat.not_lt.mpr hm) ha.decode,
      ← children_congr ha.agreeFrom (Nat.le_refl _), hin, stampAll, stampAt, Form.stampAt,
      if_neg (Nat.ne_of_lt ha.offset_lt), hrest]

end Node

/-! ## Walks

A walk gives a callback nothing but events. So the stamp can be moved from the outline to the
callback: what the callback is shown is the same.
-/

namespace Callback

/-- The callback that puts a stamp on the form or option at `offset` before it looks. -/
def stamped (f : Callback σ) (v : Stamp) (offset : Nat) : Callback σ := fun s e =>
  f s (e.stampAt v offset)

/-- What a recorder that does not ask for the stamp would have recorded without it, but stamped. -/
theorem carries_stamped {refusal? : Event → Option Fault}
    (hblind : ∀ e, refusal? (e.stampAt v offset) = refusal? e) :
    (recorder refusal?).Carries ((recorder refusal?).stamped v offset)
      (Array.map (Event.stampAt v offset)) := by
  intro s e
  simp only [stamped, recorder, hblind, Array.map_push, Prod.map, id]

end Callback

namespace Walk

/-- The values of an option are called back with the option, and so with its stamp. -/
theorem numeric_stampAt (f : Callback σ) (tree : Nat) (o : NumericOption) (values : List EnumValue)
    (s : σ) :
    numeric f tree (o.stampAt v offset) values s =
      numeric (f.stamped v offset) tree o values s := by
  obtain ⟨ho, hk, -⟩ : _ ∧ _ ∧ (o.stampAt v offset).values = o.values := o.stampAt_eq
  induction values generalizing s with
  | nil =>
    rw [numeric, numeric, ho, hk]
    rfl
  | cons x xs ih =>
    simp only [numeric, ho, hk, ih]
    rfl

/-- A text line is called back with its stamp. -/
theorem text_stampAt (f : Callback σ) (tree : Nat) (o : TextOption) (s : σ) :
    text f tree (o.stampAt v offset) s = text (f.stamped v offset) tree o s := by
  obtain ⟨ho, hk⟩ : _ ∧ (o.stampAt v offset).kind = o.kind := o.stampAt_eq
  rw [text, text, ho, hk]
  rfl

mutual

/-- **Walks are blind.** A walk through a stamped outline is one through the outline with a callback
that puts the stamp on. -/
theorem node_stampAt (f : Callback σ) (tree : Nat) : ∀ (n : Node) (s : σ),
    node f tree (n.stampAt v offset) s = node (f.stamped v offset) tree n s
  | .form form children, s => by
    rw [Node.stampAt, node, node]
    simp only [nodes_stampAll f tree children, (Form.stampAt_eq form).1]
    rfl
  | .numeric o, s => by
    rw [Node.stampAt, node, node, (NumericOption.stampAt_eq o).2.2, numeric_stampAt]
  | .text o, s => by
    rw [Node.stampAt, node, node, text_stampAt]
  | .unrecognized .., s | .malformed .., s | .torn .., s => by
    rw [Node.stampAt, node, node]

theorem nodes_stampAll (f : Callback σ) (tree : Nat) : ∀ (ns : List Node) (s : σ),
    nodes f tree (Node.stampAll v offset ns) s = nodes (f.stamped v offset) tree ns s
  | [], s => by
    rw [Node.stampAll, nodes, nodes]
  | n :: ns, s => by
    rw [Node.stampAll, nodes, nodes, node_stampAt f tree n]
    simp only [nodes_stampAll f tree ns]

end

/-- A recorder that does not ask for the stamp leaves the same report, and records the same events,
but for the stamp. -/
theorem node_blind {refusal? : Event → Option Fault}
    (hblind : ∀ e, refusal? (e.stampAt v offset) = refusal? e) (tree : Nat) (n : Node)
    (s : Array Event) :
    node (.recorder refusal?) tree (n.stampAt v offset) (s.map (Event.stampAt v offset)) =
      (node (.recorder refusal?) tree n s).map id (Array.map (Event.stampAt v offset)) := by
  rw [node_stampAt]
  exact (node_carried (Callback.carries_stamped hblind) 0 tree n s).trans <|
    congrArg (fun later => Prod.map later _ _) (funext Report.later_zero)

end Walk

end SetupForms
