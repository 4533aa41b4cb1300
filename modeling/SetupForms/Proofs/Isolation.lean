import SetupForms.Blueprint
import SetupForms.Proofs.Agreement
import SetupForms.Proofs.WireOutline

/-!
# Siblings are isolated

Whatever happens to the bytes of one framed record, its size apart, stays in that record: no decoder
of a form around it, of a sibling before it or of one behind it looks inside. Two walks over buffers
that differ only there agree on every callback and every diagnostic of another record
(`Node.walk_outside_eq`).

The induction goes along the way from the root to the record (`Node.Frames`): the record stands at
the cursor, or behind a record at the cursor, or inside of a form there. Each rule leaves the
changed bytes on one side. Either they lie in the record that is compared, whose node shows nothing
outside of its frame, or they lie behind or in front of all that the decoder of the record reads.
-/

namespace SetupForms

variable {w w' : Window} {cursor depth : Nat} {h : Header} {limits : Limits}

/-- The walk from `cursor` on, inside a form at `depth`, frames the record `h`: it stands at the
cursor, behind a framed record, or inside a form that is entered. -/
inductive Node.Frames (limits : Limits) (h : Header) : Window → Nat → Nat → Prop where
  /-- it stands at the cursor -/
  | here {w : Window} {depth cursor : Nat} :
      cursor < w.stop → Header.parse w cursor = .ok h → Frames limits h w depth cursor
  /-- it stands behind the record at the cursor -/
  | later {w : Window} {depth cursor : Nat} {g : Header} :
      cursor < w.stop → Header.parse w cursor = .ok g → Frames limits h w depth g.stop →
      Frames limits h w depth cursor
  /-- it stands in the form at the cursor, which is entered -/
  | inside {w : Window} {depth cursor : Nat} {g : Header} {form : Form} :
      cursor < w.stop → Header.parse w cursor = .ok g → Role.ofTag g.tag = .form →
      depth + 1 ≤ limits.maxDepth → Form.decode w g.offset (depth + 1) = .ok form →
      Frames limits h (w.upTo form.stop) (depth + 1) form.childrenStart →
      Frames limits h w depth cursor

/-- Two windows differ at most inside the frame of `h`, and not in its size. -/
structure Header.Spares (h : Header) (w w' : Window) : Prop where
  /-- they end alike -/
  stop : w.stop = w'.stop
  /-- the buffers are equally long -/
  size : w.bytes.size = w'.bytes.size
  /-- the bytes in front of the frame and behind it are the same -/
  outside : ∀ i, i < h.offset ∨ h.stop ≤ i → w.bytes[i]? = w'.bytes[i]?
  /-- the bytes of the size are the same -/
  sizeField : ∀ i, h.offset + 4 ≤ i → i < h.offset + 8 → w.bytes[i]? = w'.bytes[i]?

namespace Header.Spares

/-- As much can be read in both. -/
theorem limit (hs : h.Spares w w') : w.limit = w'.limit := by
  rw [Window.limit, Window.limit, hs.stop, hs.size]

/-- Windows that differ in the frame still do when both are cut at the same place. -/
theorem upTo (hs : h.Spares w w') (stop : Nat) : h.Spares (w.upTo stop) (w'.upTo stop) :=
  ⟨rfl, hs.size, hs.outside, hs.sizeField⟩

/-- What stands in front of the frame stands there in both windows. -/
theorem holds_before {offset : Nat} {bs : List UInt8} (hs : h.Spares w w')
    (hle : offset + bs.length ≤ h.offset) (hb : w.Holds offset bs) : w'.Holds offset bs := by
  refine ⟨hs.limit ▸ hb.1, fun i hi => ?_⟩
  rw [← hs.outside _ (by omega), hb.2 i hi]

/-- In front of the frame the windows agree. -/
theorem agreeFrom_before {lo stop : Nat} (hs : h.Spares w w') (hle : stop ≤ h.offset) :
    Window.AgreeFrom lo (w.upTo stop) (w'.upTo stop) := by
  refine ⟨rfl, (hs.upTo stop).limit, fun i _ hlt => hs.outside i (.inl ?_)⟩
  have : (w.upTo stop).limit ≤ stop := Nat.min_le_left ..
  omega

/-- Behind the frame the windows agree. -/
theorem agreeFrom_after (hs : h.Spares w w') : Window.AgreeFrom h.stop w w' :=
  ⟨hs.stop, hs.limit, fun i hi _ => hs.outside i (.inr hi)⟩

/-- A header in front of the frame is read alike. -/
theorem parse_before {g : Header} (hs : h.Spares w w') (hp : Header.parse w cursor = .ok g)
    (hle : cursor + Header.length ≤ h.offset) : Header.parse w' cursor = .ok g := by
  obtain ⟨ho, ha, hm, hstop, hb⟩ := Header.parse_eq_ok_iff.mp hp
  refine Header.parse_eq_ok_iff.mpr ⟨ho, ha, hm, hs.limit ▸ hstop, hs.holds_before ?_ hb⟩
  rwa [Header.length_bytes]

/-- The frame itself is found again, perhaps with another tag. -/
theorem parse_here (hs : h.Spares w w') (hp : Header.parse w cursor = .ok h) :
    ∃ h', Header.parse w' cursor = .ok h' ∧ h'.stop = h.stop := by
  obtain ⟨rfl, ha, hm, hstop, hb⟩ := Header.parse_eq_ok_iff.mp hp
  obtain ⟨-, hsize⟩ := Window.holds_append.mp hb
  rw [Bytes.length_ofUInt32] at hsize
  have hlim : h.offset + 4 ≤ w'.limit := by
    rw [← hs.limit]
    simp only [Header.length, Header.stop] at hm hstop
    omega
  obtain ⟨hlen, htag⟩ := Window.holds_extract hlim
  generalize (w'.bytes.extract h.offset (h.offset + 4)).toList = tag at hlen htag
  refine ⟨⟨h.offset, UInt32.ofNat (Bytes.toNat tag), h.size⟩,
    Header.parse_eq_ok_iff.mpr ⟨rfl, ha, hm, hs.limit ▸ hstop, ?_⟩, rfl⟩
  rw [Header.bytes, Window.holds_append, Bytes.length_ofUInt32]
  refine ⟨?_, hs.limit ▸ hsize.1, fun i hi => ?_⟩
  · rw [Bytes.ofUInt32_ofNat hlen]
    exact htag
  · rw [Bytes.length_ofUInt32] at hi
    rw [← hs.sizeField _ (by omega) (by omega), hsize.2 i (by rwa [Bytes.length_ofUInt32])]

/-- A form around the frame is decoded alike, if its children start in front of the frame. -/
theorem decode_before {form : Form} (hs : h.Spares w w') (ha : form.stop < Window.addressSpace)
    (hd : Form.decode w cursor depth = .ok form) (hle : form.childrenStart ≤ h.offset) :
    Form.decode w' cursor depth = .ok form := by
  obtain ⟨ho, hdepth, hcs, hstop, head, hhead, hb⟩ := (Form.decode_eq_ok_iff_head ha).mp hd
  obtain ⟨-, -, -, hstart, -⟩ := id hhead
  refine (Form.decode_eq_ok_iff_head ha).mpr
    ⟨ho, hdepth, hcs, hs.limit ▸ hstop, head, hhead, hs.holds_before (by omega) hb⟩

end Header.Spares

namespace Node

/-- A framed record lies between the cursor and the end of what can be read. -/
theorem Frames.bounds (hf : Frames limits h w depth cursor) :
    cursor ≤ h.offset ∧ h.stop ≤ w.limit := by
  induction hf with
  | here _ hp =>
    obtain ⟨rfl, -, hle, -⟩ := Header.parse_eq_ok hp
    exact ⟨Nat.le_refl _, hle⟩
  | later _ hp _ ih =>
    have := Header.lt_stop_of_parse hp
    omega
  | inside _ hp _ _ hd _ ih =>
    obtain ⟨rfl, -⟩ := Header.parse_eq_ok hp
    obtain ⟨-, -, -, hlow, -, hs⟩ := Form.decode_eq_ok hd
    rw [Window.limit_upTo_of_le hs] at ih
    omega

end Node

namespace Header.Spares

variable {g : Header} {form : Form}

/-- A header is read alike if its record ends in front of the frame. -/
theorem parse_earlier (hs : h.Spares w w') (hp : Header.parse w cursor = .ok g)
    (hg : g.stop ≤ h.offset) : Header.parse w' cursor = .ok g := by
  obtain ⟨ho, hm, -⟩ := Header.parse_eq_ok hp
  refine hs.parse_before hp ?_
  simp only [Header.stop] at hg
  omega

/-- A form that ends in front of the frame holds the same in both windows. -/
theorem agreeFrom_earlier (hs : h.Spares w w') (hp : Header.parse w cursor = .ok g)
    (hd : Form.decode w g.offset depth = .ok form) (hg : g.stop ≤ h.offset) :
    Window.AgreeFrom 0 (w.upTo form.stop) (w'.upTo form.stop) := by
  obtain ⟨ho, -⟩ := Header.parse_eq_ok hp
  have hstop : form.stop = g.stop := Form.stop_of_decode hp (ho ▸ hd)
  exact hs.agreeFrom_before (hstop ▸ hg)

/-- The record `g` at `cursor` is the form `form` in both windows, and the frame of `h` lies inside
of it. -/
structure Around (h g : Header) (form : Form) (w w' : Window) (depth cursor : Nat) : Prop where
  /-- the header is read alike -/
  parse : Header.parse w' cursor = .ok g
  /-- the form is read alike -/
  decode : Form.decode w' g.offset depth = .ok form
  /-- behind the form the windows agree -/
  agreeFrom : Window.AgreeFrom g.stop w w'
  /-- what the form holds can be addressed -/
  limit_lt : (w.upTo form.stop).limit < Window.addressSpace
  /-- the form starts in front of the frame -/
  offset_lt : form.offset < h.offset
  /-- the form does not end inside the frame -/
  stop_le : h.stop ≤ g.stop

/-- A form in which the frame is found is around it. -/
theorem around (hs : h.Spares w w') (hw : w.limit < Window.addressSpace)
    (hp : Header.parse w cursor = .ok g) (hd : Form.decode w g.offset depth = .ok form)
    (hf : Node.Frames limits h (w.upTo form.stop) depth form.childrenStart) :
    Around h g form w w' depth cursor := by
  obtain ⟨hlo, hhi⟩ := hf.bounds
  obtain ⟨ho, -, hgs, -⟩ := Header.parse_eq_ok hp
  obtain ⟨hfo, -, -, hlow, -, hfs⟩ := Form.decode_eq_ok hd
  have hstop : form.stop = g.stop := Form.stop_of_decode hp (ho ▸ hd)
  rw [Window.limit_upTo_of_le hfs] at hhi
  simp only [Layout.formLength, Field.headerLength] at hlow
  have hform : form.stop < Window.addressSpace := by omega
  exact {
    parse := hs.parse_before hp (by omega)
    decode := hs.decode_before hform hd hlo
    agreeFrom := hs.agreeFrom_after.mono (hstop ▸ hhi)
    limit_lt := Nat.lt_of_le_of_lt (Nat.min_le_left ..) hform
    offset_lt := by omega
    stop_le := hstop ▸ hhi
  }

end Header.Spares

/-- Whether an offset lies outside of the frame of `h`. -/
def Header.excludes (h : Header) (offset : Nat) : Bool := offset < h.offset || h.stop ≤ offset

namespace Node

/-- Two rows of nodes show the same of every record outside of the frame of `h`. -/
structure SameOutside (h : Header) (ns ns' : List Node) : Prop where
  /-- the same events -/
  events : (eventsAll ns).filter (h.excludes ·.offset) =
    (eventsAll ns').filter (h.excludes ·.offset)
  /-- the same diagnostics -/
  diagnostics : ∀ tree, (reportAll tree ns).diagnostics.filter (h.excludes ·.offset) =
    (reportAll tree ns').diagnostics.filter (h.excludes ·.offset)

variable {n n' : Node} {ns ns' ms : List Node}

/-- A node in front changes nothing about what the others show. -/
theorem SameOutside.cons (hs : SameOutside h ns ns') : SameOutside h (n :: ns) (n :: ns') := by
  refine ⟨?_, fun tree => ?_⟩
  · rw [eventsAll, eventsAll, List.filter_append, List.filter_append, hs.events]
  · rw [reportAll, reportAll, Report.diagnostics_append, Report.diagnostics_append,
      List.filter_append, List.filter_append, hs.diagnostics]

/-- A form whose contents show the same outside shows the same outside, whatever stands behind it.
-/
theorem SameOutside.form {f : Form} (hs : SameOutside h ns ns') :
    SameOutside h (.form f ns :: ms) (.form f ns' :: ms) := by
  refine ⟨?_, fun tree => ?_⟩
  · simp only [eventsAll, Node.events, List.filter_append, List.filter_cons, hs.events]
  · simp only [reportAll, report, Report.diagnostics_append, List.filter_append, hs.diagnostics]

/-- A node inside the frame shows nothing outside of it. -/
theorem Within.filter_events (hn : n.Within h.offset h.stop) :
    n.events.filter (h.excludes ·.offset) = [] := by
  apply List.filter_eq_nil_iff.mpr
  intro e he
  have := hn.events e he
  simp only [Header.excludes, Bool.or_eq_true, decide_eq_true_eq]
  omega

/-- A node inside the frame notes nothing outside of it. -/
theorem Within.filter_diagnostics (hn : n.Within h.offset h.stop) (tree : Nat) :
    (n.report tree).diagnostics.filter (h.excludes ·.offset) = [] := by
  apply List.filter_eq_nil_iff.mpr
  intro d hd
  have := hn.diagnostics tree d hd
  simp only [Header.excludes, Bool.or_eq_true, decide_eq_true_eq]
  omega

/-- Nodes inside the frame may differ. -/
theorem sameOutside_of_within (hn : n.Within h.offset h.stop) (hn' : n'.Within h.offset h.stop) :
    SameOutside h (n :: ns) (n' :: ns) := by
  refine ⟨?_, fun tree => ?_⟩
  · rw [eventsAll, eventsAll, List.filter_append, List.filter_append, hn.filter_events,
      hn'.filter_events]
  · rw [reportAll, reportAll, Report.diagnostics_append, Report.diagnostics_append,
      List.filter_append, List.filter_append, hn.filter_diagnostics, hn'.filter_diagnostics]

/-- **One level of isolation.** Outlines of windows that differ only inside a framed record show the
same of every other record. -/
theorem sameOutside_children (hf : Frames limits h w depth cursor) (hs : h.Spares w w')
    (hw : w.limit < Window.addressSpace) :
    SameOutside h (children w limits depth cursor) (children w' limits depth cursor) := by
  induction hf generalizing w' with
  | @here w depth cursor hlt hp =>
    obtain ⟨h', hp', hstop⟩ := hs.parse_here hp
    have ho := (Header.parse_eq_ok hp).1
    have ho' := (Header.parse_eq_ok hp').1
    rw [children_of_framed hlt hp, children_of_framed (hs.stop ▸ hlt) hp', hstop,
      children_congr hs.agreeFrom_after (Nat.le_refl _)]
    refine sameOutside_of_within (within_ofHeader hp fun _ _ => within_children) ?_
    have hn' : (ofHeader w' limits depth h' fun nested _ =>
        children (w'.upTo nested.stop) limits (depth + 1) nested.childrenStart).Within
          h'.offset h'.stop := within_ofHeader hp' fun _ _ => within_children
    exact hn'.mono (by omega) (by omega)
  | @later w depth cursor g hlt hp hf ih =>
    -- nothing in the record in front of the frame has changed
    have hg := hf.bounds.1
    have hp' := hs.parse_earlier hp hg
    rw [children_of_framed hlt hp, children_of_framed (hs.stop ▸ hlt) hp',
      ofHeader_congr hp hp' (hs.agreeFrom_before hg) fun nested hn _ => ?_]
    · exact (ih hs hw).cons
    · exact children_congr (hs.agreeFrom_earlier hp hn hg) (Nat.zero_le _)
  | @inside w depth cursor g form hlt hp hr hm hd hf ih =>
    -- the form around the frame is entered in both walks
    have ha := hs.around hw hp hd hf
    rw [children_of_framed hlt hp, children_of_framed (hs.stop ▸ hlt) ha.parse,
      ofHeader_of_form hr (Nat.not_lt.mpr hm) hd, ofHeader_of_form hr (Nat.not_lt.mpr hm) ha.decode,
      children_congr ha.agreeFrom (Nat.le_refl _)]
    exact (ih (hs.upTo form.stop) ha.limit_lt).form

end Node

namespace Tree

/-- The walk of a tree frames the record `h` in a form that it enters. -/
def Frames (limits : Limits) (t : Tree) (h : Header) : Prop :=
  Node.Frames limits h t.window 0 t.root.childrenStart

variable {b b' : Array UInt8} {t : Tree}

/-- The root is read alike. -/
theorem ofBytes_of_spares (ht : ofBytes b = .ok t) (hf : t.Frames limits h)
    (hs : h.Spares (.ofBytes b) (.ofBytes b')) : ofBytes b' = .ok ⟨b', t.root⟩ := by
  have ha := stop_lt_addressSpace ht
  obtain ⟨rfl, hd⟩ := ofBytes_eq_ok_iff.mp ht
  exact ofBytes_eq_ok_iff.mpr ⟨rfl, hs.decode_before ha hd hf.bounds.1⟩

/-- **Siblings are isolated.** Let a walk frame the record `h` in a form that it enters, and let
another buffer of the same length differ at most inside the frame of `h`, its size apart. Then the
other buffer is a tree with the same root, and the two walks agree, in content and in order, on the
callbacks and on the diagnostics of all records outside of the frame. -/
theorem walk_outside_eq (index : Nat) (ht : ofBytes b = .ok t) (hf : t.Frames limits h)
    (hsize : b'.size = b.size) (hout : ∀ i, h.excludes i = true → b'[i]? = b[i]?)
    (hfield : ∀ i, h.offset + 4 ≤ i → i < h.offset + 8 → b'[i]? = b[i]?) :
    ∃ t', ofBytes b' = .ok t' ∧ t'.root = t.root ∧
      let walk := fun u => Walk.tree (Callback.recorder fun _ => none) limits index u #[]
      (walk t').2.toList.filter (h.excludes ·.offset) =
        (walk t).2.toList.filter (h.excludes ·.offset) ∧
      (walk t').1.diagnostics.filter (h.excludes ·.offset) =
        (walk t).1.diagnostics.filter (h.excludes ·.offset) := by
  have hs : h.Spares (.ofBytes b) (.ofBytes b') := by
    refine ⟨hsize.symm, hsize.symm, fun i hi => (hout i ?_).symm, fun i hlo hhi =>
      (hfield i hlo hhi).symm⟩
    simpa only [Header.excludes, Bool.or_eq_true, decide_eq_true_eq] using hi
  have hw : t.window.limit < Window.addressSpace := by
    rw [limit_window ht]
    exact stop_lt_addressSpace ht
  refine ⟨⟨b', t.root⟩, ofBytes_of_spares ht hf hs, rfl, ?_⟩
  obtain ⟨rfl, -⟩ := ofBytes_eq_ok_iff.mp ht
  have hsame : Node.SameOutside h [Node.ofTree limits t] [Node.ofTree limits ⟨b', t.root⟩] :=
    (Node.sameOutside_children hf (hs.upTo t.root.stop) hw).form
  have hevents := hsame.events
  have hdiagnostics := hsame.diagnostics index
  simp only [Node.eventsAll, List.append_nil] at hevents
  simp only [Node.reportAll, Report.append_nil] at hdiagnostics
  simp only [Walk.tree_of_willing Callback.willing_recorder, Callback.feed_recorder]
  simp only [Array.empty_append, hevents, hdiagnostics, and_self]

/-- A tree of two numbers, the first of which stands at 45. -/
def twoNumbers : Tree where
  bytes := (Blueprint.encode <| .form ⟨1, 0, ⟨0⟩⟩ (some (.text .label "Boot"))
    [.option (.numeric .number ⟨2, 0, ⟨0⟩⟩ "a" "A" 7),
      .option (.numeric .number ⟨3, 0, ⟨0⟩⟩ "b" "B" 8)] none).toArray
  root := ⟨0, 165, ⟨1, 0, ⟨0⟩⟩, "Boot", 0, 45, 165⟩

/-- The tag of the first number becomes that of a form. -/
theorem walk_outside_eq_twoNumbers :
    ∃ t', ofBytes (twoNumbers.bytes.setIfInBounds 45 0x01) = .ok t' ∧ t'.root = twoNumbers.root ∧
      let walk := fun u => Walk.tree (Callback.recorder fun _ => none) {} 0 u #[]
      let h : Header := ⟨45, 0x0104, 60⟩
      (walk t').2.toList.filter (h.excludes ·.offset) =
        (walk twoNumbers).2.toList.filter (h.excludes ·.offset) ∧
      (walk t').1.diagnostics.filter (h.excludes ·.offset) =
        (walk twoNumbers).1.diagnostics.filter (h.excludes ·.offset) := by
  apply walk_outside_eq 0
  · exact ofBytes_eq_ok_iff.mpr ⟨rfl, toOption_eq_some_iff.mp (by decide +kernel)⟩
  · exact .here (by decide +kernel) (toOption_eq_some_iff.mp (by decide +kernel))
  · exact Array.size_setIfInBounds
  · intro i hi
    apply Array.getElem?_setIfInBounds_ne
    rintro rfl
    exact absurd hi (by decide)
  · intro i hlo hhi
    apply Array.getElem?_setIfInBounds_ne
    simp only at hlo
    omega

end Tree

end SetupForms
