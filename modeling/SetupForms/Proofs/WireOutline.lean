import SetupForms.Proofs.OutlineNode
import SetupForms.Proofs.WireOption

/-!
# Outlines on the wire

`Node.Spells` says which bytes spell a node, a form with everything it holds included; only nodes
that a walk calls back are spelled at all. Where nodes are spelled up to the end of a window, the
outline lists just them (`Node.children_of_spellAll`), and an outline without a fault is spelled
where it was read (`Node.exists_of_children`).

Both directions are an induction. From bytes to outline it is on the row of nodes, each of which is
framed where it stands, so that the outline goes on behind it. From outline to bytes it is on the
outline itself: a record whose node notes nothing has decoded, and what decodes is spelled.
-/

namespace SetupForms

open Blueprint Text

variable {w : Window} {cursor : Nat} {h : Header} {limits : Limits} {depth : Nat}

/-! ## Forms around their children

The head of a form does not say what the form holds. `SpellsAround` puts some bytes into a form
without asking what they are, which is what strays need as well.
-/

namespace Form

/-- The bytes `bs` spell the form around the spelling `inner` of its children. -/
def SpellsAround (form : Form) (inner bs : List UInt8) : Prop :=
  ∃ label, Field.IsText Kind.label.tag form.name label ∧
    IsRecord Kind.form.tag form.size (encodeFields form.fields ++ label ++ inner) bs ∧
    form.childrenStart = form.offset + Layout.formLength + label.length ∧
    form.stop = form.offset + bs.length

/-- A form ends where its bytes end, and what it holds fills it. -/
theorem SpellsAround.stop_eq {form : Form} {inner bs : List UInt8}
    (hs : form.SpellsAround inner bs) :
    form.stop = form.offset + bs.length ∧ form.childrenStart + inner.length = form.stop := by
  obtain ⟨label, -, hrec, hstart, hstop⟩ := hs
  have hl := hrec.length_eq
  simp only [List.length_append, length_encodeFields] at hl
  simp only [Layout.formLength, Header.length] at hstart hl
  omega

/-- A form is decoded where it is spelled, and what it holds stands in its window. -/
theorem decode_of_spellsAround {form : Form} {inner bs : List UInt8}
    (hs : form.SpellsAround inner bs) (hb : w.Holds form.offset bs)
    (ha : form.offset + bs.length < Window.addressSpace) :
    (∃ h, Header.parse w form.offset = .ok h ∧ h.offset = form.offset ∧ h.stop = form.stop ∧
      h.tag = Kind.form.tag) ∧
    decode w form.offset form.depth = .ok form ∧
    (w.upTo form.stop).Holds form.childrenStart inner := by
  obtain ⟨hend, hfill⟩ := hs.stop_eq
  obtain ⟨label, ht, hrec, hstart, hstop⟩ := hs
  obtain ⟨h, hp, ho, htag, -, hhs, -, hbody⟩ := Header.exists_of_record hrec hb ha
  obtain ⟨rfl, hsize⟩ := hrec
  have hle := hb.1
  rw [← hstop] at ha hle hhs
  -- the head is what stands in front of what the form holds
  have hhead : form.SpellsHead (Bytes.ofUInt32 Kind.form.tag ++ Bytes.ofUInt32 form.size ++
      (encodeFields form.fields ++ label)) := by
    refine ⟨label, ht, rfl, ?_, by rw [hstop, hsize]⟩
    rw [hstart]
    simp only [Layout.formLength, Header.length, List.length_append, Bytes.length_ofUInt32,
      length_encodeFields]
    omega
  refine ⟨⟨h, hp, ho, hhs, htag⟩, (decode_eq_ok_iff_head ha).mpr
    ⟨rfl, rfl, by omega, hle, _, hhead, ?_⟩, ?_⟩
  · rw [← List.append_assoc] at hb
    exact (Window.holds_append.mp hb).1
  · rw [hhs, Window.holds_append, List.length_append, length_encodeFields] at hbody
    have hx : form.childrenStart = form.offset + Header.length + (20 + label.length) := by
      rw [hstart]
      simp only [Layout.formLength, Header.length]
      omega
    rw [hx]
    exact hbody.2

/-- A decoded form is spelled around whatever fills its window behind the label. -/
theorem exists_spellsAround {form : Form} {inner : List UInt8}
    (hd : decode w cursor depth = .ok form) (ha : form.stop < Window.addressSpace)
    (hb : (w.upTo form.stop).Holds form.childrenStart inner)
    (hfill : form.childrenStart + inner.length = form.stop) :
    ∃ bs, form.SpellsAround inner bs ∧ w.Holds cursor bs ∧ form.stop = cursor + bs.length := by
  obtain ⟨rfl, -, -, hle, head, ⟨label, ht, rfl, hstart, hstop⟩, hhead⟩ :=
    (decode_eq_ok_iff_head ha).mp hd
  have hall := Window.holds_append.mpr ⟨hhead, hstart ▸ ((Window.holds_upTo_iff hle).mp hb).2⟩
  simp only [List.length_append, Bytes.length_ofUInt32, length_encodeFields] at hstart
  refine ⟨_, ⟨label, ht, ⟨List.append_assoc .., ?_⟩, ?_, ?_⟩, hall, ?_⟩ <;>
    simp only [List.length_append, Bytes.length_ofUInt32, length_encodeFields, Layout.formLength,
      Header.length] <;> omega

end Form

namespace Node

/-- Where the record of a node starts. -/
def offset : Node → Nat
  | form f _ => f.offset
  | numeric o => o.offset
  | text o => o.offset
  | unrecognized offset _ | malformed offset _ _ | torn offset _ _ => offset

mutual

/-- The bytes `bs` spell the node, which stands at `depth`. -/
def Spells (limits : Limits) (depth : Nat) : Node → List UInt8 → Prop
  | form f children, bs =>
    f.depth = depth ∧ depth ≤ limits.maxDepth ∧
      ∃ inner, SpellAll limits (depth + 1) f.childrenStart children inner ∧ f.SpellsAround inner bs
  | numeric o, bs => o.Spells bs
  | text o, bs => o.Spells limits bs
  | unrecognized .., _ | malformed .., _ | torn .., _ => False

/-- The bytes `bs` spell the nodes one after the other, the first of them at `cursor`. -/
def SpellAll (limits : Limits) (depth : Nat) : Nat → List Node → List UInt8 → Prop
  | _, [], bs => bs = []
  | cursor, n :: ns, bs =>
    ∃ a b, bs = a ++ b ∧ n.offset = cursor ∧ Spells limits depth n a ∧
      SpellAll limits depth (cursor + a.length) ns b

end

mutual

/-- The record of a spelled node is framed where it stands, and the outline shows the node. -/
theorem ofHeader_of_spells : ∀ {n : Node} {w : Window} {depth : Nat} {bs : List UInt8},
    n.Spells limits (depth + 1) bs → w.Holds n.offset bs →
    n.offset + bs.length < Window.addressSpace →
    ∃ h, Header.parse w n.offset = .ok h ∧ h.stop = n.offset + bs.length ∧
      ofHeader w limits depth h (fun nested _ =>
        children (w.upTo nested.stop) limits (depth + 1) nested.childrenStart) = n
  | form f ns, w, depth, bs, ⟨hdepth, hmax, inner, hall, hs⟩, hb, ha => by
    obtain ⟨hend, hfill⟩ := hs.stop_eq
    obtain ⟨⟨h, hp, ho, hstop, htag⟩, hd, hin⟩ := Form.decode_of_spellsAround hs hb ha
    rw [hdepth, ← ho] at hd
    have hr : Role.ofTag h.tag = .form := by
      rw [htag]
      exact Role.ofTag_form
    refine ⟨h, hp, hstop.trans hend, ?_⟩
    -- the children fill the window of the form, so the outline of that window lists them
    rw [ofHeader_of_form hr (Nat.not_lt.mpr hmax) hd]
    exact congrArg (form f) (children_of_spellAll hall hin
      (Nat.lt_of_le_of_lt (Nat.min_le_left ..) (hend ▸ ha)) hfill)
  | numeric o, w, depth, bs, hs, hb, ha => by
    obtain ⟨h, hp, ho, hstop, htag, hd⟩ := NumericOption.decode_of_spells hs hb ha
    refine ⟨h, hp, hstop, ?_⟩
    rw [ofHeader_of_numeric (Role.ofTag_eq_numeric_iff.mpr htag), hd]
    rfl
  | text o, w, depth, bs, hs, hb, ha => by
    obtain ⟨h, hp, ho, hstop, htag, hd⟩ := TextOption.decode_of_spells hs hb ha
    refine ⟨h, hp, hstop, ?_⟩
    rw [ofHeader_of_text (Role.ofTag_eq_text_iff.mpr htag), hd]
    rfl

/-- Where nodes are spelled up to the end of a window, the outline lists just them. -/
theorem children_of_spellAll : ∀ {ns : List Node} {w : Window} {depth cursor : Nat}
    {bs : List UInt8}, SpellAll limits (depth + 1) cursor ns bs → w.Holds cursor bs →
    w.limit < Window.addressSpace → cursor + bs.length = w.stop →
    children w limits depth cursor = ns
  | [], w, depth, cursor, bs, hs, hb, hw, hend => by
    obtain rfl : bs = [] := hs
    exact children_of_le (by simp only [List.length_nil] at hend; omega)
  | n :: ns, w, depth, cursor, bs, ⟨a, b, hab, ho, hs, hall⟩, hb, hw, hend => by
    obtain rfl := hab
    obtain rfl := ho
    have hle := hb.1
    rw [List.length_append] at hle hend
    obtain ⟨ha, hb⟩ := Window.holds_append.mp hb
    obtain ⟨h, hp, hstop, hn⟩ := ofHeader_of_spells hs ha (by omega)
    have hlt := Header.lt_stop_of_parse hp
    rw [children_of_framed (by omega) hp, hn, hstop,
      children_of_spellAll hall hb hw (by omega)]

end

/-- Whether a walk through a node leaves no diagnostic. -/
def Clean (tree : Nat) (n : Node) : Prop := (n.report tree).diagnostics = []

variable {tree : Nat}

theorem not_clean_malformed {offset : Nat} {tag : UInt32} {f : Fault} :
    ¬(malformed offset tag f).Clean tree := List.cons_ne_nil _ _

mutual

/-- A spelled node leaves no diagnostic. -/
theorem clean_of_spells : ∀ {n : Node} {depth : Nat} {bs : List UInt8},
    n.Spells limits depth bs → n.Clean tree
  | form f ns, depth, bs, ⟨_, _, inner, hall, _⟩ => by
    rw [Clean, report, Report.diagnostics_append, clean_of_spellAll hall]
    rfl
  | numeric _, _, _, _ | text _, _, _, _ => rfl

theorem clean_of_spellAll : ∀ {ns : List Node} {depth cursor : Nat} {bs : List UInt8},
    SpellAll limits depth cursor ns bs → (reportAll tree ns).diagnostics = []
  | [], _, _, _, _ => rfl
  | n :: ns, depth, cursor, bs, ⟨a, b, _, _, hs, hall⟩ => by
    rw [reportAll, Report.diagnostics_append, clean_of_spells hs, clean_of_spellAll hall]
    rfl

end

theorem Clean.of_form {form : Form} {ns : List Node} (hc : (Node.form form ns).Clean tree) :
    ∀ n ∈ ns, n.Clean tree := by
  intro n hn
  apply List.eq_nil_iff_forall_not_mem.mpr
  intro d hd
  rw [Clean, report, Report.diagnostics_append, List.nil_append] at hc
  exact List.not_mem_nil (hc ▸ mem_diagnostics_reportAll.mpr ⟨n, hn, hd⟩)

/-- A framed record whose node is clean is spelled there, if what a nested form holds is. -/
theorem exists_of_ofHeader {inside : (nested : Form) →
      Form.decode w h.offset (depth + 1) = .ok nested → List Node}
    (hp : Header.parse w cursor = .ok h) (ha : w.limit < Window.addressSpace)
    (hin : ∀ nested hd, (∀ n ∈ inside nested hd, n.Clean tree) →
      ∃ bs, SpellAll limits (depth + 2) nested.childrenStart (inside nested hd) bs ∧
        (w.upTo nested.stop).Holds nested.childrenStart bs ∧
        nested.childrenStart + bs.length = nested.stop)
    (hc : (ofHeader w limits depth h inside).Clean tree) :
    (ofHeader w limits depth h inside).offset = cursor ∧
      ∃ bs, (ofHeader w limits depth h inside).Spells limits (depth + 1) bs ∧
        w.Holds cursor bs ∧ h.stop = cursor + bs.length := by
  have hle := (Header.parse_eq_ok hp).2.2.1
  cases hr : Role.ofTag h.tag with
  | form =>
    by_cases hm : limits.maxDepth < depth + 1
    · rw [ofHeader_of_tooDeep hr hm] at hc
      exact absurd hc not_clean_malformed
    cases hd : Form.decode w h.offset (depth + 1) with
    | error f =>
      rw [ofHeader_of_badForm hr hm hd] at hc
      exact absurd hc not_clean_malformed
    | ok form =>
      -- a clean form holds clean nodes, which are spelled up to its end
      rw [ofHeader_of_form hr hm hd] at hc ⊢
      obtain ⟨inner, hall, hinner, hfill⟩ := hin form hd hc.of_form
      obtain ⟨ho, hdepth, -, -, -, hs⟩ := Form.decode_eq_ok hd
      obtain ⟨bs, hsp, hb, hstop⟩ := Form.exists_spellsAround hd (by omega) hinner hfill
      obtain rfl := (Header.parse_eq_ok hp).1
      exact ⟨ho, bs, ⟨hdepth, Nat.le_of_not_lt hm, inner, hall, hsp⟩, hb,
        (Form.stop_of_decode hp hd).symm.trans hstop⟩
  | numeric kind =>
    rw [ofHeader_of_numeric hr] at hc ⊢
    cases hd : NumericOption.decode w h kind with
    | error f =>
      rw [hd] at hc
      exact absurd hc not_clean_malformed
    | ok o =>
      obtain ⟨ho, -, hs⟩ := NumericOption.exists_of_decode hp (by omega)
        (Role.ofTag_eq_numeric_iff.mp hr) hd
      exact ⟨ho, hs⟩
  | text kind =>
    rw [ofHeader_of_text hr] at hc ⊢
    cases hd : TextOption.decode w h kind limits with
    | error f =>
      rw [hd] at hc
      exact absurd hc not_clean_malformed
    | ok o =>
      obtain ⟨ho, -, hs⟩ := TextOption.exists_of_decode hp (by omega)
        (Role.ofTag_eq_text_iff.mp hr) hd
      exact ⟨ho, hs⟩
  | unrecognized =>
    rw [ofHeader_of_unrecognized hr] at hc
    exact absurd hc (List.cons_ne_nil _ _)

/-- An outline of clean nodes is spelled where it was read, up to the end of the window. -/
theorem exists_of_children (hw : w.limit < Window.addressSpace) (hl : w.limit = w.stop)
    (hcur : cursor ≤ w.limit) (hc : ∀ n ∈ children w limits depth cursor, n.Clean tree) :
    ∃ bs, SpellAll limits (depth + 1) cursor (children w limits depth cursor) bs ∧
      w.Holds cursor bs ∧ cursor + bs.length = w.stop := by
  fun_induction children w limits depth cursor with
  | case1 w depth cursor hlt f hp =>
    exact absurd (hc _ (List.mem_singleton.mpr rfl)) (List.cons_ne_nil _ _)
  | case2 w depth cursor hlt h hp ihin ihrest =>
    have hle := (Header.parse_eq_ok hp).2.2.1
    -- the record at the cursor is spelled, and what follows it is spelled behind it
    obtain ⟨ho, a, hs, ha, hstop⟩ := exists_of_ofHeader hp hw (fun nested hd hcn => by
      obtain ⟨-, -, -, -, hcs, hns⟩ := Form.decode_eq_ok hd
      have hlim : (w.upTo nested.stop).limit = nested.stop := Window.limit_upTo_of_le hns
      exact ihin nested hd (by omega) hlim (by omega) hcn)
      (hc _ List.mem_cons_self)
    obtain ⟨b, hall, hb, hend⟩ := ihrest hw hl hle fun n hn => hc n (List.mem_cons_of_mem _ hn)
    rw [hstop] at hall hb hend
    refine ⟨a ++ b, ⟨a, b, rfl, ho, hs, hstop ▸ hall⟩, Window.holds_append.mpr ⟨ha, hb⟩, ?_⟩
    rw [List.length_append]
    omega
  | case3 w depth cursor hge =>
    exact ⟨[], rfl, Window.holds_nil hcur, by simp only [List.length_nil]; omega⟩

end Node

/-! ## Trees

A tree is a form at the start of a buffer, and nothing is asked of what stands behind it.
-/

namespace Tree

variable {bytes : Array UInt8} {t : Tree}

/-- A root ends well inside the address space, since its size is a 32-bit word. -/
theorem stop_lt_addressSpace (ht : ofBytes bytes = .ok t) :
    t.root.stop < Window.addressSpace := by
  obtain ⟨-, hd⟩ := ofBytes_eq_ok_iff.mp ht
  obtain ⟨-, -, hs, -⟩ := Form.decode_eq_ok hd
  have := t.root.size.toNat_lt
  simp only [Window.addressSpace]
  omega

/-- The window of a tree ends with its root. -/
theorem limit_window (ht : ofBytes bytes = .ok t) : t.window.limit = t.root.stop := by
  obtain ⟨hb, hd⟩ := ofBytes_eq_ok_iff.mp ht
  obtain ⟨-, -, -, -, -, hle⟩ := Form.decode_eq_ok hd
  rw [Window.limit_ofBytes, ← hb] at hle
  exact Nat.min_eq_left hle

/-- A buffer that starts with a form spelled around some bytes is a tree, and these bytes stand in
its window. -/
theorem ofBytes_of_spellsAround {root : Form} {inner bs : List UInt8}
    (hs : root.SpellsAround inner bs) (ho : root.offset = 0) (hdepth : root.depth = 0)
    (hb : bs <+: bytes.toList) :
    ofBytes bytes = .ok ⟨bytes, root⟩ ∧
      (⟨bytes, root⟩ : Tree).window.Holds root.childrenStart inner ∧ root.stop = bs.length := by
  have hlt : bs.length < Window.addressSpace := by
    obtain ⟨label, -, ⟨-, hsize⟩, -⟩ := hs
    have := root.size.toNat_lt
    simp only [Window.addressSpace]
    omega
  obtain ⟨hend, -⟩ := hs.stop_eq
  rw [ho, Nat.zero_add] at hend
  have hh : (Window.ofBytes bytes).Holds root.offset bs := by
    rw [ho]
    exact Window.holds_ofBytes_iff.mpr hb
  obtain ⟨-, hd, hin⟩ := Form.decode_of_spellsAround hs hh (by omega)
  rw [ho, hdepth] at hd
  exact ⟨ofBytes_eq_ok_iff.mpr ⟨rfl, hd⟩, hin, hend⟩

/-- A buffer that starts with a spelled form is a tree with the outline that is spelled. -/
theorem ofBytes_of_spells {root : Form} {ns : List Node} {bs : List UInt8}
    (hs : (Node.form root ns).Spells limits 0 bs) (ho : root.offset = 0)
    (hb : bs <+: bytes.toList) :
    ofBytes bytes = .ok ⟨bytes, root⟩ ∧ Node.ofTree limits ⟨bytes, root⟩ = .form root ns ∧
      root.stop = bs.length := by
  obtain ⟨hdepth, -, inner, hall, hs⟩ := hs
  obtain ⟨ht, hin, hend⟩ := ofBytes_of_spellsAround hs ho hdepth hb
  refine ⟨ht, congrArg (Node.form root) ?_, hend⟩
  refine Node.children_of_spellAll hall hin ?_ hs.stop_eq.2
  exact Nat.lt_of_le_of_lt (Nat.min_le_left ..) (stop_lt_addressSpace ht)

/-- A tree with a clean outline starts with a spelling of it. -/
theorem exists_of_ofBytes (ht : ofBytes bytes = .ok t) {tree : Nat}
    (hc : (Node.ofTree limits t).Clean tree) :
    ∃ bs, (Node.ofTree limits t).Spells limits 0 bs ∧ bs <+: bytes.toList := by
  have ha := stop_lt_addressSpace ht
  have hl := limit_window ht
  obtain ⟨hb, hd⟩ := ofBytes_eq_ok_iff.mp ht
  obtain ⟨-, hdepth, -, -, hcs, -⟩ := Form.decode_eq_ok hd
  obtain ⟨inner, hall, hinner, hfill⟩ := Node.exists_of_children (by rwa [hl]) hl (by rwa [hl])
    hc.of_form
  obtain ⟨bs, hs, hh, -⟩ := Form.exists_spellsAround hd ha (hb ▸ hinner) hfill
  exact ⟨bs, ⟨hdepth, Nat.zero_le _, inner, hall, hs⟩, Window.holds_ofBytes_iff.mp hh⟩

end Tree

end SetupForms
