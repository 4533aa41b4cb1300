import SetupForms.Proofs.Accounting
import SetupForms.Proofs.Refusals
import SetupForms.Proofs.Rounds

/-!
# Work is bounded by the input

However sizes and nesting are chosen, a walk counts at most one item for every eight bytes of the
root, and enters no form deeper than one level for every forty bytes. Items are charged to the bytes
of their own records: `Node.weight` is what a node can be counted for, whatever the callback does
(`Walk.total_node_le`), and a form pays for its refusal at the exit and for its torn tail with its
fixed part (`Node.weight_children_le`). The depth follows from where forms start
(`Node.shallow_children`). `Tree.walk_bounded` puts this together with the bounds on the rounds.
-/

namespace SetupForms

universe u

variable {σ : Type u} {w : Window} {cursor depth tree : Nat} {h : Header} {limits : Limits}

/-- How many items a report counts. -/
def Report.total (r : Report) : Nat := r.forms + r.options + r.enumValues + r.skipped

@[simp] theorem Report.total_append (a b : Report) : (a ++ b).total = a.total + b.total := by
  simp only [total, forms_append, options_append, enumValues_append, skipped_append]
  omega

@[simp] theorem Report.total_rejected {offset : Nat} {tag : UInt32} {fault : Fault} :
    (Walk.rejected tree offset tag fault).total = 1 := rfl

/-! ## What is counted

A refusal can only make a report smaller, because whatever is refused counts as one skipped record
in place of what it would have led to. The one exception is the exit of a form, whose refusal comes
on top: the form has been counted, and so has all that it holds.
-/

namespace Node

mutual

/-- The most that a node can be counted for: a form for its entry and for a refusal of its exit. -/
def weight : Node → Nat
  | form _ children => 2 + weightAll children
  | numeric o => 1 + o.values.length
  | text _ | unrecognized .. | malformed .. | torn .. => 1

/-- The most that nodes can be counted for. -/
def weightAll : List Node → Nat
  | [] => 0
  | n :: ns => weight n + weightAll ns

end

end Node

namespace Walk

variable {f : Callback σ}

/-- An option with values is counted for each value that is taken, and once more. -/
theorem total_numeric_le (o : NumericOption) (values : List EnumValue) (s : σ) :
    (numeric f tree o values s).1.total ≤ 1 + values.length := by
  induction values generalizing s with
  | nil =>
    rw [numeric]
    rcases f s (.numeric o) with ⟨_ | _, s'⟩ <;> exact Nat.le_refl 1
  | cons v values ih =>
    rw [numeric]
    rcases f s (.value o v) with ⟨_ | _, s'⟩
    · exact Nat.le_add_right ..
    · have hrest := ih s'
      have hone : ({ enumValues := 1 } : Report).total = 1 := rfl
      simp only [Report.total_append, hone, List.length_cons]
      omega

/-- A text line is counted once, as an option or as skipped. -/
theorem total_text (o : TextOption) (s : σ) : (text f tree o s).1.total = 1 := by
  rw [text]
  rcases f s (.text o) with ⟨_ | _, s'⟩ <;> rfl

mutual

/-- Whatever the callback does, a node is counted for no more than its weight. -/
theorem total_node_le : ∀ (n : Node) (s : σ), (node f tree n s).1.total ≤ n.weight
  | .form form children, s => by
    have hone : ({ forms := 1 } : Report).total = 1 := rfl
    rw [node, Node.weight]
    rcases f s (.enter form) with ⟨_ | _, s'⟩
    · simp only [Report.total_rejected]
      omega
    · -- the form is entered: two items are for the form, one of them if its exit is refused
      have hin := total_nodes_le children s'
      rcases hx : f (nodes f tree children s').2 (.exit form) with ⟨_ | _, s''⟩ <;>
      · simp only [hx, Report.total_append, Report.total_rejected, hone]
        omega
  | .numeric o, s => by
    rw [node]
    exact total_numeric_le o o.values s
  | .text o, s => by
    rw [node, total_text]
    exact Nat.le_refl 1
  | .unrecognized .., s | .malformed .., s | .torn .., s => by
    rw [node]
    exact Nat.le_refl 1

theorem total_nodes_le :
    ∀ (ns : List Node) (s : σ), (nodes f tree ns s).1.total ≤ Node.weightAll ns
  | [], s => by
    rw [nodes]
    exact Nat.le_refl 0
  | n :: ns, s => by
    have hfirst := total_node_le n s
    have hrest := total_nodes_le ns (node f tree n s).2
    rw [nodes, Node.weightAll]
    simp only [Report.total_append]
    omega

end

end Walk

/-! ## What the bytes pay for

A record takes at least eight bytes, its header, and so it can pay for one item. Two things cost
more than their own record has. A form may cost two, and a tail that cannot be read is noted
although it need not have eight bytes left. The fixed part of the form around it pays for both, for
it is longer than three headers.
-/

/-- Each value pays for itself. -/
theorem EnumValue.length_le_of_tile {vs : List EnumValue} (ht : Tile w cursor vs) :
    cursor + 8 * vs.length ≤ w.stop := by
  induction vs generalizing cursor with
  | nil =>
    have : cursor = w.stop := ht
    simp only [List.length_nil]
    omega
  | cons v vs ih =>
    obtain ⟨-, next, ⟨h, hp, -, rfl⟩, ht⟩ := ht
    obtain ⟨rfl, hm, -⟩ := Header.parse_eq_ok hp
    have hrest := ih ht
    simp only [Header.length] at hm
    simp only [Header.stop] at hrest
    simp only [List.length_cons]
    omega

/-- An option pays for itself and its values. -/
theorem NumericOption.weight_le_of_decode {o : NumericOption} {kind : NumericKind}
    (hd : decode w h kind = .ok o) : 8 * (1 + o.values.length) ≤ h.size.toNat := by
  obtain ⟨⟨start, htexts, htile⟩, -⟩ := tiled_of_decode hd
  have hstart := htexts.le
  have hvalues := EnumValue.length_le_of_tile htile
  simp only [Layout.numericLength, Layout.formLength, Header.length] at hstart
  simp only [Header.stop] at hvalues
  omega

namespace Node

/-- A framed record pays for its node. What a nested form holds may cost eight bytes more than it
has, for a torn tail, and the fixed part of the form pays for these. -/
theorem weight_ofHeader_le {inside : (nested : Form) →
      Form.decode w h.offset (depth + 1) = .ok nested → List Node}
    (hp : Header.parse w cursor = .ok h)
    (hin : ∀ nested hd, 8 * weightAll (inside nested hd) ≤ nested.stop - nested.childrenStart + 8) :
    8 * (ofHeader w limits depth h inside).weight ≤ h.size.toNat := by
  obtain ⟨rfl, hm, -⟩ := Header.parse_eq_ok hp
  have hone : 8 * 1 ≤ h.size.toNat := hm
  cases hr : Role.ofTag h.tag with
  | form =>
    by_cases hmax : limits.maxDepth < depth + 1
    · rw [ofHeader_of_tooDeep hr hmax]
      exact hone
    cases hd : Form.decode w h.offset (depth + 1) with
    | error f =>
      rw [ofHeader_of_badForm hr hmax hd]
      exact hone
    | ok nested =>
      have hinside := hin nested hd
      obtain ⟨-, -, -, hlow, hhigh, -⟩ := Form.decode_eq_ok hd
      have hstop := Form.stop_of_decode hp hd
      simp only [Header.stop, Layout.formLength, Field.headerLength, Header.length] at hlow hstop
      rw [ofHeader_of_form hr hmax hd, weight]
      omega
  | numeric kind =>
    rw [ofHeader_of_numeric hr]
    cases hd : NumericOption.decode w h kind with
    | error f => exact hone
    | ok o => exact NumericOption.weight_le_of_decode hd
  | text kind =>
    rw [ofHeader_of_text hr]
    cases hd : TextOption.decode w h kind limits <;> exact hone
  | unrecognized =>
    rw [ofHeader_of_unrecognized hr]
    exact hone

/-- What a form holds is paid for but for a torn tail. -/
theorem weight_children_le :
    8 * weightAll (children w limits depth cursor) ≤ w.stop - cursor + 8 := by
  fun_induction children w limits depth cursor with
  | case1 w depth cursor hlt f hp =>
    -- the torn tail is the debt of eight bytes in the statement
    simp only [weightAll, weight]
    omega
  | case2 w depth cursor hlt h hp ihin ihrest =>
    have hfirst : 8 * weight (ofHeader w limits depth h _) ≤ h.size.toNat :=
      weight_ofHeader_le hp ihin
    obtain ⟨rfl, -, hs, -⟩ := Header.parse_eq_ok hp
    have hw : w.limit ≤ w.stop := Nat.min_le_left ..
    rw [weightAll]
    simp only [Header.stop] at hs ihrest ⊢
    omega
  | case3 w depth cursor hge => exact Nat.zero_le _

/-! ## How deep forms lie

A form starts behind the fixed part and the label of the form around it, which take at least forty
bytes. The statement is about the offset, not about the size: a level costs forty bytes that lie in
front of whatever is found on it.
-/

/-- Forms are entered no deeper than the limit, and each level costs forty bytes before `stop`. -/
def Shallow (limits : Limits) (stop : Nat) (n : Node) : Prop :=
  ∀ form, .enter form ∈ n.events → form.depth ≤ limits.maxDepth ∧ 40 * form.depth ≤ stop

/-- What is shallow with respect to an end is so with respect to a later one. -/
theorem Shallow.mono {stop stop' : Nat} {n : Node} (hn : n.Shallow limits stop)
    (hle : stop ≤ stop') : n.Shallow limits stop' := by
  intro form hform
  obtain ⟨hmax, hstop⟩ := hn form hform
  exact ⟨hmax, Nat.le_trans hstop hle⟩

/-- A form is as shallow as what it holds. -/
theorem shallow_form {form : Form} {ns : List Node} {stop : Nat}
    (hmax : form.depth ≤ limits.maxDepth) (hstop : 40 * form.depth ≤ stop)
    (hin : ∀ n ∈ ns, n.Shallow limits stop) : (Node.form form ns).Shallow limits stop := by
  intro g hg
  rw [events, List.mem_cons, List.mem_append, mem_eventsAll] at hg
  rcases hg with heq | ⟨n, hn, hg⟩ | hg
  · cases heq
    exact ⟨hmax, hstop⟩
  · exact hin n hn g hg
  · cases List.mem_singleton.mp hg

/-- Where forty bytes lie in front of the cursor for each level, so they do in front of the children
of a nested form. -/
theorem shallow_ofHeader {inside : (nested : Form) →
      Form.decode w h.offset (depth + 1) = .ok nested → List Node}
    (hp : Header.parse w cursor = .ok h) (hc : 40 * (depth + 1) ≤ cursor)
    (hin : ∀ nested hd, 40 * (depth + 2) ≤ nested.childrenStart →
      ∀ n ∈ inside nested hd, n.Shallow limits nested.stop) :
    (ofHeader w limits depth h inside).Shallow limits h.stop := by
  intro form hform
  obtain ⟨nested, hd, hmax, heq⟩ := exists_form_of_enter hform
  rw [heq] at hform
  obtain ⟨rfl, -⟩ := Header.parse_eq_ok hp
  obtain ⟨-, hdepth, -, hlow, hhigh, -⟩ := Form.decode_eq_ok hd
  have hstop := Form.stop_of_decode hp hd
  simp only [Layout.formLength, Field.headerLength, Header.length] at hlow
  rw [← hstop]
  exact shallow_form (by omega) (by omega) (hin nested hd (by omega)) form hform

/-- If forty bytes for each level lie in front of the cursor, the forms behind it are shallow. -/
theorem shallow_children (hc : 40 * (depth + 1) ≤ cursor) :
    ∀ n ∈ children w limits depth cursor, n.Shallow limits w.stop := by
  fun_induction children w limits depth cursor with
  | case1 w depth cursor hlt f hp =>
    intro n hn
    obtain rfl := List.mem_singleton.mp hn
    intro form hform
    cases hform
  | case2 w depth cursor hlt h hp ihin ihrest =>
    have hs := Header.lt_stop_of_parse hp
    have hle := (Header.parse_eq_ok hp).2.2.1
    have hw : w.limit ≤ w.stop := Nat.min_le_left ..
    intro n hn
    rcases List.mem_cons.mp hn with rfl | hn
    · exact (shallow_ofHeader hp hc ihin).mono (by omega)
    · exact ihrest (by omega) n hn
  | case3 w depth cursor hge =>
    intro n hn
    cases hn

end Node

/-- What a callback is shown are events of the tree. -/
theorem Walk.mem_events_of_logged {f : Callback σ} {index : Nat} {t : Tree} {s : σ} {e : Event}
    (he : e ∈ (Walk.tree f.logged limits index t (s, [])).2.2) :
    e ∈ (Node.ofTree limits t).events := by
  rw [Walk.tree, node_eq_led, Callback.feed_logged, List.nil_append, Callback.led_logged] at he
  rw [← Node.events_acts index]
  obtain ⟨c, hc, rfl⟩ := List.mem_map.mp he
  refine List.mem_map.mpr ⟨c, ?_, rfl⟩
  exact Act.mem_calls_iff.mpr ((Callback.sublist_led ..).subset (Act.mem_calls_iff.mp hc))

namespace Tree

variable {bytes : Array UInt8} {t : Tree}

/-- The root pays for all that it holds. -/
theorem weight_le (ht : ofBytes bytes = .ok t) :
    8 * (Node.ofTree limits t).weight ≤ t.root.size.toNat := by
  obtain ⟨-, hd⟩ := ofBytes_eq_ok_iff.mp ht
  obtain ⟨-, -, hstop, hlow, hhigh, -⟩ := Form.decode_eq_ok hd
  have hin : 8 * Node.weightAll (Node.children t.window limits 0 t.root.childrenStart) ≤
      t.root.stop - t.root.childrenStart + 8 := Node.weight_children_le
  simp only [Layout.formLength, Field.headerLength, Header.length] at hlow
  rw [Node.ofTree, Node.weight]
  omega

/-- All forms of a tree are shallow with respect to the size of its root. -/
theorem shallow (ht : ofBytes bytes = .ok t) :
    (Node.ofTree limits t).Shallow limits t.root.size.toNat := by
  obtain ⟨-, hd⟩ := ofBytes_eq_ok_iff.mp ht
  obtain ⟨-, hdepth, hstop, hlow, -, -⟩ := Form.decode_eq_ok hd
  simp only [Layout.formLength, Field.headerLength, Header.length] at hlow
  rw [Nat.zero_add] at hstop
  rw [← hstop]
  exact Node.shallow_form (by omega) (by omega) (Node.shallow_children (by omega))

/-- **Work is bounded by the input.** Whatever the limits and the callback are, a walk counts at
most one item for every eight bytes of the root, and enters forms at most as deep as the limit and
one level for every forty bytes. It needs no more rounds than the root has eight bytes to read the
outline of the tree, and no more to read the values of an enum than these have eight bytes, since an
answer for when the rounds run out is never given. Neither is one by a lookup in any trees. -/
theorem walk_bounded (ht : ofBytes bytes = .ok t) (f : Callback σ) (limits : Limits) (index : Nat)
    (s : σ) :
    let report := (Walk.tree f limits index t s).1
    report.forms + report.options + report.enumValues + report.skipped ≤ t.root.size.toNat / 8 ∧
      (∀ form, .enter form ∈ (Walk.tree f.logged limits index t (s, [])).2.2 →
        form.depth ≤ min limits.maxDepth (t.root.size.toNat / 40)) ∧
      (∀ n out, t.root.size.toNat / 8 < n →
        Walk.treeWithin out n f limits index t s = Walk.tree f limits index t s) ∧
      (∀ w cursor n out, (w.stop - cursor) / 8 < n →
        EnumValue.decodeAllWithin out n w cursor = EnumValue.decodeAll w cursor) ∧
      ∀ trees form? name n out, (∀ t ∈ trees, t.root.stop / 8 < n) →
        Lookup.findWithin out n limits form? name trees = Lookup.find limits form? name trees := by
  intro report
  refine ⟨?_, fun form hform => ?_, fun n out hn => ?_,
    fun _ _ _ out hn => EnumValue.decodeAllWithin_eq out hn,
    fun _ _ _ _ out hn => Lookup.findWithin_eq out hn⟩
  · have hcount : report.total ≤ (Node.ofTree limits t).weight := Walk.total_node_le _ s
    have hpaid : 8 * (Node.ofTree limits t).weight ≤ t.root.size.toNat := weight_le ht
    simp only [Report.total] at hcount
    omega
  · obtain ⟨hmax, hsize⟩ := shallow ht form (Walk.mem_events_of_logged hform)
    omega
  · obtain ⟨-, hd⟩ := ofBytes_eq_ok_iff.mp ht
    obtain ⟨-, -, hstop, -⟩ := Form.decode_eq_ok hd
    rw [Walk.treeWithin, Walk.tree, Node.ofTreeWithin_eq out (by omega)]

/-- The tree with a torn form in it has 314 bytes. -/
theorem walk_bounded_tornMenu :
    let report := (Walk.tree Callback.silent {} 0 tornMenu ()).1
    report.forms + report.options + report.enumValues + report.skipped ≤ 314 / 8 ∧
      ∀ form, .enter form ∈ (Walk.tree Callback.silent.logged {} 0 tornMenu ((), [])).2.2 →
        form.depth ≤ min 32 (314 / 40) :=
  have ht := ofBytes_eq_ok_iff.mpr ⟨rfl, toOption_eq_some_iff.mp (by decide +kernel)⟩
  have h := walk_bounded (t := tornMenu) ht Callback.silent {} 0 ()
  ⟨h.1, h.2.1⟩

end Tree

end SetupForms
