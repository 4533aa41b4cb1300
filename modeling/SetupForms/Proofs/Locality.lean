import SetupForms.Proofs.DisplacedOutline
import SetupForms.Proofs.Refusals

/-!
# Forms are trees of their own

The bytes of a nested form are a tree, and its walk is the part of the whole walk between the entry
of the form and its exit, moved to the start (`Tree.walk_local`). Where a walk enters a form,
`Node.Opens` says what it does from there: it goes through what the form holds, leaves it, and notes
nothing else inside of it (`Node.opens_children`). By `Node.children_move` what the form holds is
what its own tree holds, moved.
-/

namespace SetupForms

open Displacement Window

universe u

variable {σ : Type u} {δ : Displacement} {bytes : Array UInt8} {w : Window} {limits : Limits}
  {depth cursor lo mid hi : Nat} {form : Form} {n : Node} {ns : List Node} {past rest : List Event}

/-! ## Callbacks and diagnostics move

Whatever a walk tells of a record is told in terms of the record. If a node is moved, then what is
told of it is what was told before, moved the same way. Both facts go along nodes and rows of nodes,
one case a constructor.
-/

/-- An event moves with its record. -/
def Event.move (δ : Displacement) : Event → Event
  | enter form => enter (form.move δ)
  | exit form => exit (form.move δ)
  | value o v => value (o.move δ) (v.move δ)
  | numeric o => numeric (o.move δ)
  | text o => text (o.move δ)

/-- A diagnostic moves with its record and with its fault. -/
def Diagnostic.move (δ : Displacement) (d : Diagnostic) : Diagnostic :=
  { d with offset := d.offset + δ.bytes, fault := d.fault.move δ }

namespace Node

mutual

/-- The events of a moved node are its events, moved. -/
theorem events_move : ∀ n : Node, (n.move δ).events = n.events.map (Event.move δ)
  | form f children => by
    rw [move, events, events, eventsAll_move children, List.map_cons, List.map_append]
    rfl
  | numeric o => by
    have hvalues : (o.move δ).values.map (Event.value (o.move δ)) =
        (o.values.map (Event.value o)).map (Event.move δ) := by
      rw [NumericOption.move, List.map_map, List.map_map]
      rfl
    rw [move, events, events, hvalues, List.map_append]
    rfl
  | text _ | unrecognized .. | malformed .. | torn .. => rfl

theorem eventsAll_move :
    ∀ ns : List Node, eventsAll (moveAll δ ns) = (eventsAll ns).map (Event.move δ)
  | [] => rfl
  | n :: ns => by
    rw [moveAll, eventsAll, eventsAll, events_move n, eventsAll_move ns, List.map_append]

end

mutual

/-- The diagnostics of a moved node are its diagnostics, moved. -/
theorem diagnostics_move {tree : Nat} : ∀ n : Node,
    ((n.move δ).report tree).diagnostics = (n.report tree).diagnostics.map (Diagnostic.move δ)
  | form f children => by
    rw [move, report, report, Report.diagnostics_append, Report.diagnostics_append,
      diagnosticsAll_move children]
    rfl
  | numeric _ | text _ | unrecognized .. | malformed .. | torn .. => rfl

theorem diagnosticsAll_move {tree : Nat} : ∀ ns : List Node,
    (reportAll tree (moveAll δ ns)).diagnostics =
      (reportAll tree ns).diagnostics.map (Diagnostic.move δ)
  | [] => rfl
  | n :: ns => by
    rw [moveAll, reportAll, reportAll, Report.diagnostics_append, Report.diagnostics_append,
      diagnostics_move n, diagnosticsAll_move ns, List.map_append]

end

end Node

/-! ## Where a form is entered

That the walk enters a form says where the form stands in the outline, though only by an event in a
row of events. `Opens` is what follows from it, and it is shown by going down to the form: through
the records of one level, into one of them, and on. At each level the form is in the first node, in
a later one, or is itself the node that is entered.
-/

namespace Form

/-- Whether a diagnostic is for a record inside of the form. -/
def encloses (form : Form) (d : Diagnostic) : Bool :=
  form.offset < d.offset ∧ d.offset < form.stop

/-- What the form holds, which is read from the whole buffer. -/
def contents (bytes : Array UInt8) (limits : Limits) (form : Form) : List Node :=
  Node.children ⟨bytes, form.stop⟩ limits form.depth form.childrenStart

/-- A record is inside of a form if it starts behind the start of the form and in front of its end.
-/
theorem encloses_eq_true_iff {d : Diagnostic} :
    form.encloses d = true ↔ form.offset < d.offset ∧ d.offset < form.stop :=
  decide_eq_true_iff

/-- A form is read in its own frame alike. -/
theorem decode_upTo_stop (ha : form.stop < addressSpace)
    (hd : decode w cursor depth = .ok form) :
    decode (w.upTo form.stop) cursor depth = .ok form := by
  obtain ⟨ho, hdepth, hc, hs, head, hhead, hb⟩ := (decode_eq_ok_iff_head ha).mp hd
  obtain ⟨-, -, -, hstart, -⟩ := id hhead
  have hin : cursor + head.length ≤ form.stop := by omega
  exact (decode_eq_ok_iff_head ha).mpr
    ⟨ho, hdepth, hc, Nat.le_of_eq (limit_upTo_of_le hs).symm, head, hhead,
      (holds_upTo_iff hs).mpr ⟨hin, hb⟩⟩

end Form

namespace Node

/-- A form notes nothing itself. -/
theorem diagnostics_form {tree : Nat} :
    (reportAll tree [.form form ns]).diagnostics = (reportAll tree ns).diagnostics := by
  rw [reportAll, reportAll, Report.append_nil, report, Report.diagnostics_append]
  rfl

/-- The nodes lie between `lo` and `hi` in a buffer. A walk through them that has just entered the
form goes on with what the form holds and its exit, and notes nothing else inside of the form. -/
structure Opens (bytes : Array UInt8) (limits : Limits) (lo hi : Nat) (ns : List Node) (form : Form)
    (rest : List Event) : Prop where
  /-- the form starts among the nodes -/
  low : lo ≤ form.offset
  /-- and ends there -/
  high : form.stop ≤ hi
  /-- it was read from the buffer -/
  decoded : ∃ w : Window, w.bytes = bytes ∧ Form.decode w form.offset form.depth = .ok form
  /-- it is entered within the limit -/
  shallow : form.depth ≤ limits.maxDepth
  /-- behind its entry stand what it holds and its exit -/
  events : ∃ after, rest = eventsAll (form.contents bytes limits) ++ .exit form :: after
  /-- what is noted inside of it is noted in what it holds -/
  diagnostics : ∀ tree, (reportAll tree ns).diagnostics.filter form.encloses =
    (reportAll tree (form.contents bytes limits)).diagnostics

/-- Of a node that ends in front of the form or starts behind it, nothing is noted in the form. -/
theorem Within.filter_encloses (hn : n.Within lo hi) (hout : hi ≤ form.offset ∨ form.stop ≤ lo)
    (tree : Nat) : (n.report tree).diagnostics.filter form.encloses = [] := by
  refine List.filter_eq_nil_iff.mpr fun d hd hin => ?_
  have hin := Form.encloses_eq_true_iff.mp hin
  have hd := hn.diagnostics tree d hd
  omega

namespace Opens

/-- The form is in the first node. -/
theorem first (ho : Opens bytes limits lo mid [n] form rest) (hle : mid ≤ hi)
    (hns : ∀ m ∈ ns, m.Within mid hi) :
    Opens bytes limits lo hi (n :: ns) form (rest ++ eventsAll ns) where
  low := ho.low
  high := Nat.le_trans ho.high hle
  decoded := ho.decoded
  shallow := ho.shallow
  events := by
    obtain ⟨after, rfl⟩ := ho.events
    exact ⟨after ++ eventsAll ns, by rw [List.append_assoc, List.cons_append]⟩
  diagnostics tree := by
    -- nothing that is noted in a later node is inside of the form
    have hfirst := ho.diagnostics tree
    have hlater : (reportAll tree ns).diagnostics.filter form.encloses = [] := by
      refine List.filter_eq_nil_iff.mpr fun d hd => ?_
      obtain ⟨m, hm, hd⟩ := mem_diagnostics_reportAll.mp hd
      exact List.filter_eq_nil_iff.mp ((hns m hm).filter_encloses (.inr ho.high) tree) d hd
    rw [reportAll, reportAll, Report.append_nil] at hfirst
    rw [reportAll, Report.diagnostics_append, List.filter_append, hfirst, hlater, List.append_nil]

/-- The form is in a later node. -/
theorem later (hn : n.Within lo mid) (hle : lo ≤ mid)
    (ho : Opens bytes limits mid hi ns form rest) :
    Opens bytes limits lo hi (n :: ns) form rest where
  low := Nat.le_trans hle ho.low
  high := ho.high
  decoded := ho.decoded
  shallow := ho.shallow
  events := ho.events
  diagnostics tree := by
    rw [reportAll, Report.diagnostics_append, List.filter_append,
      hn.filter_encloses (.inl ho.low), List.nil_append, ho.diagnostics]

/-- The form itself is entered. -/
theorem self (hd : Form.decode w form.offset form.depth = .ok form)
    (hm : form.depth ≤ limits.maxDepth) :
    Opens w.bytes limits form.offset form.stop [.form form (form.contents w.bytes limits)] form
      (eventsAll (form.contents w.bytes limits) ++ [.exit form]) where
  low := Nat.le_refl _
  high := Nat.le_refl _
  decoded := ⟨w, rfl, hd⟩
  shallow := hm
  events := ⟨[], rfl⟩
  diagnostics tree := by
    obtain ⟨-, -, -, hlow, -, -⟩ := Form.decode_eq_ok hd
    simp only [Layout.formLength, Header.length] at hlow
    rw [diagnostics_form]
    -- everything that is noted is noted in what the form holds, which starts behind its header
    refine List.filter_eq_self.mpr fun d hd => Form.encloses_eq_true_iff.mpr ?_
    obtain ⟨n, hn, hd⟩ := mem_diagnostics_reportAll.mp hd
    have hwithin := (within_children n hn).diagnostics tree d hd
    simp only at hwithin
    omega

/-- The form is in what another one holds. -/
theorem inside {outer : Form} (hlow : outer.offset ≤ outer.childrenStart)
    (ho : Opens bytes limits outer.childrenStart outer.stop ns form rest) :
    Opens bytes limits outer.offset outer.stop [.form outer ns] form (rest ++ [.exit outer]) where
  low := Nat.le_trans hlow ho.low
  high := ho.high
  decoded := ho.decoded
  shallow := ho.shallow
  events := by
    obtain ⟨after, rfl⟩ := ho.events
    exact ⟨after ++ [.exit outer], by rw [List.append_assoc, List.cons_append]⟩
  diagnostics tree := by rw [diagnostics_form, ho.diagnostics]

end Opens

/-- The form that is entered is the node itself, or it is in what the node holds. -/
theorem opens_form {outer : Form} (hd : Form.decode w outer.offset outer.depth = .ok outer)
    (hm : outer.depth ≤ limits.maxDepth)
    (hin : ∀ {past rest}, eventsAll (outer.contents w.bytes limits) = past ++ .enter form :: rest →
      Opens w.bytes limits outer.childrenStart outer.stop (outer.contents w.bytes limits) form rest)
    (he : (Node.form outer (outer.contents w.bytes limits)).events = past ++ .enter form :: rest) :
    Opens w.bytes limits outer.offset outer.stop
      [.form outer (outer.contents w.bytes limits)] form rest := by
  rw [Node.events] at he
  cases past with
  | nil =>
    obtain ⟨hform, rfl⟩ := List.cons.inj he
    obtain rfl := Event.enter.inj hform
    exact .self hd hm
  | cons e past =>
    rcases exists_of_append_eq (List.cons.inj he).2 with ⟨behind, hinner, rfl⟩ | ⟨behind, -, hexit⟩
    · obtain ⟨-, -, -, hlow, -, -⟩ := Form.decode_eq_ok hd
      simp only [Layout.formLength, Header.length] at hlow
      exact .inside (by omega) (hin hinner)
    · -- only the exit is left, and it enters nothing
      cases behind with
      | nil => cases hexit
      | cons e behind => cases behind <;> cases hexit

/-- What a walk does from the entry of a form on. -/
theorem opens_children
    (he : eventsAll (children w limits depth cursor) = past ++ .enter form :: rest) :
    Opens w.bytes limits cursor w.stop (children w limits depth cursor) form rest := by
  -- The induction is on the outline. The entry of the form is an event of the record at the cursor
  -- or of what follows the record, and in the first case the record is a form itself.
  fun_induction children w limits depth cursor generalizing past rest with
  | case1 w depth cursor hlt f hp => cases past <;> cases he
  | case2 w depth cursor hlt h hp ihin ihrest =>
    have hlt := Header.lt_stop_of_parse hp
    obtain ⟨ho, -, hle, -⟩ := Header.parse_eq_ok hp
    have hw : w.limit ≤ w.stop := Nat.min_le_left ..
    rcases exists_of_append_eq he with ⟨behind, hfirst, rfl⟩ | ⟨behind, -, hlater⟩
    · have hmem : .enter form ∈ (ofHeader w limits depth h _).events :=
        hfirst ▸ List.mem_append_right _ List.mem_cons_self
      obtain ⟨nested, hd, hm, hnode⟩ := exists_form_of_enter hmem
      have hin := @ihin nested hd
      have hstop := Form.stop_of_decode (ho ▸ hp) hd
      obtain ⟨hoffset, hdepth, -⟩ := Form.decode_eq_ok hd
      have hcontents : children (w.upTo nested.stop) limits (depth + 1) nested.childrenStart =
          nested.contents w.bytes limits := by
        rw [← hdepth]
        rfl
      rw [hcontents] at hin hnode
      rw [hnode] at hfirst ⊢
      rw [← hoffset, ← hdepth] at hd
      have hopens := opens_form hd (hdepth ▸ hm) hin hfirst
      rw [hoffset, ho, hstop] at hopens
      exact hopens.first (Nat.le_trans hle hw) fun m hm => within_children m hm
    · refine .later ?_ (Nat.le_of_lt hlt) (ihrest hlater)
      rw [← ho]
      exact within_ofHeader hp fun nested hd n hn => within_children n hn
  | case3 w depth cursor hge => cases past <;> cases he

/-- The outline of a tree is that of the form from which its bytes are taken, moved. -/
theorem ofTree_move (limits : Limits) {t : Tree} (ht : Tree.ofBytes t.bytes = .ok t)
    (hv : Shows δ.bytes w (.ofBytes t.bytes)) : (ofTree limits t).move δ =
      .form (t.root.move δ) ((t.root.move δ).contents w.bytes (limits.move δ)) := by
  obtain ⟨-, hdepth, -, -, hc, hs⟩ := Form.decode_eq_ok (Tree.ofBytes_eq_ok_iff.mp ht).2
  rw [hv.limit_part] at hs
  have hmove : children (w.upTo (t.root.stop + δ.bytes)) (limits.move δ) (0 + δ.levels)
      (t.root.childrenStart + δ.bytes) =
        moveAll δ (children t.window limits 0 t.root.childrenStart) :=
    children_move (hv.upTo hs) hc
  rw [ofTree, move, ← hmove, Form.contents, Form.move, hdepth]
  rfl

end Node

/-! ## The walk of a nested form

A callback that refuses nothing sees every event of the outline, so that what has been said of
events and nodes carries over to what the callback is shown.
-/

/-- A log does not make a willing callback refuse. -/
theorem Callback.Willing.logged {f : Callback σ} (hf : f.Willing) : f.logged.Willing := by
  rintro ⟨s, es⟩ e
  exact hf s e

/-- A willing callback is called back with the events of the tree. -/
theorem Walk.tree_logged {f : Callback σ} (hf : f.Willing) (limits : Limits) (index : Nat)
    (t : Tree) (s : σ) : tree f.logged limits index t (s, []) =
      ((Node.ofTree limits t).report index, f.feed s (Node.ofTree limits t).events,
        (Node.ofTree limits t).events) := by
  rw [tree_of_willing hf.logged, Callback.feed_logged, List.nil_append]

namespace Tree

variable {t : Tree}

/-- What a walk of a tree does from the entry of a form on. -/
theorem opens_of_events (ht : ofBytes bytes = .ok t)
    (he : (Node.ofTree limits t).events = past ++ .enter form :: rest) :
    Node.Opens bytes limits 0 t.root.stop [Node.ofTree limits t] form rest := by
  obtain ⟨rfl, hd⟩ := ofBytes_eq_ok_iff.mp ht
  obtain ⟨ho, hdepth, -⟩ := Form.decode_eq_ok hd
  have hcontents : Node.ofTree limits t = .form t.root (t.root.contents t.bytes limits) := by
    rw [Form.contents, hdepth]
    rfl
  rw [hcontents] at he ⊢
  have hd : Form.decode (.ofBytes t.bytes) t.root.offset t.root.depth = .ok t.root := by
    rwa [ho, hdepth]
  rw [← ho]
  exact Node.opens_form hd (hdepth ▸ Nat.zero_le _) Node.opens_children he

/-- The bytes of a form that was read are a tree. Its outline is the form and what that holds,
moved to the start. -/
theorem exists_ofBytes_extract (hnear : form.stop < 0x100000000)
    (hd : Form.decode w form.offset form.depth = .ok form) (hm : form.depth ≤ limits.maxDepth) :
    ∃ own, ofBytes (w.bytes.extract form.offset form.stop) = .ok own ∧
      (Node.ofTree { limits with maxDepth := limits.maxDepth - form.depth } own).move
        ⟨form.offset, form.depth⟩ = .form form (form.contents w.bytes limits) := by
  obtain ⟨-, -, hstop, -, -, hle⟩ := Form.decode_eq_ok hd
  have hsize : w.limit ≤ w.bytes.size := Nat.min_le_right ..
  let δ : Displacement := ⟨form.offset, form.depth⟩
  let part := w.bytes.extract form.offset form.stop
  have hv : Shows δ.bytes (w.upTo form.stop) (.ofBytes part) :=
    .extract (show form.offset ≤ form.stop by omega) (Nat.le_trans hle hsize) hnear
  -- the form is the root of its own tree, moved
  have hmove : Form.decode (w.upTo form.stop) (0 + form.offset) (0 + form.depth) =
      δ.result (Form.move δ) (Form.decode (.ofBytes part) 0 0) :=
    Form.decode_move hv (Nat.zero_le _)
  have ha : form.stop < addressSpace := Nat.lt_trans hnear (by decide)
  rw [Nat.zero_add, Nat.zero_add, Form.decode_upTo_stop ha hd] at hmove
  obtain ⟨root, hroot, hform⟩ := result_eq_ok_iff.mp hmove.symm
  have hown : ofBytes part = .ok ⟨part, root⟩ := ofBytes_eq_ok_iff.mpr ⟨rfl, hroot⟩
  -- and so is what it holds, since the limit on the depth moves with it
  let less : Limits := { limits with maxDepth := limits.maxDepth - form.depth }
  have hlimits : less.move δ = limits := by
    rw [Limits.move, Nat.sub_add_cancel hm]
  have houtline := Node.ofTree_move less (t := ⟨part, root⟩) hown hv
  rw [hform, hlimits] at houtline
  exact ⟨_, hown, houtline⟩

/-- **Forms are trees of their own.** Let a callback that refuses nothing be called back with the
entry of a form. Then the bytes of the form are a tree. Walked with the same limits, less the depth
of the form, it shows the callback what the whole walk shows it from the entry of the form to its
exit, and leaves what that leaves for records inside the form. Places differ by the offset of the
form, depths and the limit in a fault by its depth, and nothing else does. -/
theorem walk_local {f : Callback σ} (hf : f.Willing) (s : σ) (limits : Limits) (index : Nat)
    {before rest : List Event} (ht : ofBytes bytes = .ok t)
    (he : (Walk.tree f.logged limits index t (s, [])).2.2 = before ++ .enter form :: rest) :
    ∃ own inner after,
      ofBytes (bytes.extract form.offset (form.offset + form.size.toNat)) = .ok own ∧
      form.depth ≤ limits.maxDepth ∧ rest = inner ++ .exit form :: after ∧ .exit form ∉ inner ∧
      ∀ s',
        let δ : Displacement := ⟨form.offset, form.depth⟩
        let walk := Walk.tree f.logged { limits with maxDepth := limits.maxDepth - form.depth }
          index own (s', [])
        walk.2.2.map (Event.move δ) = .enter form :: (inner ++ [.exit form]) ∧
          walk.1.diagnostics.map (Diagnostic.move δ) =
            (Walk.tree f.logged limits index t (s, [])).1.diagnostics.filter
              fun d => form.offset < d.offset ∧ d.offset < form.offset + form.size.toNat := by
  rw [Walk.tree_logged hf] at he ⊢
  obtain ⟨-, hhigh, ⟨w, rfl, hd⟩, hshallow, ⟨after, hrest⟩, hnoted⟩ := opens_of_events ht he
  obtain ⟨-, -, hstop, hlow, -⟩ := Form.decode_eq_ok hd
  have hnear : form.stop < 0x100000000 := by
    obtain ⟨-, -, hroot, -⟩ := Form.decode_eq_ok (ofBytes_eq_ok_iff.mp ht).2
    have := t.root.size.toNat_lt
    omega
  obtain ⟨own, hown, houtline⟩ := exists_ofBytes_extract hnear hd hshallow
  rw [← hstop]
  refine ⟨own, Node.eventsAll (form.contents w.bytes limits), after, hown, hshallow, hrest, ?_, ?_⟩
  · -- what stands in the form starts behind it
    intro hexit
    obtain ⟨n, hn, hexit⟩ := Node.mem_eventsAll.mp hexit
    have hwithin := (Node.within_children n hn).events _ hexit
    simp only [Event.offset, Layout.formLength, Header.length] at hwithin hlow
    omega
  intro s'
  have hinside := hnoted index
  rw [Node.reportAll, Node.reportAll, Report.append_nil] at hinside
  simp only [Walk.tree_logged hf, ← Node.events_move, ← Node.diagnostics_move, houtline]
  exact ⟨rfl, hinside.symm⟩

/-- The second child of `tornMenu` is a form with a torn tail. -/
theorem walk_local_tornMenu :
    ∃ own, ofBytes (tornMenu.bytes.extract 160 268) = .ok own ∧
      (Walk.tree Callback.silent.logged { maxDepth := 31 } 0 own ((), [])).1.diagnostics.map
          (Diagnostic.move ⟨160, 1⟩) =
        (Walk.tree Callback.silent.logged {} 0 tornMenu ((), [])).1.diagnostics.filter
          fun d => 160 < d.offset ∧ d.offset < 268 := by
  have hentry : .enter ⟨160, 108, ⟨3, 0, ⟨0⟩⟩, "Menu", 1, 205, 268⟩ ∈
      (Walk.tree Callback.silent.logged {} 0 tornMenu ((), [])).2.2 := by
    rw [Walk.tree_logged Callback.willing_silent]
    decide +kernel
  obtain ⟨before, rest, hlog⟩ := List.append_of_mem hentry
  obtain ⟨own, inner, after, hown, -, -, -, hwalk⟩ :=
    walk_local (t := tornMenu) Callback.willing_silent () {} 0
      (ofBytes_eq_ok_iff.mpr ⟨rfl, toOption_eq_some_iff.mp (by decide +kernel)⟩) hlog
  exact ⟨own, hown, (hwalk ()).2⟩

end Tree

end SetupForms
