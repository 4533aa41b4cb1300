import SetupForms.Walk.Basic

/-!
# What a walk shows of an outline

A callback that refuses nothing sees the events of an outline in pre-order and leaves a report that
does not depend on it: `Walk.node_of_willing` gives both as functions of the node alone,
`Node.events` and `Node.report`. Through several trees the callbacks are `Walk.calls`, each with the
index of its tree.

Nodes are what a walk goes through, and here the walk is taken apart: what it shows is one row of
events, and what it notes is one report, both by recursion on the node. All statements about walks
with callbacks that refuse nothing are statements about these rows.
-/

namespace SetupForms

universe u

variable {σ : Type u}

/-- Where the record of an event stands. -/
def Event.offset : Event → Nat
  | enter form | exit form => form.offset
  | value _ v => v.offset
  | numeric o => o.offset
  | text o => o.offset

namespace Node

mutual

/-- The events of a node in pre-order. -/
def events : Node → List Event
  | form f children => .enter f :: (eventsAll children ++ [.exit f])
  | numeric o => o.values.map (.value o) ++ [.numeric o]
  | text o => [.text o]
  | unrecognized .. | malformed .. | torn .. => []

/-- The events of nodes one after the other. -/
def eventsAll : List Node → List Event
  | [] => []
  | n :: ns => events n ++ eventsAll ns

end

mutual

/-- The report of a walk through a node in which nothing is refused. -/
def report (tree : Nat) : Node → Report
  | form _ children => { forms := 1 } ++ reportAll tree children
  | numeric o => { options := 1, enumValues := o.values.length }
  | text _ => { options := 1 }
  | unrecognized offset tag => .skip ⟨tree, offset, tag, .warning, .unknownRecord offset tag⟩
  | malformed offset tag fault | torn offset tag fault => Walk.rejected tree offset tag fault

/-- The report of a walk through nodes one after the other. -/
def reportAll (tree : Nat) : List Node → Report
  | [] => {}
  | n :: ns => report tree n ++ reportAll tree ns

end

mutual

/-- A report speaks of the tree it was made for. -/
theorem tree_of_mem_report {tree : Nat} {d : Diagnostic} :
    ∀ n : Node, d ∈ (n.report tree).diagnostics → d.tree = tree
  | form _ children => fun hd =>
    tree_of_mem_reportAll children (by
      simpa only [report, Report.diagnostics_append, List.nil_append] using hd)
  | numeric _ | text _ => fun hd => absurd hd List.not_mem_nil
  | unrecognized .. | malformed .. | torn .. => fun hd => List.mem_singleton.mp hd ▸ rfl

theorem tree_of_mem_reportAll {tree : Nat} {d : Diagnostic} :
    ∀ ns : List Node, d ∈ (reportAll tree ns).diagnostics → d.tree = tree
  | [] => fun hd => absurd hd List.not_mem_nil
  | n :: ns => fun hd => by
    rcases List.mem_append.mp hd with hd | hd
    · exact tree_of_mem_report n hd
    · exact tree_of_mem_reportAll ns hd

end

theorem mem_eventsAll {e : Event} {ns : List Node} :
    e ∈ eventsAll ns ↔ ∃ n ∈ ns, e ∈ n.events := by
  induction ns with
  | nil => simp [eventsAll]
  | cons n ns ih => simp [eventsAll, ih]

theorem mem_diagnostics_reportAll {d : Diagnostic} {tree : Nat} {ns : List Node} :
    d ∈ (reportAll tree ns).diagnostics ↔ ∃ n ∈ ns, d ∈ (n.report tree).diagnostics := by
  induction ns with
  | nil => simp [reportAll]
  | cons n ns ih => simp [reportAll, ih]

end Node

/-! ## Callbacks that refuse nothing

A callback of this kind cannot change the walk, so that its state is what its events make of it,
`feed`. The recorder is one, and its state is the row of events itself.
-/

namespace Callback

/-- A callback that refuses nothing. -/
def Willing (f : Callback σ) : Prop := ∀ s e, (f s e).1 = .ok ()

/-- The state of a callback after a list of events. -/
def feed (f : Callback σ) (s : σ) (es : List Event) : σ := es.foldl (fun s e => (f s e).2) s

theorem willing_silent : silent.Willing := fun _ _ => rfl

theorem willing_recorder : (recorder fun _ => none).Willing := fun _ _ => rfl

@[simp] theorem feed_nil (f : Callback σ) (s : σ) : f.feed s [] = s := rfl

@[simp] theorem feed_cons (f : Callback σ) (s : σ) (e : Event) (es : List Event) :
    f.feed s (e :: es) = f.feed (f s e).2 es := rfl

@[simp] theorem feed_append (f : Callback σ) (s : σ) (es fs : List Event) :
    f.feed s (es ++ fs) = f.feed (f.feed s es) fs := List.foldl_append

/-- The recorder holds what it was fed, behind what it held before. -/
theorem feed_recorder (s : Array Event) (es : List Event) :
    (recorder fun _ => none).feed s es = s ++ es.toArray := by
  induction es generalizing s with
  | nil => simp
  | cons e es ih =>
    rw [feed_cons, ih]
    simp [recorder]

theorem Willing.eq {f : Callback σ} (hf : f.Willing) (s : σ) (e : Event) :
    f s e = (.ok (), (f s e).2) :=
  Prod.ext (hf s e) rfl

end Callback

namespace Walk

variable {f : Callback σ}

/-- The values of an option are shown, and then the option. -/
theorem numeric_of_willing (hf : f.Willing) (tree : Nat) (o : NumericOption)
    (values : List EnumValue) (s : σ) :
    numeric f tree o values s =
      ({ options := 1, enumValues := values.length },
        f.feed s (values.map (.value o) ++ [.numeric o])) := by
  induction values generalizing s with
  | nil =>
    rw [numeric, hf.eq]
    rfl
  | cons v vs ih =>
    rw [numeric, hf.eq]
    simp only [ih]
    refine Prod.ext ?_ rfl
    show Report.append _ _ = _
    simp [Report.append, Nat.add_comm]

theorem text_of_willing (hf : f.Willing) (tree : Nat) (o : TextOption) (s : σ) :
    text f tree o s = ({ options := 1 }, f.feed s [.text o]) := by
  rw [text, hf.eq]
  rfl

mutual

/-- **A willing walk.** A callback that refuses nothing sees exactly the events of a node, and the
report is that of the node. -/
theorem node_of_willing (hf : f.Willing) (tree : Nat) :
    ∀ (n : Node) (s : σ), node f tree n s = (n.report tree, f.feed s n.events)
  | .form form children, s => by
    -- the entry is taken, so what the form holds is walked, and the exit is shown
    rw [node, hf.eq]
    simp only [nodes_of_willing hf tree children]
    rw [hf.eq]
    simp only [Node.report, Node.events, Callback.feed_cons, Callback.feed_append,
      Callback.feed_nil]
  | .numeric o, s => by
    rw [node, numeric_of_willing hf]
    rfl
  | .text o, s => by
    rw [node, text_of_willing hf]
    rfl
  | .unrecognized .., s => by
    rw [node]
    rfl
  | .malformed .., s => by
    rw [node]
    rfl
  | .torn .., s => by
    rw [node]
    rfl

theorem nodes_of_willing (hf : f.Willing) (tree : Nat) :
    ∀ (ns : List Node) (s : σ),
      nodes f tree ns s = (Node.reportAll tree ns, f.feed s (Node.eventsAll ns))
  | [], s => by
    rw [nodes]
    rfl
  | n :: ns, s => by
    rw [nodes, node_of_willing hf tree n]
    simp only [nodes_of_willing hf tree ns, Node.reportAll, Node.eventsAll, Callback.feed_append]

end

/-- The walk of a tree shows its outline. -/
theorem tree_of_willing (hf : f.Willing) (limits : Limits) (index : Nat) (t : Tree) (s : σ) :
    tree f limits index t s =
      ((Node.ofTree limits t).report index, f.feed s (Node.ofTree limits t).events) :=
  node_of_willing hf index _ s

theorem trees_cons_of_willing (hf : f.Willing) (limits : Limits) (first : Nat) (t : Tree)
    (ts : List Tree) (s : σ) :
    trees f limits first (t :: ts) s =
      let rest := trees f limits (first + 1) ts (f.feed s (Node.ofTree limits t).events)
      ((Node.ofTree limits t).report first ++ rest.1, rest.2) := by
  rw [trees, tree_of_willing hf]

/-- The callbacks of a walk through trees, each with the index of its tree, counted from `first`. -/
def calls (limits : Limits) (first : Nat) : List Tree → List (Nat × Event)
  | [] => []
  | t :: ts =>
    (tree (Callback.recorder fun _ => none) limits first t #[]).2.toList.map (first, ·) ++
      calls limits (first + 1) ts

theorem calls_cons (limits : Limits) (first : Nat) (t : Tree) (ts : List Tree) :
    calls limits first (t :: ts) =
      (Node.ofTree limits t).events.map (first, ·) ++ calls limits (first + 1) ts := by
  rw [calls, tree_of_willing Callback.willing_recorder, Callback.feed_recorder]
  simp

/-- A walk through all trees feeds a willing callback just these calls. -/
theorem trees_of_willing (hf : f.Willing) (limits : Limits) (first : Nat) (ts : List Tree) (s : σ) :
    (trees f limits first ts s).2 = f.feed s ((calls limits first ts).map Prod.snd) := by
  induction ts generalizing first s with
  | nil => rfl
  | cons t ts ih =>
    have hsnd : (Prod.snd ∘ (first, ·) : Event → Event) = id := rfl
    rw [trees_cons_of_willing hf, calls_cons, List.map_append, List.map_map, hsnd, List.map_id,
      Callback.feed_append, ih]

/-- Calls are made in the trees that are walked. -/
theorem first_le_of_mem_calls {limits : Limits} {first : Nat} {ts : List Tree} {c : Nat × Event}
    (hc : c ∈ calls limits first ts) : first ≤ c.1 := by
  induction ts generalizing first with
  | nil => cases hc
  | cons t ts ih =>
    rw [calls_cons, List.mem_append, List.mem_map] at hc
    rcases hc with ⟨e, -, rfl⟩ | hc
    · exact Nat.le_refl _
    · have := ih hc
      omega

end Walk

end SetupForms
