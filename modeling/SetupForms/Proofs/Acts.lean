import SetupForms.Proofs.WalkTrace

/-!
# What a walk does, act by act

A walk calls back and notes what it skips. `Node.acts` lists both in the one order in which they
happen; its calls are the events of the node in pre-order (`Node.calls_acts`). A callback that
refuses neither to enter a form nor a value of an enum is led through all of them, whatever else it
refuses, and its verdicts alone make the report (`Walk.node_of_lenient`): a refusal costs just its
own record.

Acts are the common currency of the theory of walks. What is called back and what is noted depends
on the tree and on the callback; the acts depend on the tree alone. So a statement about walks is
split: the acts say what there is to do, the verdicts (`Callback.verdicts`) say what the callback
makes of it, and the report and the state of the callback are functions of the two.
-/

namespace SetupForms

universe u

variable {σ : Type u}

/-! ## Events in a report

An event adds to a report if it is taken, and the rejection of its record if it is refused.
-/

namespace Event

/-- What a report counts an event as. The exit of a form counts as nothing. -/
def tally : Event → Report
  | enter _ => { forms := 1 }
  | exit _ => {}
  | value .. => { enumValues := 1 }
  | numeric _ | text _ => { options := 1 }

/-- The report of the record that is rejected when an event is refused. With a value it is the
option that goes. -/
def rejection (tree : Nat) (fault : Fault) : Event → Report
  | enter form | exit form => Walk.rejected tree form.offset Kind.form.tag fault
  | value o _ | numeric o => Walk.rejected tree o.offset o.kind.kind.tag fault
  | text o => Walk.rejected tree o.offset o.kind.kind.tag fault

/-- Whether an event enters a form. -/
def isEnter : Event → Bool
  | enter _ => true
  | _ => false

/-- Whether an event is a value of an enum. -/
def isValue : Event → Bool
  | value .. => true
  | _ => false

/-- Whether an event is an option, with a value or without. -/
def isOption : Event → Bool
  | numeric _ | text _ => true
  | _ => false

/-- Whether an event enters the root of a tree. -/
def opensTree : Event → Bool
  | enter form => form.depth = 0
  | exit _ | value .. | numeric _ | text _ => false

end Event

/-! ## Acts

The projections of acts to calls, events and notes are homomorphisms: they take a row of acts to the
row of what the acts contribute. This is what the simplifier is told here, and all that the later
inductions use.
-/

/-- One thing that a walk does. -/
inductive Act where
  /-- it calls back, in the tree of an index -/
  | call (tree : Nat) (event : Event)
  /-- it notes what it skips -/
  | note (diagnostic : Diagnostic)
  deriving DecidableEq

namespace Act

/-- The calls among acts, each with the index of its tree. -/
def calls : List Act → List (Nat × Event)
  | [] => []
  | call tree e :: as => (tree, e) :: calls as
  | note _ :: as => calls as

/-- The events that acts call back with. -/
def events (as : List Act) : List Event := (calls as).map Prod.snd

/-- The diagnostics among acts. -/
def notes : List Act → List Diagnostic
  | [] => []
  | call .. :: as => notes as
  | note d :: as => d :: notes as

/-- The report of an act with its verdict. -/
def report : Act → Except Fault Unit → Report
  | note d, _ => .skip d
  | call _ e, .ok () => e.tally
  | call tree e, .error fault => e.rejection tree fault

@[simp] theorem events_call (tree : Nat) (e : Event) (as : List Act) :
    events (call tree e :: as) = e :: events as := rfl

@[simp] theorem calls_append (as bs : List Act) : calls (as ++ bs) = calls as ++ calls bs := by
  induction as with
  | nil => rfl
  | cons a as ih =>
    cases a with
    | call tree e => exact congrArg _ ih
    | note d => exact ih

/-- The calls among acts are the acts that call. -/
theorem mem_calls_iff {tree : Nat} {e : Event} {as : List Act} :
    (tree, e) ∈ calls as ↔ call tree e ∈ as := by
  induction as with
  | nil => exact ⟨nofun, nofun⟩
  | cons a as ih => cases a <;> simp [calls, ih]

/-- The notes among acts are the acts that note. -/
theorem mem_notes_iff {d : Diagnostic} {as : List Act} : d ∈ notes as ↔ note d ∈ as := by
  induction as with
  | nil => exact ⟨nofun, nofun⟩
  | cons a as ih => cases a <;> simp [notes, ih]

@[simp] theorem events_append (as bs : List Act) : events (as ++ bs) = events as ++ events bs := by
  rw [events, calls_append, List.map_append]
  rfl

@[simp] theorem calls_map_call (tree : Nat) (es : List Event) :
    calls (es.map (call tree)) = es.map (tree, ·) := by
  induction es with
  | nil => rfl
  | cons e es ih => exact congrArg _ ih

@[simp] theorem events_map_call (tree : Nat) (es : List Event) :
    events (es.map (call tree)) = es := by
  rw [events, calls_map_call, List.map_map]
  exact List.map_id _

end Act

namespace Report

/-- The report of acts with their verdicts, one after the other. -/
def ofVerdicts : List (Act × Except Fault Unit) → Report
  | [] => {}
  | (a, verdict) :: vs => a.report verdict ++ ofVerdicts vs

@[simp] theorem ofVerdicts_append (vs ws : List (Act × Except Fault Unit)) :
    ofVerdicts (vs ++ ws) = ofVerdicts vs ++ ofVerdicts ws := by
  induction vs with
  | nil => rw [List.nil_append, ofVerdicts, nil_append]
  | cons v vs ih => rw [List.cons_append, ofVerdicts, ofVerdicts, ih, append_assoc]

/-- The report of acts none of which is refused. -/
def ofActs (as : List Act) : Report := ofVerdicts (as.map (·, .ok ()))

/-- The report of a row of acts starts with that of the first. -/
theorem ofActs_cons (a : Act) (as : List Act) :
    ofActs (a :: as) = a.report (.ok ()) ++ ofActs as := rfl

/-- Without a refusal the diagnostics are the notes. -/
theorem diagnostics_ofActs (as : List Act) : (ofActs as).diagnostics = Act.notes as := by
  induction as with
  | nil => rfl
  | cons a as ih =>
    rw [ofActs_cons, diagnostics_append, ih]
    cases a with
    | note d => rfl
    | call tree e => cases e <;> rfl

/-- Without a refusal a report counts the calls by their kinds, and the notes. -/
theorem counts_ofActs (as : List Act) :
    (ofActs as).forms = (Act.events as).countP Event.isEnter ∧
      (ofActs as).options = (Act.events as).countP Event.isOption ∧
      (ofActs as).enumValues = (Act.events as).countP Event.isValue ∧
      (ofActs as).skipped = (Act.notes as).length := by
  induction as with
  | nil => exact ⟨rfl, rfl, rfl, rfl⟩
  | cons a as ih =>
    -- all four counters add up along the row, so one induction serves them together
    obtain ⟨hf, ho, hv, hs⟩ := ih
    simp only [ofActs_cons, forms_append, options_append, enumValues_append, skipped_append, hf, ho,
      hv, hs]
    cases a with
    | note d =>
      have hnote : Act.events (.note d :: as) = Act.events as := rfl
      simp [Act.report, Act.notes, skip, Nat.add_comm, hnote]
    | call tree e =>
      rw [Act.events_call, List.countP_cons, List.countP_cons, List.countP_cons]
      cases e <;> simp [Act.report, Act.notes, Event.tally, Event.isEnter, Event.isOption,
        Event.isValue, Nat.add_comm]

end Report

namespace Node

mutual

/-- The acts of a walk through a node. -/
def acts (tree : Nat) : Node → List Act
  | form f children =>
    .call tree (.enter f) :: (actsAll tree children ++ [.call tree (.exit f)])
  | numeric o => (o.values.map (Event.value o) ++ [Event.numeric o]).map (.call tree)
  | text o => [.call tree (.text o)]
  | unrecognized offset tag => [.note ⟨tree, offset, tag, .warning, .unknownRecord offset tag⟩]
  | malformed offset tag fault | torn offset tag fault => [.note ⟨tree, offset, tag, .error, fault⟩]

/-- The acts of a walk through nodes one after the other. -/
def actsAll (tree : Nat) : List Node → List Act
  | [] => []
  | n :: ns => acts tree n ++ actsAll tree ns

end

mutual

/-- The calls among the acts of a node are its events, in its tree. -/
theorem calls_acts (tree : Nat) : ∀ n : Node, Act.calls (n.acts tree) = n.events.map (tree, ·)
  | form f children => by
    rw [acts, events, Act.calls, Act.calls_append, calls_actsAll tree children, List.map_cons,
      List.map_append]
    rfl
  | numeric o => Act.calls_map_call tree _
  | text _ | unrecognized .. | malformed .. | torn .. => rfl

theorem calls_actsAll (tree : Nat) :
    ∀ ns : List Node, Act.calls (actsAll tree ns) = (eventsAll ns).map (tree, ·)
  | [] => rfl
  | n :: ns => by
    rw [actsAll, eventsAll, Act.calls_append, calls_acts tree n, calls_actsAll tree ns,
      List.map_append]

end

/-- The events of the acts of a node are the events of the node. -/
theorem events_acts (tree : Nat) (n : Node) : Act.events (n.acts tree) = n.events := by
  rw [Act.events, calls_acts, List.map_map]
  exact List.map_id _

theorem events_actsAll (tree : Nat) (ns : List Node) :
    Act.events (actsAll tree ns) = eventsAll ns := by
  rw [Act.events, calls_actsAll, List.map_map]
  exact List.map_id _

end Node

/-! ## Callbacks that refuse at most options

A refusal has two effects: it makes a diagnostic, and it may keep the walk from what would come
next. Only the refusal of a form that is to be entered, and of a value of an enum, have the second
effect. A callback that refuses neither, such as that of a menu, is led through the acts of the tree
whatever else it refuses.
-/

namespace Callback

/-- Acts with the verdicts of a callback that is led through them. -/
def verdicts (f : Callback σ) : σ → List Act → List (Act × Except Fault Unit)
  | _, [] => []
  | s, .note d :: as => (.note d, .ok ()) :: verdicts f s as
  | s, .call tree e :: as => (.call tree e, (f s e).1) :: verdicts f (f s e).2 as

/-- A callback that refuses neither to enter a form nor a value. -/
structure Lenient (f : Callback σ) : Prop where
  /-- every form is entered -/
  enter : ∀ s form, (f s (.enter form)).1 = .ok ()
  /-- every value is taken -/
  value : ∀ s o v, (f s (.value o v)).1 = .ok ()

variable {f : Callback σ}

/-- A callback that refuses nothing is lenient. -/
theorem Willing.lenient (hf : f.Willing) : f.Lenient where
  enter _ _ := hf _ _
  value _ _ _ := hf _ _

/-- Verdicts are given on the acts and on nothing else. -/
@[simp] theorem map_fst_verdicts (f : Callback σ) (s : σ) (as : List Act) :
    (f.verdicts s as).map Prod.fst = as := by
  induction as generalizing s with
  | nil => rfl
  | cons a as ih =>
    cases a with
    | note d => exact congrArg _ (ih s)
    | call tree e => exact congrArg _ (ih (f s e).2)

/-- The second part of a row is judged in the state that the events of the first part leave. -/
theorem verdicts_append (s : σ) (as bs : List Act) :
    f.verdicts s (as ++ bs) = f.verdicts s as ++ f.verdicts (f.feed s (Act.events as)) bs := by
  induction as generalizing s with
  | nil => rfl
  | cons a as ih =>
    cases a with
    | note d => exact congrArg _ (ih s)
    | call tree e => exact congrArg _ (ih (f s e).2)

/-- Every verdict on a call was given in some state. -/
theorem exists_of_mem_verdicts {s : σ} {as : List Act} {tree : Nat} {e : Event}
    {verdict : Except Fault Unit} (h : (.call tree e, verdict) ∈ f.verdicts s as) :
    ∃ t, verdict = (f t e).1 := by
  induction as generalizing s with
  | nil => cases h
  | cons a as ih =>
    cases a with
    | note d =>
      rcases List.mem_cons.mp h with heq | hmem
      · cases heq
      · exact ih hmem
    | call t e' =>
      rcases List.mem_cons.mp h with heq | hmem
      · obtain ⟨hact, rfl⟩ := Prod.mk.inj heq
        obtain ⟨-, rfl⟩ := Act.call.inj hact
        exact ⟨s, rfl⟩
      · exact ih hmem

/-- A callback that refuses nothing takes every act. -/
theorem verdicts_of_willing (hf : f.Willing) (s : σ) (as : List Act) :
    f.verdicts s as = as.map (·, .ok ()) := by
  induction as generalizing s with
  | nil => rfl
  | cons a as ih =>
    cases a with
    | note d => rw [verdicts, ih, List.map_cons]
    | call tree e => rw [verdicts, ih, List.map_cons, hf]

/-- An event that is taken adds its tally, and the rest is judged in the next state. -/
theorem ofVerdicts_call {s s' : σ} {tree : Nat} {e : Event} {as : List Act}
    (hr : f s e = (.ok (), s')) :
    Report.ofVerdicts (f.verdicts s (.call tree e :: as)) =
      e.tally ++ Report.ofVerdicts (f.verdicts s' as) := by
  rw [verdicts, hr]
  rfl

/-- An event with nothing behind it adds its tally or its rejection. -/
theorem ofVerdicts_last (s : σ) (tree : Nat) (e : Event) :
    Report.ofVerdicts (f.verdicts s [.call tree e]) =
      match (f s e).1 with
      | .ok () => e.tally
      | .error fault => e.rejection tree fault := by
  rw [verdicts, Report.ofVerdicts, verdicts, Report.ofVerdicts, Report.append_nil]
  cases (f s e).1 <;> rfl

end Callback

namespace Walk

variable {f : Callback σ}

/-- The walk through a numeric option: its values are all taken, and only the verdict on the option
itself can be a refusal. -/
theorem numeric_of_lenient (hf : f.Lenient) (tree : Nat) (o : NumericOption)
    (values : List EnumValue) (s : σ) :
    numeric f tree o values s =
      (.ofVerdicts (f.verdicts s
          ((values.map (Event.value o) ++ [Event.numeric o]).map (.call tree))),
        f.feed s (values.map (Event.value o) ++ [Event.numeric o])) := by
  induction values generalizing s with
  | nil =>
    rw [numeric]
    simp only [List.map_nil, List.nil_append, List.map_cons, Callback.ofVerdicts_last,
      Callback.feed_cons, Callback.feed_nil]
    cases hr : f s (.numeric o) with
    | mk r s' => cases r <;> rfl
  | cons v vs ih =>
    have hr : f s (.value o v) = (.ok (), (f s (.value o v)).2) := Prod.ext (hf.value s o v) rfl
    rw [numeric, hr]
    simp only [ih]
    exact Prod.ext (Callback.ofVerdicts_call hr).symm rfl

/-- The walk through a text line is one call. -/
theorem text_of_lenient (tree : Nat) (o : TextOption) (s : σ) :
    text f tree o s = (.ofVerdicts (f.verdicts s [.call tree (.text o)]), f.feed s [.text o]) := by
  rw [text, Callback.ofVerdicts_last, Callback.feed_cons, Callback.feed_nil]
  cases hr : f s (.text o) with
  | mk r s' => cases r <;> rfl

mutual

/-- **A lenient walk.** A callback that refuses at most options and exits sees all events of a node,
and its verdicts on the acts make the report. -/
theorem node_of_lenient (hf : f.Lenient) (tree : Nat) :
    ∀ (n : Node) (s : σ),
      node f tree n s = (.ofVerdicts (f.verdicts s (n.acts tree)), f.feed s n.events)
  | .form form children, s => by
    have hr : f s (.enter form) = (.ok (), (f s (.enter form)).2) := Prod.ext (hf.enter s form) rfl
    rw [node, hr]
    -- the form is entered, so its children are walked, in the state that the entry leaves
    simp only [nodes_of_lenient hf tree children, Node.acts, Node.events, Callback.feed_cons,
      Callback.feed_append, Callback.feed_nil, Callback.ofVerdicts_call hr,
      Callback.verdicts_append, Report.ofVerdicts_append, Node.events_actsAll,
      Callback.ofVerdicts_last]
    generalize f.feed (f s (.enter form)).2 (Node.eventsAll children) = s'
    -- the exit of the form comes last, and only its own refusal is left to be told
    cases hx : f s' (.exit form) with
    | mk r s'' =>
      cases r with
      | ok _ => simp only [Event.tally, Report.append_nil]
      | error fault => exact Prod.ext (Report.append_assoc ..) rfl
  | .numeric o, s => by
    rw [node, numeric_of_lenient hf]
    rfl
  | .text o, s => by
    rw [node, text_of_lenient]
    rfl
  | .unrecognized .., s | .malformed .., s | .torn .., s => by
    rw [node]
    rfl

theorem nodes_of_lenient (hf : f.Lenient) (tree : Nat) :
    ∀ (ns : List Node) (s : σ),
      nodes f tree ns s =
        (.ofVerdicts (f.verdicts s (Node.actsAll tree ns)), f.feed s (Node.eventsAll ns))
  | [], s => by
    rw [nodes]
    rfl
  | n :: ns, s => by
    rw [nodes, node_of_lenient hf tree n]
    simp only [nodes_of_lenient hf tree ns, Node.actsAll, Node.eventsAll, Callback.feed_append,
      Callback.verdicts_append, Report.ofVerdicts_append, Node.events_acts]

end

/-- The acts of a walk through trees, whose indices are counted from `first`. -/
def acts (limits : Limits) (first : Nat) : List Tree → List Act
  | [] => []
  | t :: ts => (Node.ofTree limits t).acts first ++ acts limits (first + 1) ts

theorem trees_of_lenient (hf : f.Lenient) (limits : Limits) (first : Nat) (ts : List Tree) (s : σ) :
    trees f limits first ts s =
      (.ofVerdicts (f.verdicts s (acts limits first ts)),
        f.feed s (Act.events (acts limits first ts))) := by
  induction ts generalizing first s with
  | nil => rfl
  | cons t ts ih =>
    rw [trees, tree, node_of_lenient hf]
    simp only [ih, acts, Act.events_append, Callback.feed_append, Callback.verdicts_append,
      Report.ofVerdicts_append, Node.events_acts]

/-- A walk in which nothing is refused calls back and reports just its acts. -/
theorem trees_of_willing_acts (hf : f.Willing) (limits : Limits) (first : Nat) (ts : List Tree)
    (s : σ) :
    trees f limits first ts s =
      (.ofActs (acts limits first ts), f.feed s (Act.events (acts limits first ts))) := by
  rw [trees_of_lenient hf.lenient, Callback.verdicts_of_willing hf]
  rfl

end Walk

end SetupForms
