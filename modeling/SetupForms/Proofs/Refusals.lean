import SetupForms.Proofs.Acts

/-!
# What a refusal costs

A callback may refuse any event, and whether it does may depend on all that it was called back with
before. `Callback.led` leads a callback through acts and leaves out what goes with a refusal: with a
form that is not entered all that stands up to its exit, with a value the later values of its option
and the option itself, and with other events nothing. Walks do just that
(`Walk.node_eq_led`), so that a refusal costs its record and nothing else (`Walk.tree_eq_led`).

The statement is about every callback, so that nothing can be said of when it refuses. What can be
said is where the walk goes on: behind a suffix of the acts that depends on the refused event alone.
`Node.Leads` ties a walk to acts with verdicts, composes along rows of nodes, and is proved by going
through the constructors of a node.
-/

namespace SetupForms

universe u

variable {σ : Type u}

/-! ## What goes with a refusal

A refused form is left with everything up to its exit. Forms that are nested in it have exits of
their own, which are counted. A refused value is left with the rest of its option.
-/

/-- The diagnostic of the record that is rejected when an event is refused. With a value it is the
option that goes. -/
def Event.refusal (tree : Nat) (fault : Fault) : Event → Diagnostic
  | enter form | exit form => ⟨tree, form.offset, Kind.form.tag, .error, fault⟩
  | value o _ | numeric o => ⟨tree, o.offset, o.kind.kind.tag, .error, fault⟩
  | text o => ⟨tree, o.offset, o.kind.kind.tag, .error, fault⟩

theorem Event.rejection_eq (tree : Nat) (fault : Fault) (e : Event) :
    e.rejection tree fault = .skip (e.refusal tree fault) := by
  cases e <;> rfl

namespace Act

/-- What is left behind the exit of a form, if `nested` forms inside it are still to be left. -/
def behindExit : Nat → List Act → List Act
  | _, [] => []
  | nested, call _ (.enter _) :: as => behindExit (nested + 1) as
  | 0, call _ (.exit _) :: as => as
  | nested + 1, call _ (.exit _) :: as => behindExit nested as
  | nested, call _ (.value ..) :: as | nested, call _ (.numeric _) :: as
  | nested, call _ (.text _) :: as | nested, note _ :: as => behindExit nested as

/-- What is left behind the next numeric option. -/
def behindNumeric : List Act → List Act
  | [] => []
  | call _ (.numeric _) :: as => as
  | call _ (.enter _) :: as | call _ (.exit _) :: as | call _ (.value ..) :: as
  | call _ (.text _) :: as | note _ :: as => behindNumeric as

/-- What is left of the acts behind an event with its verdict. -/
def behind : Event → Except Fault Unit → List Act → List Act
  | _, .ok (), as => as
  | .enter _, .error _, as => behindExit 0 as
  | .value .., .error _, as => behindNumeric as
  | .exit _, .error _, as | .numeric _, .error _, as | .text _, .error _, as => as

theorem behindExit_suffix (nested : Nat) (as : List Act) : behindExit nested as <:+ as := by
  fun_induction behindExit nested as
  case case1 => exact List.suffix_refl _
  case case3 => exact List.suffix_cons _ _
  case case2 ih | case4 ih | case5 ih | case6 ih | case7 ih | case8 ih =>
    exact ih.trans (List.suffix_cons _ _)

theorem behindNumeric_suffix (as : List Act) : behindNumeric as <:+ as := by
  fun_induction behindNumeric as
  case case1 => exact List.suffix_refl _
  case case2 => exact List.suffix_cons _ _
  case case3 ih | case4 ih | case5 ih | case6 ih | case7 ih =>
    exact ih.trans (List.suffix_cons _ _)

/-- Behind what goes with an event stands a suffix. -/
theorem behind_suffix (e : Event) (verdict : Except Fault Unit) (as : List Act) :
    behind e verdict as <:+ as := by
  cases verdict with
  | ok _ => cases e <;> exact List.suffix_refl _
  | error fault =>
    cases e with
    | enter form => exact behindExit_suffix 0 as
    | value o v => exact behindNumeric_suffix as
    | exit form | numeric o | text o => exact List.suffix_refl _

end Act

namespace Callback

/-- The acts that a callback is led through, with its verdicts. What goes with a refusal is left
out. -/
def led (f : Callback σ) : σ → List Act → List (Act × Except Fault Unit)
  | _, [] => []
  | s, .note d :: as => (.note d, .ok ()) :: led f s as
  | s, .call tree e :: as =>
    (.call tree e, (f s e).1) :: led f (f s e).2 (Act.behind e (f s e).1 as)
termination_by _ as => as.length
decreasing_by
  · exact Nat.lt_succ_self _
  · exact Nat.lt_succ_of_le (Act.behind_suffix ..).length_le

/-- The callback that also keeps what it is called back with, in order. -/
def logged (f : Callback σ) : Callback (σ × List Event) := fun (s, es) e =>
  let (verdict, t) := f s e
  (verdict, (t, es ++ [e]))

variable {f : Callback σ}

/-- What is left is called back in its order. -/
theorem sublist_led (s : σ) (as : List Act) : ((f.led s as).map Prod.fst).Sublist as := by
  fun_induction led f s as with
  | case1 => exact .slnil
  | case2 s d as ih => exact ih.cons_cons _
  | case3 s tree e as ih => exact (ih.trans (Act.behind_suffix ..).sublist).cons_cons _

/-- The verdicts are those that the callback gives to the acts that are left. -/
theorem verdicts_led (s : σ) (as : List Act) :
    f.verdicts s ((f.led s as).map Prod.fst) = f.led s as := by
  fun_induction led f s as with
  | case1 => rfl
  | case2 s d as ih => exact congrArg _ ih
  | case3 s tree e as ih => exact congrArg _ ih

theorem led_logged (s : σ) (es : List Event) (as : List Act) :
    f.logged.led (s, es) as = f.led s as := by
  fun_induction led f s as generalizing es with
  | case1 => rw [led]
  | case2 s d as ih => rw [led, ih]
  | case3 s tree e as ih =>
    rw [led]
    exact congrArg _ (ih (es ++ [e]))

theorem feed_logged (s : σ) (es fs : List Event) :
    f.logged.feed (s, es) fs = (f.feed s fs, es ++ fs) := by
  induction fs generalizing s es with
  | nil => rw [feed_nil, feed_nil, List.append_nil]
  | cons e fs ih =>
    rw [feed_cons, feed_cons, logged, ih, List.append_assoc]
    rfl

end Callback

/-! ## What goes with a record goes alone

The acts of a node are complete: each form in them is left again. So what is counted up to the exit
of a form is exactly what the form holds, and no act of another record goes with it.
-/

namespace Node

variable {tree : Nat}

mutual

/-- Forms that are nested deeper are left before the form itself. -/
theorem behindExit_acts (nested : Nat) (rest : List Act) :
    ∀ n : Node, Act.behindExit nested (n.acts tree ++ rest) = Act.behindExit nested rest
  | form f children => by
    rw [acts, List.cons_append, List.append_assoc, Act.behindExit,
      behindExit_actsAll (nested + 1) _ children]
    rfl
  | numeric o => by
    rw [acts]
    induction o.values with
    | nil => simp [Act.behindExit]
    | cons v vs ih => simpa [Act.behindExit] using ih
  | text _ | unrecognized .. | malformed .. | torn .. => by
    simp only [acts, List.cons_append, List.nil_append, Act.behindExit]

theorem behindExit_actsAll (nested : Nat) (rest : List Act) :
    ∀ ns : List Node, Act.behindExit nested (actsAll tree ns ++ rest) = Act.behindExit nested rest
  | [] => rfl
  | n :: ns => by
    rw [actsAll, List.append_assoc, behindExit_acts nested _ n, behindExit_actsAll nested rest ns]

end

/-- Behind a value stand the other values of its option and the option. -/
theorem behindNumeric_values (o : NumericOption) (vs : List EnumValue) (rest : List Act) :
    Act.behindNumeric ((vs.map (Event.value o) ++ [Event.numeric o]).map (.call tree) ++ rest) =
      rest := by
  induction vs with
  | nil => rfl
  | cons v vs ih => exact ih

end Node

/-! ## Walks are led

A callback is led through acts as a walk does it if the verdicts, the report and the state are the
same. This is what is shown for each node, for the later values of an option as well as for whole
rows.
-/

/-- A walk through acts. Whatever comes behind them, the callback is led through `vs` of them with
these verdicts, which make the report. -/
structure Leads (f : Callback σ) (s : σ) (as : List Act) (vs : List (Act × Except Fault Unit))
    (walk : Report × σ) : Prop where
  /-- the callback is led through these acts, and then through what comes behind -/
  led_append : ∀ rest, f.led s (as ++ rest) = vs ++ f.led walk.2 rest
  /-- the report is that of the verdicts -/
  report_eq : walk.1 = .ofVerdicts vs
  /-- the callback has seen these acts -/
  state_eq : walk.2 = f.feed s (Act.events (vs.map Prod.fst))

namespace Leads

variable {f : Callback σ} {s s' : σ} {as bs : List Act} {vs ws : List (Act × Except Fault Unit)}
  {walk walk' : Report × σ} {tree : Nat} {e : Event} {verdict : Except Fault Unit} {fault : Fault}

theorem nil (f : Callback σ) (s : σ) : Leads f s [] [] ({}, s) := ⟨fun _ => rfl, rfl, rfl⟩

theorem append (h : Leads f s as vs walk) (h' : Leads f walk.2 bs ws walk') :
    Leads f s (as ++ bs) (vs ++ ws) (walk.1 ++ walk'.1, walk'.2) where
  led_append rest := by
    rw [List.append_assoc, h.led_append, h'.led_append, List.append_assoc]
  report_eq := by rw [Report.ofVerdicts_append, h.report_eq, h'.report_eq]
  state_eq := by
    rw [List.map_append, Act.events_append, Callback.feed_append, ← h.state_eq, h'.state_eq]

/-- A call, with all that goes with it if it is refused. -/
theorem call (hr : f s e = (verdict, s'))
    (hgone : ∀ rest, Act.behind e verdict (as ++ rest) = rest) :
    Leads f s (.call tree e :: as) [(.call tree e, verdict)]
      ((Act.call tree e).report verdict, s') where
  led_append rest := by
    rw [List.cons_append, Callback.led, hr, hgone]
    rfl
  report_eq := (Report.append_nil _).symm
  state_eq := by
    show s' = (f s e).2
    rw [hr]

theorem note (f : Callback σ) (s : σ) (d : Diagnostic) :
    Leads f s [.note d] [(.note d, .ok ())] (.skip d, s) where
  led_append rest := by rw [List.singleton_append, Callback.led, List.singleton_append]
  report_eq := (Report.append_nil _).symm
  state_eq := rfl

theorem taken (tree : Nat) (hr : f s e = (.ok (), s')) :
    Leads f s [.call tree e] [(.call tree e, .ok ())] (e.tally, s') :=
  call hr fun _ => by cases e <;> rfl

/-- With a record that is no form and no value nothing else goes. -/
theorem alone (tree : Nat) (hr : f s e = (.error fault, s'))
    (hgone : ∀ rest, Act.behind e (.error fault) rest = rest) :
    Leads f s [.call tree e] [(.call tree e, .error fault)] (e.rejection tree fault, s') :=
  call hr hgone

end Leads

namespace Walk

variable {f : Callback σ}

/-- A walk through the values of an option leads the callback through them and then to the option.
-/
theorem leads_numeric (tree : Nat) (o : NumericOption) (values : List EnumValue) (s : σ) :
    ∃ vs, Leads f s ((values.map (Event.value o) ++ [Event.numeric o]).map (.call tree)) vs
      (numeric f tree o values s) := by
  induction values generalizing s with
  | nil =>
    rw [numeric]
    cases hr : f s (.numeric o) with
    | mk verdict s' =>
      cases verdict with
      | ok _ => exact ⟨_, .taken tree hr⟩
      | error fault => exact ⟨_, .alone tree hr fun _ => rfl⟩
  | cons v values ih =>
    rw [numeric]
    -- A value that is taken goes before the others. With one that is refused the others go, and so
    -- does the option.
    cases hr : f s (.value o v) with
    | mk verdict s' =>
      cases verdict with
      | ok _ =>
        obtain ⟨vs, hvs⟩ := ih s'
        exact ⟨_, (Leads.taken tree hr).append hvs⟩
      | error fault => exact ⟨_, .call hr (Node.behindNumeric_values o values)⟩

theorem leads_text (tree : Nat) (o : TextOption) (s : σ) :
    ∃ vs, Leads f s [.call tree (.text o)] vs (text f tree o s) := by
  rw [text]
  cases hr : f s (.text o) with
  | mk verdict s' =>
    cases verdict with
    | ok _ => exact ⟨_, .taken tree hr⟩
    | error fault => exact ⟨_, .alone tree hr fun _ => rfl⟩

mutual

/-- A walk through a node leads the callback through its acts. -/
theorem leads_node (tree : Nat) :
    ∀ (n : Node) (s : σ), ∃ vs, Leads f s (n.acts tree) vs (node f tree n s)
  | .form form children, s => by
    rw [node, Node.acts]
    cases hr : f s (.enter form) with
    | mk verdict s' =>
      cases verdict with
      | error fault =>
        refine ⟨_, .call hr fun rest => ?_⟩
        rw [List.append_assoc]
        exact Node.behindExit_actsAll 0 _ children
      | ok _ =>
        obtain ⟨vs, hvs⟩ := leads_nodes tree children s'
        have hinside := (Leads.taken tree hr).append hvs
        cases hx : f (nodes f tree children s').2 (.exit form) with
        | mk verdict s'' =>
          cases verdict with
          | ok _ =>
            have hall := hinside.append (.taken tree hx)
            -- the exit of a form counts as nothing
            simp only [Event.tally, Report.append_nil] at hall
            simp only [hx]
            exact ⟨_, hall⟩
          | error fault =>
            simp only [hx]
            exact ⟨_, hinside.append (.alone tree hx fun _ => rfl)⟩
  | .numeric o, s => by
    rw [node]
    exact leads_numeric tree o o.values s
  | .text o, s => by
    rw [node]
    exact leads_text tree o s
  | .unrecognized offset tag, s | .malformed offset tag fault, s | .torn offset tag fault, s => by
    rw [node]
    exact ⟨_, .note f s _⟩

/-- A walk through nodes leads the callback through their acts. -/
theorem leads_nodes (tree : Nat) :
    ∀ (ns : List Node) (s : σ), ∃ vs, Leads f s (Node.actsAll tree ns) vs (nodes f tree ns s)
  | [], s => by
    rw [nodes]
    exact ⟨_, .nil f s⟩
  | n :: ns, s => by
    obtain ⟨vs, hvs⟩ := leads_node tree n s
    obtain ⟨ws, hws⟩ := leads_nodes tree ns (node f tree n s).2
    rw [nodes]
    exact ⟨_, hvs.append hws⟩

end

/-- **A walk with refusals.** It calls back and reports the acts that the callback is led through,
with its verdicts. -/
theorem node_eq_led (f : Callback σ) (tree : Nat) (n : Node) (s : σ) :
    node f tree n s =
      (.ofVerdicts (f.led s (n.acts tree)),
        f.feed s (Act.events ((f.led s (n.acts tree)).map Prod.fst))) := by
  obtain ⟨vs, hvs⟩ := leads_node (f := f) tree n s
  have hled := hvs.led_append []
  rw [Callback.led, List.append_nil, List.append_nil] at hled
  rw [hled]
  exact Prod.ext hvs.report_eq hvs.state_eq

end Walk

/-! ## What stands behind a call

That the suffix which is left out belongs to the refused record, and to no other one, is said by its
form: the children and the exit of a form, or the later values and the option.
-/

namespace Node

variable {tree : Nat} {e : Event} {past rest : List Act}

/-- What stands behind a call: behind the entry of a form what it holds and its exit, behind a value
the later values of its option and the option. -/
def Closed (tree : Nat) : Event → List Act → Prop
  | .enter f, rest =>
    ∃ children after, rest = actsAll tree children ++ .call tree (.exit f) :: after
  | .value o v, rest =>
    ∃ before later after, o.values = before ++ v :: later ∧
      rest = (later.map (Event.value o) ++ [Event.numeric o]).map (.call tree) ++ after
  | .exit _, _ | .numeric _, _ | .text _, _ => True

/-- More acts behind do not change what a call has begun. -/
theorem Closed.append (h : Closed tree e rest) (more : List Act) :
    Closed tree e (rest ++ more) := by
  cases e with
  | enter f =>
    obtain ⟨children, after, rfl⟩ := h
    exact ⟨children, after ++ more, List.append_assoc ..⟩
  | value o v =>
    obtain ⟨before, later, after, hvalues, rfl⟩ := h
    exact ⟨before, later, after ++ more, hvalues, List.append_assoc ..⟩
  | exit f | numeric o | text o => trivial

/-- What stands in one of two lists stands in the first or in the second. -/
theorem exists_of_append_eq {α : Type} {as bs past rest : List α} {a : α}
    (h : as ++ bs = past ++ a :: rest) :
    (∃ mid, as = past ++ a :: mid ∧ rest = mid ++ bs) ∨
      ∃ mid, past = as ++ mid ∧ bs = mid ++ a :: rest := by
  rcases List.append_eq_append_iff.mp h with ⟨mid, hpast, hbs⟩ | ⟨mid, has, hrest⟩
  · exact .inr ⟨mid, hpast, hbs⟩
  · cases mid with
    | nil => exact .inr ⟨[], by rw [List.append_nil, has, List.append_nil], hrest.symm⟩
    | cons b mid =>
      obtain ⟨rfl, rfl⟩ := List.cons.inj hrest
      exact .inl ⟨mid, has, rfl⟩

/-- Behind a value stand the later values and the option. -/
theorem closed_values {o : NumericOption} (before : List EnumValue) {values : List EnumValue}
    {t : Nat} (ho : o.values = before ++ values)
    (h : (values.map (Event.value o) ++ [Event.numeric o]).map (.call tree) =
      past ++ .call t e :: rest) : t = tree ∧ Closed tree e rest := by
  induction values generalizing before past with
  | nil =>
    cases past with
    | nil =>
      cases h
      exact ⟨rfl, trivial⟩
    | cons a past => cases past <;> cases h
  | cons v vs ih =>
    cases past with
    | nil =>
      cases h
      exact ⟨rfl, before, vs, [], ho, (List.append_nil _).symm⟩
    | cons a past =>
      refine ih (before ++ [v]) ?_ (List.cons.inj h).2
      rw [ho, List.append_assoc]
      rfl

mutual

/-- Whatever a walk has begun when it calls back is brought to its end behind the call. -/
theorem closed_of_acts {t : Nat} :
    ∀ (n : Node) {past rest : List Act}, n.acts tree = past ++ .call t e :: rest →
      t = tree ∧ Closed tree e rest
  | form f children, past, rest, h => by
    rw [acts] at h
    cases past with
    | nil =>
      cases h
      exact ⟨rfl, children, [], rfl⟩
    | cons a past =>
      -- the call is in what the form holds, or it is the exit
      rcases exists_of_append_eq (List.cons.inj h).2 with ⟨mid, hin, rfl⟩ | ⟨mid, -, hout⟩
      · obtain ⟨ht, hc⟩ := closed_of_actsAll children hin
        exact ⟨ht, hc.append _⟩
      · cases mid with
        | nil =>
          cases hout
          exact ⟨rfl, trivial⟩
        | cons b mid => cases mid <;> cases hout
  | numeric o, past, rest, h => closed_values [] rfl h
  | text o, past, rest, h => by
    cases past with
    | nil =>
      cases h
      exact ⟨rfl, trivial⟩
    | cons a past => cases past <;> cases h
  | unrecognized .., past, rest, h | malformed .., past, rest, h | torn .., past, rest, h => by
    cases past with
    | nil => cases h
    | cons a past => cases past <;> cases h

theorem closed_of_actsAll {t : Nat} :
    ∀ (ns : List Node) {past rest : List Act}, actsAll tree ns = past ++ .call t e :: rest →
      t = tree ∧ Closed tree e rest
  | [], past, rest, h => by cases past <;> cases h
  | n :: ns, past, rest, h => by
    rcases exists_of_append_eq h with ⟨mid, hin, rfl⟩ | ⟨mid, -, hout⟩
    · obtain ⟨ht, hc⟩ := closed_of_acts n hin
      exact ⟨ht, hc.append _⟩
    · exact closed_of_actsAll ns hout

end

end Node

/-! ## Reports with refusals

The report of a walk is determined by the verdicts: a call that is taken is counted, and one that is
refused is a diagnostic, as is a note.
-/

namespace Act

/-- The diagnostic that an act with its verdict leaves, if it leaves one. -/
def diagnostic? : Act × Except Fault Unit → Option Diagnostic
  | (note d, _) => some d
  | (call tree e, .error fault) => some (e.refusal tree fault)
  | (call _ _, .ok ()) => none

/-- Whether an act with its verdict is a call that is taken, of an event of some kind. -/
def passes (kind : Event → Bool) : Act × Except Fault Unit → Bool
  | (call _ e, .ok ()) => kind e
  | (call _ _, .error _) | (note _, _) => false

end Act

namespace Report

/-- A report has the notes among the acts and the refusals, each in its place. -/
theorem diagnostics_ofVerdicts (vs : List (Act × Except Fault Unit)) :
    (ofVerdicts vs).diagnostics = vs.filterMap Act.diagnostic? := by
  induction vs with
  | nil => rfl
  | cons v vs ih =>
    obtain ⟨a, verdict⟩ := v
    rw [ofVerdicts, diagnostics_append, ih]
    cases a with
    | note d => rfl
    | call tree e =>
      cases verdict with
      | ok _ => cases e <;> rfl
      | error fault =>
        rw [Act.report, Event.rejection_eq]
        rfl

/-- What is noted without a call is in the report. -/
theorem mem_diagnostics_of_notes {d : Diagnostic} {vs : List (Act × Except Fault Unit)}
    (hd : d ∈ Act.notes (vs.map Prod.fst)) : d ∈ (ofVerdicts vs).diagnostics := by
  obtain ⟨⟨a, verdict⟩, hmem, rfl⟩ := List.mem_map.mp (Act.mem_notes_iff.mp hd)
  rw [diagnostics_ofVerdicts]
  exact List.mem_filterMap.mpr ⟨_, hmem, rfl⟩

/-- A report counts the calls that are taken by their kinds. -/
theorem counts_ofVerdicts (vs : List (Act × Except Fault Unit)) :
    (ofVerdicts vs).forms = vs.countP (Act.passes Event.isEnter) ∧
      (ofVerdicts vs).options = vs.countP (Act.passes Event.isOption) ∧
      (ofVerdicts vs).enumValues = vs.countP (Act.passes Event.isValue) ∧
      (ofVerdicts vs).skipped = (ofVerdicts vs).diagnostics.length := by
  induction vs with
  | nil => exact ⟨rfl, rfl, rfl, rfl⟩
  | cons v vs ih =>
    obtain ⟨a, verdict⟩ := v
    obtain ⟨hf, ho, hv, hs⟩ := ih
    simp only [ofVerdicts, forms_append, options_append, enumValues_append, skipped_append,
      diagnostics_append, List.length_append, List.countP_cons, hf, ho, hv, hs]
    cases a with
    | note d => simp [Act.report, Act.passes, skip]
    | call tree e =>
      cases verdict with
      | ok _ =>
        cases e <;> simp [Act.report, Act.passes, Event.tally, Event.isEnter, Event.isOption,
          Event.isValue, Nat.add_comm]
      | error fault =>
        rw [Act.report, Event.rejection_eq]
        simp [Act.passes, skip]

end Report

/-! ## The walk of a tree

The parts are put together for the outline of a tree. The suffixes are described through the
outline, the lists of verdicts through the callback.
-/

namespace Walk

/-- **A refusal costs its record and nothing else.** Let a walk in which nothing is refused do the
acts. A callback is led through them by its own verdicts. What goes with a form that is not entered
is all that the form holds and its exit, and what goes with a value is the later values of its
option and the option. The report has the notes among the acts that are left and one error for each
refusal, in their order, and counts what was taken. -/
theorem tree_eq_led (f : Callback σ) (s : σ) (limits : Limits) (index : Nat) (t : Tree) :
    let acts := (Node.ofTree limits t).acts index
    let willing := tree (Callback.recorder fun _ => none) limits index t #[]
    let vs := f.led s acts
    let walk := tree f limits index t s
    willing.2 = (Act.events acts).toArray ∧ willing.1.diagnostics = Act.notes acts ∧
      tree f.logged limits index t (s, []) = (walk.1, walk.2, Act.events (vs.map Prod.fst)) ∧
      f.verdicts s (vs.map Prod.fst) = vs ∧ (vs.map Prod.fst).Sublist acts ∧
      (∀ past j form rest, acts = past ++ .call j (.enter form) :: rest → ∃ children,
        rest = Node.actsAll index children ++ .call index (.exit form) :: Act.behindExit 0 rest) ∧
      (∀ past j o v rest, acts = past ++ .call j (.value o v) :: rest → ∃ before later,
        o.values = before ++ v :: later ∧
          rest = (later.map (Event.value o) ++ [Event.numeric o]).map (.call index) ++
            Act.behindNumeric rest) ∧
      walk.1.diagnostics = vs.filterMap Act.diagnostic? ∧
      walk.1.forms = vs.countP (Act.passes Event.isEnter) ∧
      walk.1.options = vs.countP (Act.passes Event.isOption) ∧
      walk.1.enumValues = vs.countP (Act.passes Event.isValue) ∧
      walk.1.skipped = walk.1.diagnostics.length := by
  intro acts willing vs walk
  have hwalk : walk = (.ofVerdicts vs, f.feed s (Act.events (vs.map Prod.fst))) :=
    node_eq_led f index _ s
  have hlogged : tree f.logged limits index t (s, []) =
      (.ofVerdicts vs, f.feed s (Act.events (vs.map Prod.fst)), Act.events (vs.map Prod.fst)) := by
    rw [tree, node_eq_led, Callback.led_logged, Callback.feed_logged, List.nil_append]
  have hwilling : willing = (.ofActs acts, (Act.events acts).toArray) := by
    show node _ index (Node.ofTree limits t) #[] = _
    rw [node_of_lenient Callback.willing_recorder.lenient,
      Callback.verdicts_of_willing Callback.willing_recorder, Callback.feed_recorder,
      Array.empty_append, Node.events_acts]
    rfl
  obtain ⟨hforms, hoptions, hvalues, hskipped⟩ := Report.counts_ofVerdicts vs
  rw [hwilling, hlogged, hwalk]
  refine ⟨rfl, Report.diagnostics_ofActs acts, rfl, Callback.verdicts_led s acts,
    Callback.sublist_led s acts, fun past j form rest hsplit => ?_,
    fun past j o v rest hsplit => ?_, Report.diagnostics_ofVerdicts vs, hforms, hoptions, hvalues,
    hskipped⟩
  · -- up to the exit there is just what the form holds
    obtain ⟨-, children, after, rfl⟩ := Node.closed_of_acts _ hsplit
    exact ⟨children, by rw [Node.behindExit_actsAll]; rfl⟩
  · obtain ⟨-, before, later, after, hvalues, rfl⟩ := Node.closed_of_acts _ hsplit
    exact ⟨before, later, hvalues, by rw [Node.behindNumeric_values]⟩

end Walk

end SetupForms
