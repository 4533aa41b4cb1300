import SetupForms.Blueprint
import SetupForms.Lookup
import SetupForms.Proofs.OutlineNode
import SetupForms.Proofs.WireField

/-!
# Lookups agree with walks

A lookup reads less of each record than a walk and stops at the first fault. Where a walk calls back
for a record of the name before it reports any error, the lookup answers with the default of just
that record, and where it does neither, with the fault that there is none
(`Lookup.find_eq_of_walk`).

The walk and the lookup are different recursions over the same bytes, and neither calls the other.
They are compared record by record: what a decoded record is called by, `Event.key?`, and what a
lookup gives for it, `Event.hit`, are read off the event that the walk makes of it. The condition on
errors is carried along as `Clear`: no error stands before the event in question, or none at all if
there is no such event.
-/

namespace SetupForms

universe u

variable {σ : Type u} {w : Window} {cursor depth : Nat} {h : Header} {limits : Limits}
  {name : String}

namespace Event

/-- The name under which a lookup may find the record of an event: of a form its label, of a
numeric or text option its internal name, of a comment its label. -/
def key? : Event → Option String
  | enter form => some form.name
  | numeric o => some o.name
  | text o =>
    match o.kind with
    | .varchar => o.name
    | .comment => some o.label
  | exit _ | value .. => none

/-- What is to be found at the record of an event: of a numeric option the four bytes of its default
behind the common fields, of a text option the payload of its default, else no default. -/
def hit : Event → Lookup.Hit
  | numeric o => .value ⟨Bytes.ofUInt32 o.default, o.offset + 28, .numeric⟩
  | text o =>
    match o.default with
    | some f => .value ⟨f.data, f.dataOffset, .text⟩
    | none => .bare .comment
  | enter _ | exit _ | value .. => .bare .form

/-- Whether a lookup of `name` may find the record of an event. -/
def bears (name : String) (e : Event) : Bool := e.key? = some name

theorem find?_singleton {e : Event} {s : String} (hk : e.key? = some s) :
    ([e].find? (bears name)).map hit = if s = name then some e.hit else none := by
  by_cases hs : s = name <;> simp [bears, hk, hs]

end Event

/-- What a lookup answers when it has found something. -/
def Lookup.Hit.answer (name : String) : Lookup.Hit → Except Fault DefaultValue
  | value d => .ok d
  | bare kind => .error (.noDefault name kind)

/-! ## One record

The lookup reads the fixed part and the name of a record and no more. On a record that decodes, both
give the same answer, whatever the parts are that the lookup never looks at.
-/

/-- The four bytes of a numeric option's default stand behind its common fields. -/
theorem Layout.slice_of_numeric {fields : CommonFields} {default : UInt32}
    (hf : numeric w h = .ok (fields, default)) :
    (w.upTo h.stop).slice (defaultOffset h) 4 = .ok (Bytes.ofUInt32 default) := by
  obtain ⟨-, hf⟩ := guard_eq_ok_iff.mp hf
  obtain ⟨-, hf⟩ := guard_eq_ok_iff.mp hf
  obtain ⟨c, -, hf⟩ := bind_eq_ok_iff.mp hf
  obtain ⟨d, hd, hf⟩ := bind_eq_ok_iff.mp hf
  obtain ⟨-, rfl⟩ := Prod.mk.inj (pure_eq_ok_iff.mp hf)
  obtain ⟨ha, hb⟩ := Window.uint32_eq_ok_iff.mp hd
  exact Window.slice_eq_ok_iff_holds.mpr ⟨ha, Bytes.length_ofUInt32 d, hb⟩

namespace Lookup

/-- Comparing raw bytes compares texts, where the bytes are a text. -/
theorem textBytes_eq_iff {f : Field} {s : String} (hs : f.text = .ok s) :
    f.textBytes = Text.Utf8.encode name ↔ s = name := by
  rw [Field.text_eq_ok_iff.mp hs]
  exact ⟨Text.Utf8.encode_injective, congrArg _⟩

/-- A decoded numeric option is found under its name, and only under its name. -/
theorem numeric_of_decode {o : NumericOption} {kind : NumericKind}
    (hd : NumericOption.decode w h kind = .ok o) :
    numeric w h name = .ok (([Event.numeric o].find? (Event.bears name)).map Event.hit) := by
  obtain ⟨⟨fields, default⟩, hf, hd⟩ := bind_eq_ok_iff.mp hd
  obtain ⟨⟨s, c₁⟩, hn, hd⟩ := bind_eq_ok_iff.mp hd
  obtain ⟨⟨label, c₂⟩, -, hd⟩ := bind_eq_ok_iff.mp hd
  obtain ⟨⟨help, c₃⟩, -, hd⟩ := bind_eq_ok_iff.mp hd
  obtain ⟨values, -, hd⟩ := bind_eq_ok_iff.mp hd
  obtain rfl := pure_eq_ok_iff.mp hd
  obtain ⟨f, hr, hn⟩ := bind_eq_ok_iff.mp hn
  obtain ⟨s', hs, hn⟩ := bind_eq_ok_iff.mp hn
  obtain ⟨rfl, -⟩ := Prod.mk.inj (pure_eq_ok_iff.mp hn)
  -- the lookup reads the same fixed part and the same name, and then only compares
  refine bind_eq_ok_iff.mpr ⟨_, hf, bind_eq_ok_iff.mpr ⟨f, hr, ?_⟩⟩
  rw [Layout.slice_of_numeric hf, Event.find?_singleton (s := s') rfl]
  simp only [textBytes_eq_iff hs]
  split <;> rfl

/-- A decoded text option is found under its name, and a decoded comment under its label. -/
theorem text_of_decode {o : TextOption} {kind : TextKind}
    (hd : TextOption.decode w h kind limits = .ok o) :
    (match kind with
      | .varchar => varchar w h name
      | .comment => comment w h name) =
      .ok (([Event.text o].find? (Event.bears name)).map Event.hit) := by
  obtain ⟨fields, hf, hd⟩ := bind_eq_ok_iff.mp hd
  obtain ⟨⟨default, s, c₁⟩, hv, hd⟩ := bind_eq_ok_iff.mp hd
  obtain ⟨⟨label, c₂⟩, hl, hd⟩ := bind_eq_ok_iff.mp hd
  obtain ⟨⟨help, c₃⟩, -, hd⟩ := bind_eq_ok_iff.mp hd
  obtain ⟨-, hd⟩ := guard_eq_ok_iff.mp hd
  obtain rfl := pure_eq_ok_iff.mp hd
  cases kind with
  | varchar =>
    obtain ⟨f, hr, hv⟩ := bind_eq_ok_iff.mp hv
    obtain ⟨-, hv⟩ := guard_eq_ok_iff.mp hv
    obtain ⟨⟨t, c⟩, hn, hv⟩ := bind_eq_ok_iff.mp hv
    obtain ⟨rfl, hv'⟩ := Prod.mk.inj (pure_eq_ok_iff.mp hv)
    obtain ⟨rfl, -⟩ := Prod.mk.inj hv'
    obtain ⟨g, hg, hn⟩ := bind_eq_ok_iff.mp hn
    obtain ⟨t', ht, hn⟩ := bind_eq_ok_iff.mp hn
    obtain ⟨rfl, -⟩ := Prod.mk.inj (pure_eq_ok_iff.mp hn)
    -- a text is known by its second field, behind its default
    refine bind_eq_ok_iff.mpr ⟨_, hf, bind_eq_ok_iff.mpr ⟨f, hr, bind_eq_ok_iff.mpr ⟨g, hg, ?_⟩⟩⟩
    rw [Event.find?_singleton (s := t') rfl]
    simp only [textBytes_eq_iff ht]
    rfl
  | comment =>
    obtain ⟨rfl, hv'⟩ := Prod.mk.inj (Except.ok.inj hv)
    obtain ⟨rfl, rfl⟩ := Prod.mk.inj hv'
    obtain ⟨g, hg, hl⟩ := bind_eq_ok_iff.mp hl
    obtain ⟨t', ht, hl⟩ := bind_eq_ok_iff.mp hl
    obtain ⟨rfl, -⟩ := Prod.mk.inj (pure_eq_ok_iff.mp hl)
    -- a comment has no default and is known by its label, which is its first field
    refine bind_eq_ok_iff.mpr ⟨_, hf, bind_eq_ok_iff.mpr ⟨g, hg, ?_⟩⟩
    rw [Event.find?_singleton (s := t') rfl]
    simp only [textBytes_eq_iff ht]
    rfl

/-! ## One form

A form is known by its own name, before anything that it holds. The events of what it holds come
behind its entry, as the lookup goes on in it only if the name is another one.
-/

/-- No error stands before the record that is to be found. -/
def Clear (found : Option Event) (ds : List Diagnostic) : Prop :=
  ∀ d ∈ ds, d.severity = .error → ∃ e, found = some e ∧ e.offset ≤ d.offset

/-- Where all that comes later stands behind, no error stands before the answer of the first
part. -/
theorem Clear.of_append {es : List Event} {found : Option Event} {ds ds' : List Diagnostic}
    (hc : Clear (found.or (es.find? (Event.bears name))) (ds ++ ds'))
    (hlater : ∀ e ∈ es, ∀ d ∈ ds, d.offset < e.offset) : Clear found ds := by
  intro d hd hs
  obtain ⟨e, he, hle⟩ := hc d (List.mem_append_left _ hd) hs
  cases found with
  | some e' =>
    obtain rfl := Option.some.inj he
    exact ⟨e', rfl, hle⟩
  | none =>
    have := hlater e (List.mem_of_find?_eq_some he) d hd
    omega

/-- A record that is passed over with an error leaves nothing clear behind it. -/
theorem not_clear_rejected {tree offset : Nat} {tag : UInt32} {f : Fault} :
    ¬Clear none (Walk.rejected tree offset tag f).diagnostics := by
  intro hc
  obtain ⟨e, he, -⟩ := hc _ (List.mem_singleton.mpr rfl) rfl
  cases he

theorem find?_events_numeric (o : NumericOption) :
    (Node.numeric o).events.find? (Event.bears name) =
      [Event.numeric o].find? (Event.bears name) := by
  have hv : (o.values.map (Event.value o)).find? (Event.bears name) = none := by
    simp [Event.bears, Event.key?]
  rw [Node.events, List.find?_append, hv, Option.none_or]

/-- In a form of another name the first event with the name is in what the form holds. -/
theorem find?_events_form {form : Form} {ns : List Node} (hn : form.name ≠ name) :
    (Node.form form ns).events.find? (Event.bears name) =
      (Node.eventsAll ns).find? (Event.bears name) := by
  simp [Node.events, Event.bears, Event.key?, hn]

variable {search : (form : Form) → Form.decode w h.offset (depth + 1) = .ok form →
  Except Fault (Option Hit)}

/-- A form is compared, and then searched. -/
theorem record_of_form {form : Form} (hr : Role.ofTag h.tag = .form)
    (hm : ¬limits.maxDepth < depth + 1) (hd : Form.decode w h.offset (depth + 1) = .ok form) :
    record w limits.maxDepth name depth h search =
      if form.name = name then .ok (some (.bare .form)) else search form hd := by
  simp only [record, hr, if_neg hm]
  split
  next f hd' => cases hd.symm.trans hd'
  next form' hd' =>
    obtain rfl := Except.ok.inj (hd.symm.trans hd')
    rfl

/-- One record: where no error stands before it, the lookup finds what the walk shows. -/
theorem record_eq {tree : Nat} {inside : (form : Form) →
      Form.decode w h.offset (depth + 1) = .ok form → List Node}
    (hin : ∀ form hd,
      Clear ((Node.eventsAll (inside form hd)).find? (Event.bears name))
        (Node.reportAll tree (inside form hd)).diagnostics →
      search form hd =
        .ok (((Node.eventsAll (inside form hd)).find? (Event.bears name)).map Event.hit))
    (hc : Clear ((Node.ofHeader w limits depth h inside).events.find? (Event.bears name))
      ((Node.ofHeader w limits depth h inside).report tree).diagnostics) :
    record w limits.maxDepth name depth h search =
      .ok (((Node.ofHeader w limits depth h inside).events.find? (Event.bears name)).map
        Event.hit) := by
  cases hr : Role.ofTag h.tag with
  | form =>
    by_cases hm : limits.maxDepth < depth + 1
    · rw [Node.ofHeader_of_tooDeep hr hm] at hc
      exact absurd hc not_clear_rejected
    cases hd : Form.decode w h.offset (depth + 1) with
    | error f =>
      rw [Node.ofHeader_of_badForm hr hm hd] at hc
      exact absurd hc not_clear_rejected
    | ok form =>
      rw [Node.ofHeader_of_form hr hm hd] at hc ⊢
      rw [record_of_form hr hm hd]
      by_cases hn : form.name = name
      · -- the walk enters the form before anything else
        rw [if_pos hn]
        simp [Node.events, Event.bears, Event.key?, hn, Event.hit]
      · -- neither search counts the form itself
        rw [find?_events_form hn] at hc ⊢
        rw [if_neg hn]
        exact hin form hd (by simpa [Node.report] using hc)
  | numeric kind =>
    rw [Node.ofHeader_of_numeric hr] at hc ⊢
    simp only [record, hr]
    cases hd : NumericOption.decode w h kind with
    | error f =>
      rw [hd] at hc
      exact absurd hc not_clear_rejected
    | ok o =>
      rw [Node.ofExcept, find?_events_numeric]
      exact numeric_of_decode hd
  | text kind =>
    rw [Node.ofHeader_of_text hr] at hc ⊢
    cases hd : TextOption.decode w h kind limits with
    | error f =>
      rw [hd] at hc
      exact absurd hc not_clear_rejected
    | ok o =>
      rw [Node.ofExcept, Node.events, ← text_of_decode hd]
      simp only [record, hr]
      cases kind <;> rfl
  | unrecognized =>
    rw [Node.ofHeader_of_unrecognized hr]
    simp only [record, hr]
    rfl

theorem children_of_le (hc : w.stop ≤ cursor) {maxDepth : Nat} :
    children w maxDepth name depth cursor = .ok none := by
  rw [children, if_neg (by omega)]

/-- A search fails where no record can be framed. -/
theorem children_of_torn {f : Fault} (hc : cursor < w.stop) (hp : Header.parse w cursor = .error f)
    {maxDepth : Nat} : children w maxDepth name depth cursor = .error f := by
  rw [children, if_pos hc]
  split
  next g hp' =>
    obtain rfl := Except.error.inj (hp.symm.trans hp')
    rfl
  next h hp' => cases hp.symm.trans hp'

/-- A search takes a record, and goes on behind it if it has found nothing in it. -/
theorem children_of_framed (hc : cursor < w.stop) (hp : Header.parse w cursor = .ok h)
    {maxDepth : Nat} :
    children w maxDepth name depth cursor =
      match record w maxDepth name depth h fun form _ =>
        children (w.upTo form.stop) maxDepth name (depth + 1) form.childrenStart with
      | .ok none => children w maxDepth name depth h.stop
      | answer => answer := by
  rw [children, if_pos hc]
  split
  next f hp' => cases hp.symm.trans hp'
  next h' hp' =>
    obtain rfl := Except.ok.inj (hp.symm.trans hp')
    rfl

/-- What a form holds: where no error stands before it, the lookup finds what the walk shows
first. -/
theorem children_eq {tree : Nat}
    (hc : Clear ((Node.eventsAll (Node.children w limits depth cursor)).find? (Event.bears name))
      (Node.reportAll tree (Node.children w limits depth cursor)).diagnostics) :
    children w limits.maxDepth name depth cursor =
      .ok (((Node.eventsAll (Node.children w limits depth cursor)).find?
        (Event.bears name)).map Event.hit) := by
  fun_induction Node.children w limits depth cursor with
  | case1 w depth cursor hlt f hp =>
    exact absurd (by simpa [Node.eventsAll, Node.events, Node.reportAll, Node.report] using hc)
      not_clear_rejected
  | case2 w depth cursor hlt h hp ihin ihrest =>
    rw [Node.eventsAll, Node.reportAll, List.find?_append, Report.diagnostics_append] at hc
    -- an error of the first record stands before whatever the later records show
    have hfirst := Clear.of_append hc fun e he d hd => by
      obtain ⟨n, hn, he⟩ := Node.mem_eventsAll.mp he
      have := (Node.within_children n hn).events e he
      have := (Node.within_ofHeader hp fun _ _ => Node.within_children).diagnostics tree d hd
      omega
    rw [Node.eventsAll, List.find?_append, children_of_framed hlt hp, record_eq ihin hfirst]
    cases ha : (Node.ofHeader w limits depth h fun form _ =>
        Node.children (w.upTo form.stop) limits (depth + 1) form.childrenStart).events.find?
          (Event.bears name) with
    | some e => rfl
    | none =>
      -- both searches go on behind the record
      rw [ha, Option.none_or] at hc
      rw [Option.none_or]
      exact ihrest fun d hd hs => hc d (List.mem_append_right _ hd) hs
  | case3 w depth cursor hge => exact children_of_le (by omega)

/-- One tree: the lookup finds what the walk shows first. -/
theorem tree_eq {t : Tree} {tree : Nat}
    (hc : Clear ((Node.ofTree limits t).events.find? (Event.bears name))
      ((Node.ofTree limits t).report tree).diagnostics) :
    Lookup.tree limits t name =
      .ok (((Node.ofTree limits t).events.find? (Event.bears name)).map Event.hit) := by
  unfold Lookup.tree Tree.name Node.ofTree
  by_cases hn : t.root.name = name
  · rw [if_pos hn]
    simp [Node.events, Event.bears, Event.key?, hn, Event.hit]
  · rw [if_neg hn, find?_events_form hn]
    rw [Node.ofTree, find?_events_form hn, Node.report, Report.diagnostics_append,
      List.nil_append] at hc
    exact children_eq hc

/-! ## Trees

A lookup over several trees reads them in order and leaves out those whose root has another name, if
a name is given. The walk of the same trees numbers them, so that a diagnostic and an event are
compared by tree first and by place second.
-/

/-- Whether a diagnostic stands before a callback: in an earlier tree, or earlier in its tree. -/
def Before (d : Diagnostic) (c : Nat × Event) : Prop :=
  d.tree < c.1 ∨ d.tree = c.1 ∧ d.offset < c.2.offset

instance (d : Diagnostic) (c : Nat × Event) : Decidable (Before d c) :=
  inferInstanceAs (Decidable (_ ∨ _ ∧ _))

/-- The first callback of a name in a walk through trees. -/
def firstCall (limits : Limits) (name : String) (first : Nat) (trees : List Tree) :
    Option (Nat × Event) :=
  (Walk.calls limits first trees).find? fun c => c.2.bears name

theorem firstCall_cons {t : Tree} {ts : List Tree} {first : Nat} :
    firstCall limits name first (t :: ts) =
      (((Node.ofTree limits t).events.find? (Event.bears name)).map (first, ·)).or
        (firstCall limits name (first + 1) ts) := by
  rw [firstCall, Walk.calls_cons, List.find?_append, List.find?_map]
  rfl

/-- The trees that are searched. -/
def selected (form? : Option String) (trees : List Tree) : List Tree :=
  trees.filter fun t => form?.all (· = t.name)

theorem selected_cons_of_pos {form? : Option String} {t : Tree} {ts : List Tree}
    (ht : form?.all (· = t.name)) : selected form? (t :: ts) = t :: selected form? ts :=
  List.filter_cons_of_pos ht

theorem selected_cons_of_neg {form? : Option String} {t : Tree} {ts : List Tree}
    (ht : ¬form?.all (· = t.name)) : selected form? (t :: ts) = selected form? ts :=
  List.filter_cons_of_neg ht

/-- The first tree is searched if it may be, and the others if it has nothing to say. -/
theorem find_cons {form? : Option String} {t : Tree} {ts : List Tree} :
    find limits form? name (t :: ts) =
      if form?.all (· = t.name) then
        match tree limits t name with
        | .error f => .error f
        | .ok (some hit) => hit.answer name
        | .ok none => find limits form? name ts
      else find limits form? name ts := by
  have hany : form?.any (· ≠ t.name) = !form?.all (· = t.name) := by
    cases form? <;> simp
  rw [find, hany]
  by_cases ht : form?.all (· = t.name)
  · rw [if_pos ht, if_neg (by simp [ht])]
    rcases tree limits t name with f | _ | d | kind <;> rfl
  · rw [if_neg ht, if_pos (by simp [ht])]

/-- The errors that stand before a callback of a later tree, or before one of this tree, leave the
events of this tree clear. -/
theorem clear_of_firstCall {t : Tree} {ts : List Tree} {first : Nat}
    (hc : ∀ d ∈ ((Node.ofTree limits t).report first).diagnostics, d.severity = .error →
      ∃ c, firstCall limits name first (t :: ts) = some c ∧ ¬Before d c) :
    Clear ((Node.ofTree limits t).events.find? (Event.bears name))
      ((Node.ofTree limits t).report first).diagnostics := by
  intro d hd hs
  -- an error of this tree stands before any call of a later one
  have htree := Node.tree_of_mem_report _ hd
  obtain ⟨c, hfound, hbefore⟩ := hc d hd hs
  rw [firstCall_cons] at hfound
  cases he : (Node.ofTree limits t).events.find? (Event.bears name) with
  | some e =>
    rw [he] at hfound
    obtain rfl := Option.some.inj hfound
    refine ⟨e, rfl, Nat.not_lt.mp fun hlt => hbefore (.inr ⟨htree, hlt⟩)⟩
  | none =>
    rw [he] at hfound
    have := Walk.first_le_of_mem_calls (List.mem_of_find?_eq_some hfound)
    exact absurd (.inl (by omega)) hbefore

/-- Where no error stands before the first callback of the name, the lookup answers with its
record. -/
theorem find_eq {f : Callback σ} (hf : f.Willing) {form? : Option String} {first : Nat} {s : σ}
    {trees : List Tree}
    (hc : ∀ d ∈ (Walk.trees f limits first (selected form? trees) s).1.diagnostics,
      d.severity = .error →
      ∃ c, firstCall limits name first (selected form? trees) = some c ∧ ¬Before d c) :
    find limits form? name trees =
      match firstCall limits name first (selected form? trees) with
      | some c => c.2.hit.answer name
      | none => .error (.optionNotFound name) := by
  induction trees generalizing first s with
  | nil => rfl
  | cons t ts ih =>
    by_cases ht : form?.all (· = t.name)
    · rw [selected_cons_of_pos ht] at hc ⊢
      rw [Walk.trees_cons_of_willing hf] at hc
      have hclear := clear_of_firstCall fun d hd => hc d (List.mem_append_left _ hd)
      rw [find_cons, if_pos ht, tree_eq hclear]
      cases he : (Node.ofTree limits t).events.find? (Event.bears name) with
      | some e =>
        rw [firstCall_cons, he]
        rfl
      | none =>
        -- nothing in this tree, so the errors of the later ones decide
        rw [firstCall_cons, he] at hc ⊢
        exact ih fun d hd => hc d (List.mem_append_right _ hd)
    · rw [selected_cons_of_neg ht] at hc ⊢
      rw [find_cons, if_neg ht]
      exact ih hc

/-- **Lookups agree with walks.** Let a callback that refuses nothing walk the searched trees. Where
the first callback of the name has no error before it, the lookup answers with the default of that
very record, or that it has none. Where no callback bears the name and there is no error, the option
is not found. Unrecognized records do not matter, nor do errors further on. -/
theorem find_eq_of_walk {f : Callback σ} (hf : f.Willing) (s : σ) (limits : Limits)
    (form? : Option String) (name : String) (trees : List Tree) :
    let searched := selected form? trees
    let walk := Walk.trees f limits 0 searched s
    walk.2 = f.feed s ((Walk.calls limits 0 searched).map Prod.snd) ∧
      (∀ c, firstCall limits name 0 searched = some c →
        (∀ d ∈ walk.1.diagnostics, d.severity = .error → ¬Before d c) →
        find limits form? name trees = c.2.hit.answer name) ∧
      (firstCall limits name 0 searched = none →
        (∀ d ∈ walk.1.diagnostics, d.severity ≠ .error) →
        find limits form? name trees = .error (.optionNotFound name)) := by
  intro searched walk
  refine ⟨Walk.trees_of_willing hf limits 0 searched s, fun c hfirst hbefore => ?_,
    fun hnone herror => ?_⟩
  · rw [find_eq hf fun d hd hs => ⟨c, hfirst, hbefore d hd hs⟩, hfirst]
  · rw [find_eq hf fun d hd hs => absurd hs (herror d hd), hnone]

/-- A tree that holds an unrecognized record, a form with the number `t`, and a number that does
not decode. -/
def sample : List Tree :=
  let number := Blueprint.OptionSpec.numeric .number ⟨2, 0, ⟨0⟩⟩ "t" "T" 7
  let bytes := Blueprint.encode <| .form ⟨1, 0, ⟨0⟩⟩ (some (.text .label "Boot"))
    [.verbatim (Blueprint.frame 0x9999 none []),
      .form ⟨3, 0, ⟨0⟩⟩ (some (.text .label "Menu")) [.option number] none,
      .option { number with name := none }] none
  (Tree.ofBytes bytes.toArray).toOption.toList

/-- In one of the trees the name is found, and in trees of a certain root it is not. -/
theorem find_sample :
    find {} none "t" sample = .ok ⟨[7, 0, 0, 0], 126, .numeric⟩ ∧
      find {} (some "Main") "t" sample = .error (.optionNotFound "t") :=
  ⟨(find_eq_of_walk Callback.willing_silent () {} none "t" sample).2.1
      (0, .numeric ⟨98, 60, .number, ⟨2, 0, ⟨0⟩⟩, 7, "t", "T", none, []⟩)
      (by decide +kernel) (by decide +kernel),
    (find_eq_of_walk Callback.willing_silent () {} (some "Main") "t" sample).2.2
      (by decide +kernel) (by decide +kernel)⟩

end Lookup

end SetupForms
