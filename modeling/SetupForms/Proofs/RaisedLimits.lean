import SetupForms.Proofs.Locality
import SetupForms.Proofs.Padding
import SetupForms.Proofs.WireOption

/-!
# Raised limits

Raising the limits only adds to a walk. What is called back under the lower limits is what is called
back under the higher ones, less the forms that are too deep, with all they hold, and less the texts
whose defaults are too long (`Limits.prune`). The outlines are related node by node
(`Node.Curtailed`), and where no limit is met they are the same. A lookup answers the same under
both, unless it meets a form that is too deep (`Lookup.find_raised`).

What a lower limit takes away is not just missing: a form that is too deep is one node with a fault
under the lower limit, and under the higher one a node with all its children. `Node.Curtailed`
relates two rows of nodes with that difference and no other, and `Limits.prune` says the same of
their events, going from the left and leaving out everything up to the exit of a form that it has
dropped.
-/

namespace SetupForms

universe u

variable {σ : Type u} {w : Window} {cursor depth : Nat} {h : Header} {limits more : Limits}
  {name : String} {ns ns' : List Node} {es rest : List Event}

/-- Limits are raised in both bounds. -/
instance : LE Limits :=
  ⟨fun a b => a.maxDefaultLength ≤ b.maxDefaultLength ∧ a.maxDepth ≤ b.maxDepth⟩

/-- Whether a fault says that a limit is met. -/
def Fault.isOfLimits : Fault → Bool
  | nestingTooDeep .. | fieldTooLong .. => true
  | _ => false

/-- The form that an event enters. -/
def Event.entered? : Event → Option Form
  | enter form => some form
  | exit _ | value .. | numeric _ | text _ => none

namespace Limits

/-- Whether an event is about a form that is not too deep, about a text with a default that is not
too long, or about anything else. -/
def allows (limits : Limits) : Event → Bool
  | .enter form | .exit form => form.depth ≤ limits.maxDepth
  | .text o => o.default.all (·.dataLength ≤ limits.maxDefaultLength)
  | .value .. | .numeric _ => true

/-- What is left of events under the limits. A form that is too deep goes with all up to its exit.
The option is the form whose exit is awaited. -/
def prune (limits : Limits) : Option Form → List Event → List Event
  | _, [] => []
  | some form, e :: es => prune limits (if e = .exit form then none else some form) es
  | none, e :: es =>
    if limits.allows e then e :: prune limits none es else prune limits e.entered? es

/-- Events that a limit allows are kept. -/
theorem prune_append_of_allowed (hes : ∀ e ∈ es, limits.allows e = true) (rest : List Event) :
    limits.prune none (es ++ rest) = es ++ limits.prune none rest := by
  induction es with
  | nil => rfl
  | cons e es ih =>
    obtain ⟨he, hes⟩ := List.forall_mem_cons.mp hes
    rw [List.cons_append, prune, if_pos he, ih hes, List.cons_append]

/-- A form that is left out is left out up to its exit. -/
theorem prune_some_append {form : Form} (hes : .exit form ∉ es) (rest : List Event) :
    limits.prune (some form) (es ++ .exit form :: rest) = limits.prune none rest := by
  induction es with
  | nil => rw [List.nil_append, prune, if_pos rfl]
  | cons e es ih =>
    obtain ⟨he, hes⟩ := not_or.mp (mt List.mem_cons.mpr hes)
    rw [List.cons_append, prune, if_neg (Ne.symm he), ih hes]

end Limits

/-! ## What a lower limit does to an outline

From `Curtailed` all that is claimed of walks can be read off: the events are pruned, and if no
fault of a limit was noted the two outlines are one.
-/

namespace Node

/-- The nodes `ns` are what the limits leave of `ns'`: forms that are too deep and texts with
defaults that are too long do not decode, and all else is as it was. -/
inductive Curtailed (limits : Limits) : List Node → List Node → Prop
  /-- nothing is left of nothing -/
  | nil : Curtailed limits [] []
  /-- a node that the limits allow stays -/
  | same {n : Node} {ns ns' : List Node} : (∀ e ∈ n.events, limits.allows e = true) →
      Curtailed limits ns ns' → Curtailed limits (n :: ns) (n :: ns')
  /-- a form that is not too deep keeps what the limits leave of its children -/
  | form {form : Form} {inner inner' ns ns' : List Node} : form.depth ≤ limits.maxDepth →
      Curtailed limits inner inner' → Curtailed limits ns ns' →
      Curtailed limits (.form form inner :: ns) (.form form inner' :: ns')
  /-- a node of which nothing is left is refused -/
  | refused {offset : Nat} {tag : UInt32} {fault : Fault} {n : Node} {ns ns' : List Node} :
      fault.isOfLimits = true →
      (∀ rest, limits.prune none (n.events ++ rest) = limits.prune none rest) →
      Curtailed limits ns ns' → Curtailed limits (.malformed offset tag fault :: ns) (n :: ns')

namespace Curtailed

/-- The events are those that the limits leave. -/
theorem prune_events (hc : Curtailed limits ns ns') (rest : List Event) :
    limits.prune none (eventsAll ns' ++ rest) = eventsAll ns ++ limits.prune none rest := by
  induction hc generalizing rest with
  | nil => rfl
  | @same n ns ns' hn _ ih =>
    rw [eventsAll, eventsAll, List.append_assoc, Limits.prune_append_of_allowed hn, ih,
      List.append_assoc]
  | @form form inner inner' ns ns' hdepth _ _ ihin ih =>
    have hin : limits.allows (.enter form) = true := decide_eq_true hdepth
    have hout : limits.allows (.exit form) = true := decide_eq_true hdepth
    simp only [eventsAll, events, List.cons_append, List.append_assoc, List.nil_append]
    rw [Limits.prune, if_pos hin, ihin, Limits.prune, if_pos hout, ih]
  | @refused offset tag fault n ns ns' _ hn _ ih =>
    rw [eventsAll, eventsAll, List.append_assoc, hn, ih]
    rfl

/-- Where no limit is met nothing is taken away. -/
theorem eq_of_unlimited {tree : Nat} (hc : Curtailed limits ns ns')
    (hd : ∀ d ∈ (reportAll tree ns).diagnostics, d.fault.isOfLimits = false) : ns' = ns := by
  induction hc with
  | nil => rfl
  | same _ _ ih =>
    rw [reportAll, Report.diagnostics_append, List.forall_mem_append] at hd
    rw [ih hd.2]
  | form _ _ _ ihin ih =>
    rw [reportAll, Report.diagnostics_append, List.forall_mem_append, report,
      Report.diagnostics_append, List.nil_append] at hd
    rw [ihin hd.1, ih hd.2]
  | refused hfault =>
    rw [reportAll, Report.diagnostics_append, List.forall_mem_append] at hd
    have := hd.1 _ (List.mem_singleton.mpr rfl)
    rw [hfault] at this
    cases this

end Curtailed

end Node

/-! ## Decoding under raised limits

The limit on lengths is met in one place only, at the default of a text. Everything else in an
option is read without a limit.
-/

namespace TextOption

/-- A text that was decoded under limits is one that they allow. -/
theorem allows_of_decode {o : TextOption} {kind : TextKind} (hd : decode w h kind limits = .ok o) :
    limits.allows (.text o) = true := by
  obtain ⟨next, hv⟩ := decodeValue_of_decode hd
  cases kind with
  | comment =>
    obtain ⟨hdefault, -⟩ := Prod.mk.inj (Except.ok.inj hv)
    rw [Limits.allows, ← hdefault]
    rfl
  | varchar =>
    obtain ⟨default, -, hv⟩ := bind_eq_ok_iff.mp hv
    obtain ⟨hlength, hv⟩ := guard_eq_ok_iff.mp hv
    obtain ⟨found, -, hv⟩ := bind_eq_ok_iff.mp hv
    obtain ⟨hdefault, -⟩ := Prod.mk.inj (pure_eq_ok_iff.mp hv)
    rw [Limits.allows, ← hdefault]
    exact decide_eq_true (requireLength_eq_ok_iff.mp hlength)

/-- A default and a name are read alike under raised limits, or the default is too long for the
lower ones. -/
theorem decodeValue_raised (hle : limits ≤ more) (w : Window) (start : Nat) (kind : TextKind) :
    decodeValue w start more kind = decodeValue w start limits kind ∨
      ∃ fault, decodeValue w start limits kind = .error fault ∧ fault.isOfLimits = true ∧
        ∀ found, decodeValue w start more kind = .ok found →
          found.1.all (·.dataLength ≤ limits.maxDefaultLength) = false := by
  cases kind with
  | comment => exact .inl rfl
  | varchar =>
    rcases eq_ok_or_eq_error (Field.require w start Kind.defaultValue.tag) with
      ⟨default, hr⟩ | ⟨f, hr⟩
    · -- a default within the lower limit is within the higher one
      by_cases hlength : default.dataLength ≤ limits.maxDefaultLength
      · have hlow := requireLength_eq_ok_iff.mpr hlength
        have hhigh := requireLength_eq_ok_iff.mpr (UInt32.le_trans hlength hle.1)
        rw [decodeValue, decodeValue, hr]
        refine .inl (bind_congr_ok fun d hd => ?_)
        obtain rfl := Except.ok.inj hd
        rw [hlow, hhigh]
      · have herror : decodeValue w start limits .varchar = .error (.fieldTooLong default.offset
            default.tag default.dataLength limits.maxDefaultLength) := by
          rw [decodeValue, hr]
          show requireLength limits default >>= _ = _
          rw [requireLength, if_pos (UInt32.not_le.mp hlength)]
          rfl
        -- whatever the higher limit makes of it, the default that it finds is the one that is too
        -- long
        refine .inr ⟨_, herror, rfl, fun found hd => ?_⟩
        obtain ⟨default', hr', hd⟩ := bind_eq_ok_iff.mp hd
        obtain ⟨-, hd⟩ := guard_eq_ok_iff.mp hd
        obtain ⟨name, -, hd⟩ := bind_eq_ok_iff.mp hd
        obtain rfl := Except.ok.inj (hr.symm.trans hr')
        obtain rfl := pure_eq_ok_iff.mp hd
        exact decide_eq_false hlength
    · exact .inl (by simp only [decodeValue, hr]; rfl)

/-- A text decodes alike under raised limits, or its default is too long for the lower ones. -/
theorem decode_raised (hle : limits ≤ more) (w : Window) (h : Header) (kind : TextKind) :
    decode w h kind more = decode w h kind limits ∨
      ∃ fault, decode w h kind limits = .error fault ∧ fault.isOfLimits = true ∧
        ∀ o, decode w h kind more = .ok o → limits.allows (.text o) = false := by
  rcases eq_ok_or_eq_error (Layout.text w h) with ⟨fields, hf⟩ | ⟨f, hf⟩
  · rcases decodeValue_raised hle (w.upTo h.stop) (h.offset + Layout.textLength) kind with
      hsame | ⟨fault, hv, hfault, hlong⟩
    · exact .inl (by simp only [decode, hsame])
    · refine .inr ⟨fault, by simp only [decode, hf, hv]; rfl, hfault, fun o hd => ?_⟩
      obtain ⟨next, hd⟩ := decodeValue_of_decode hd
      exact hlong _ hd
  · exact .inl (by simp only [decode, hf]; rfl)

end TextOption

/-! ## Outlines under raised limits

A form keeps its children only if it is not too deep, and its exit comes right behind what it holds.
That no other exit of the form comes sooner is a matter of places: the forms inside start behind it.
-/

namespace Node

/-- A form does not end among what stands behind its start. -/
theorem exit_not_mem_children {form : Form} (hlow : form.offset < cursor) :
    .exit form ∉ eventsAll (children w limits depth cursor) := by
  intro hexit
  obtain ⟨n, hn, hexit⟩ := mem_eventsAll.mp hexit
  exact absurd ((within_children n hn).events _ hexit).1 (Nat.not_le.mpr hlow)

variable {inside inside' : (nested : Form) →
  Form.decode w h.offset (depth + 1) = .ok nested → List Node}

/-- Of a form that is too deep nothing is left. -/
theorem prune_events_of_tooDeep (hr : Role.ofTag h.tag = .form) (hm : limits.maxDepth < depth + 1)
    (hexit : ∀ nested hd, .exit nested ∉ eventsAll (inside' nested hd)) (rest : List Event) :
    limits.prune none ((ofHeader w more depth h inside').events ++ rest) =
      limits.prune none rest := by
  -- too deep even for the higher limit, or entered, or not decoded
  by_cases hm' : more.maxDepth < depth + 1
  · rw [ofHeader_of_tooDeep hr hm']
    rfl
  rcases eq_ok_or_eq_error (Form.decode w h.offset (depth + 1)) with ⟨nested, hd⟩ | ⟨f, hd⟩
  · rw [ofHeader_of_form hr hm' hd]
    have hdepth : ¬limits.allows (.enter nested) = true := by
      obtain ⟨-, hdepth, -⟩ := Form.decode_eq_ok hd
      simp only [Limits.allows, decide_eq_true_eq]
      omega
    simp only [events, List.cons_append, List.append_assoc, List.nil_append]
    rw [Limits.prune, if_neg hdepth]
    exact Limits.prune_some_append (hexit nested hd) rest
  · rw [ofHeader_of_badForm hr hm' hd]
    rfl

/-- Limits are nothing to numeric options. -/
theorem allows_of_mem_numeric {x : Except Fault NumericOption} {e : Event}
    (he : e ∈ (ofExcept h .numeric x).events) : limits.allows e = true := by
  cases x with
  | error f => cases he
  | ok o =>
    rw [ofExcept, events, List.mem_append, List.mem_map, List.mem_singleton] at he
    rcases he with ⟨v, -, rfl⟩ | rfl <;> rfl

/-- A text is curtailed if its default is too long. -/
theorem curtailed_text (hle : limits ≤ more) (w : Window) (h : Header) (kind : TextKind)
    (hrest : Curtailed limits ns ns') :
    Curtailed limits (ofExcept h .text (TextOption.decode w h kind limits) :: ns)
      (ofExcept h .text (TextOption.decode w h kind more) :: ns') := by
  rcases TextOption.decode_raised hle w h kind with hsame | ⟨fault, hd, hfault, hlong⟩
  · rw [hsame]
    refine .same (fun e he => ?_) hrest
    cases hd : TextOption.decode w h kind limits with
    | error f =>
      rw [hd] at he
      cases he
    | ok o =>
      rw [hd] at he
      obtain rfl := List.mem_singleton.mp he
      exact TextOption.allows_of_decode hd
  · rw [hd]
    -- the lower limit has refused the text, and pruning drops it
    refine .refused hfault (fun rest => ?_) hrest
    cases hd' : TextOption.decode w h kind more with
    | error f => rfl
    | ok o =>
      show limits.prune none (.text o :: rest) = _
      rw [Limits.prune, if_neg (by rw [hlong o hd']; exact Bool.false_ne_true)]
      rfl

/-- A record and what stands behind it are curtailed together. -/
theorem curtailed_ofHeader (hle : limits ≤ more)
    (hin : ∀ nested hd, Curtailed limits (inside nested hd) (inside' nested hd))
    (hexit : ∀ nested hd, .exit nested ∉ eventsAll (inside' nested hd))
    (hrest : Curtailed limits ns ns') :
    Curtailed limits (ofHeader w limits depth h inside :: ns)
      (ofHeader w more depth h inside' :: ns') := by
  cases hr : Role.ofTag h.tag with
  | form =>
    by_cases hm : limits.maxDepth < depth + 1
    · rw [ofHeader_of_tooDeep hr hm]
      -- one fault on the one side, a whole form on the other
      exact .refused rfl (prune_events_of_tooDeep hr hm hexit) hrest
    have hm' : ¬more.maxDepth < depth + 1 := fun h => hm (Nat.lt_of_le_of_lt hle.2 h)
    rcases eq_ok_or_eq_error (Form.decode w h.offset (depth + 1)) with ⟨nested, hd⟩ | ⟨f, hd⟩
    · rw [ofHeader_of_form hr hm hd, ofHeader_of_form hr hm' hd]
      obtain ⟨-, hdepth, -⟩ := Form.decode_eq_ok hd
      exact .form (hdepth ▸ Nat.not_lt.mp hm) (hin nested hd) hrest
    · rw [ofHeader_of_badForm hr hm hd, ofHeader_of_badForm hr hm' hd]
      exact .same (List.forall_mem_nil _) hrest
  | numeric kind =>
    rw [ofHeader_of_numeric hr, ofHeader_of_numeric hr]
    exact .same (fun e he => allows_of_mem_numeric he) hrest
  | text kind =>
    rw [ofHeader_of_text hr, ofHeader_of_text hr]
    exact curtailed_text hle w h kind hrest
  | unrecognized =>
    rw [ofHeader_of_unrecognized hr, ofHeader_of_unrecognized hr]
    exact .same (List.forall_mem_nil _) hrest

/-- The outline under lower limits is that under higher ones, curtailed. -/
theorem curtailed_children (hle : limits ≤ more) (w : Window) (depth cursor : Nat) :
    Curtailed limits (children w limits depth cursor) (children w more depth cursor) := by
  fun_induction children w limits depth cursor with
  | case1 w depth cursor hlt f hp =>
    rw [children_of_torn hlt hp]
    exact .same (List.forall_mem_nil _) .nil
  | case2 w depth cursor hlt h hp ihin ihrest =>
    rw [children_of_framed hlt hp]
    refine curtailed_ofHeader hle ihin (fun nested hd => exit_not_mem_children ?_) ihrest
    obtain ⟨ho, -, -, hlow, -⟩ := Form.decode_eq_ok hd
    simp only [Layout.formLength, Header.length] at hlow
    omega
  | case3 w depth cursor hge =>
    rw [children_of_le (Nat.not_lt.mp hge)]
    exact .nil

/-- The outline of a tree under lower limits is that under higher ones, curtailed. -/
theorem curtailed_ofTree (hle : limits ≤ more) {t : Tree} (ht : Tree.ofBytes t.bytes = .ok t) :
    Curtailed limits [ofTree limits t] [ofTree more t] := by
  obtain ⟨-, hdepth, -⟩ := Form.decode_eq_ok (Tree.ofBytes_eq_ok_iff.mp ht).2
  exact .form (hdepth ▸ Nat.zero_le _) (curtailed_children hle ..) .nil

end Node

/-! ## Lookups under raised limits

A lookup gives up at a form that is too deep. As long as it meets none, which is `Reached`, its
limits have not been asked for anything.
-/

namespace Lookup

/-- The answer is not that a form is too deep. -/
def Reached {α : Type} (answer : Except Fault α) : Prop :=
  ∀ offset max, answer ≠ .error (.nestingTooDeep offset max)

theorem record_raised (hle : limits ≤ more) {search search' : (form : Form) →
      Form.decode w h.offset (depth + 1) = .ok form → Except Fault (Option Hit)}
    (hin : ∀ form hd, Reached (search form hd) → search' form hd = search form hd)
    (hreach : Reached (record w limits.maxDepth name depth h search)) :
    record w more.maxDepth name depth h search' =
      record w limits.maxDepth name depth h search := by
  cases hr : Role.ofTag h.tag with
  | form =>
    by_cases hm : limits.maxDepth < depth + 1
    · refine absurd ?_ (hreach h.offset limits.maxDepth)
      simp only [record, hr, if_pos hm]
    have hm' : ¬more.maxDepth < depth + 1 := fun h => hm (Nat.lt_of_le_of_lt hle.2 h)
    rcases eq_ok_or_eq_error (Form.decode w h.offset (depth + 1)) with ⟨form, hd⟩ | ⟨f, hd⟩
    · rw [record_of_form hr hm hd] at hreach ⊢
      rw [record_of_form hr hm' hd]
      by_cases hname : form.name = name
      · rw [if_pos hname, if_pos hname]
      · rw [if_neg hname] at hreach ⊢
        rw [if_neg hname, hin form hd hreach]
    · rw [record_of_badForm hr hm hd, record_of_badForm hr hm' hd]
  | numeric kind => simp only [record, hr]
  | text kind => cases kind <;> simp only [record, hr]
  | unrecognized => simp only [record, hr]

theorem children_raised (hle : limits ≤ more)
    (hreach : Reached (children w limits.maxDepth name depth cursor)) :
    children w more.maxDepth name depth cursor =
      children w limits.maxDepth name depth cursor := by
  -- along the outline, which goes through the same records
  fun_induction Node.children w limits depth cursor with
  | case1 w depth cursor hlt f hp => rw [children_of_torn hlt hp, children_of_torn hlt hp]
  | case2 w depth cursor hlt h hp ihin ihrest =>
    rw [children_of_framed hlt hp] at hreach ⊢
    rw [children_of_framed hlt hp, record_raised hle ihin fun offset max herror => ?_]
    · cases hx : record w limits.maxDepth name depth h fun form _ =>
          children (w.upTo form.stop) limits.maxDepth name (depth + 1) form.childrenStart with
      | error f => rfl
      | ok found =>
        rw [hx] at hreach
        cases found with
        | none => exact ihrest hreach
        | some hit => rfl
    · rw [herror] at hreach
      exact hreach offset max rfl
  | case3 w depth cursor hge =>
    rw [children_of_le (Nat.not_lt.mp hge), children_of_le (Nat.not_lt.mp hge)]

theorem tree_raised (hle : limits ≤ more) {t : Tree} (hreach : Reached (tree limits t name)) :
    tree more t name = tree limits t name := by
  unfold tree at hreach ⊢
  by_cases hname : t.name = name
  · rw [if_pos hname, if_pos hname]
  · rw [if_neg hname] at hreach ⊢
    rw [if_neg hname, children_raised hle hreach]

/-- A lookup that meets no form that is too deep answers the same under raised limits. -/
theorem find_raised (hle : limits ≤ more) (form? : Option String) {trees : List Tree}
    (hreach : Reached (find limits form? name trees)) :
    find more form? name trees = find limits form? name trees := by
  induction trees with
  | nil => rfl
  | cons t ts ih =>
    rw [find_cons] at hreach ⊢
    rw [find_cons]
    by_cases ht : form?.all (· = t.name)
    · rw [if_pos ht] at hreach ⊢
      -- the search of the first tree has met no such form, for otherwise the lookup would have
      -- failed with it
      rw [if_pos ht, tree_raised hle fun offset max herror => ?_]
      · cases hx : tree limits t name with
        | error f => rfl
        | ok found =>
          rw [hx] at hreach
          cases found with
          | none => exact ih hreach
          | some hit => rfl
      · rw [herror] at hreach
        exact hreach offset max rfl
    · rw [if_neg ht] at hreach ⊢
      rw [if_neg ht, ih hreach]

end Lookup

/-! ## Walks under raised limits

The outline of a tree under the lower limits is curtailed, and so are its events; the rest is about
trees whose walks meet no limit.
-/

/-- **Raising the limits only adds.** Let a callback that refuses nothing walk a tree under some
limits and under higher ones. The events under the lower limits are those under the higher ones,
less every form that is too deep, from its entry to its exit, and every text whose default is too
long. Where the walk under the lower limits notes neither a form that is too deep nor a field that
is too long, both walks are the same. A lookup that does not answer that a form is too deep answers
the same under the higher limits. -/
theorem Limits.raised_only_adds {f : Callback σ} (hf : f.Willing) (hle : limits ≤ more)
    (index : Nat) {t : Tree} (ht : Tree.ofBytes t.bytes = .ok t) (s : σ) (trees : List Tree)
    (form? : Option String) (name : String) :
    let walk := fun limits => Walk.tree f.logged limits index t (s, [])
    (walk limits).2.2 = limits.prune none (walk more).2.2 ∧
      ((∀ d ∈ (walk limits).1.diagnostics, d.fault.isOfLimits = false) →
        walk more = walk limits) ∧
      ((∀ offset max, Lookup.find limits form? name trees ≠ .error (.nestingTooDeep offset max)) →
        Lookup.find more form? name trees = Lookup.find limits form? name trees) := by
  intro walk
  have hcurtailed := Node.curtailed_ofTree hle ht
  simp only [walk, Walk.tree_logged hf]
  refine ⟨?_, fun hd => ?_, Lookup.find_raised hle form?⟩
  · have hevents := hcurtailed.prune_events []
    simpa only [Node.eventsAll, List.append_nil, Limits.prune] using hevents.symm
  · have hd' : ∀ d ∈ (Node.reportAll index [Node.ofTree limits t]).diagnostics,
        d.fault.isOfLimits = false := by
      rwa [Node.reportAll, Node.reportAll, Report.append_nil]
    rw [(List.cons.inj (hcurtailed.eq_of_unlimited hd')).1]

/-- A tree of a number and a form that holds a form and a text. -/
def nestedMenus : Tree :=
  let number := Blueprint.OptionSpec.numeric .number ⟨2, 0, ⟨0⟩⟩ "n" "N" 7
  let bytes := Blueprint.encode <| .form ⟨1, 0, ⟨0⟩⟩ (some (.text .label "Boot"))
    [.option number, .form ⟨3, 0, ⟨0⟩⟩ (some (.text .label "Menu"))
      [.form ⟨4, 0, ⟨0⟩⟩ (some (.text .label "Deep")) [.option number] none,
        .option (.varchar ⟨5, 0, ⟨0⟩⟩ "s" "S" "off")] none] none
  ⟨bytes.toArray, ⟨0, 327, ⟨1, 0, ⟨0⟩⟩, "Boot", 0, 45, 327⟩⟩

/-- The lower limits take away the inner form and the text. The number is found before them. -/
theorem raised_only_adds_nestedMenus :
    let limits : Limits := { maxDefaultLength := 3, maxDepth := 1 }
    let walk := fun limits => Walk.tree Callback.silent.logged limits 0 nestedMenus ((), [])
    (walk limits).2.2 = limits.prune none (walk {}).2.2 ∧
      Lookup.find {} none "n" [nestedMenus] = Lookup.find limits none "n" [nestedMenus] := by
  intro limits walk
  have ht : Tree.ofBytes nestedMenus.bytes = .ok nestedMenus :=
    Tree.ofBytes_eq_ok_iff.mpr ⟨rfl, toOption_eq_some_iff.mp (by decide +kernel)⟩
  have hfound : Lookup.find limits none "n" [nestedMenus] = .ok ⟨[7, 0, 0, 0], 73, .numeric⟩ := by
    decide +kernel
  obtain ⟨hlog, -, hfind⟩ := Limits.raised_only_adds Callback.willing_silent
    (show limits ≤ {} from ⟨by decide, by decide⟩) 0 ht () [nestedMenus] none "n"
  exact ⟨hlog, hfind fun offset max => by rw [hfound]; nofun⟩

end SetupForms
