import SetupForms.Proofs.Acts
import SetupForms.Proofs.Locality
import SetupForms.Proofs.LookupAgreement
import SetupForms.Proofs.RoundTrip

/-!
# Stray records

A record with a tag that introduces nothing in a form may stand anywhere among what a form holds, at
any depth. Such strays do not disturb what stands around them: the outline shows what it shows
without them, at other places, and one warning for each (`Blueprint.Strewn.outline`). So a walk
calls back for the same records and a lookup finds the same defaults (`Blueprint.walk_strewn`).
What does not say where a record stands is kept by `Event.placeless`.
-/

namespace SetupForms

open Blueprint (frame isRecord_frame)

universe u

variable {σ : Type u} {w : Window} {cursor depth : Nat} {limits : Limits} {name : String}

/-! ## What does not depend on places

A record tells where it stands and how long it is, and so do its events and the answers found in it.
`placeless` forgets both and keeps the rest, which is all that a front end shows.
-/

/-- The field, wherever it stands. -/
def Field.placeless (f : Field) : Field := { f with offset := 0 }

/-- The value, wherever it stands. -/
def EnumValue.placeless (v : EnumValue) : EnumValue := { v with offset := 0 }

/-- The option, wherever it stands. -/
def NumericOption.placeless (o : NumericOption) : NumericOption :=
  { o with offset := 0, values := o.values.map EnumValue.placeless }

/-- The option, wherever it stands. -/
def TextOption.placeless (o : TextOption) : TextOption :=
  { o with offset := 0, default := o.default.map Field.placeless }

/-- The form, wherever it stands and whatever its size is. -/
def Form.placeless (form : Form) : Form :=
  { form with offset := 0, size := 0, childrenStart := 0, stop := 0 }

/-- The default, wherever it stands. -/
def DefaultValue.placeless (d : DefaultValue) : DefaultValue := { d with offset := 0 }

namespace Event

/-- The event without the places of its records and the sizes of its form. -/
def placeless : Event → Event
  | enter form => enter form.placeless
  | exit form => exit form.placeless
  | value o v => value o.placeless v.placeless
  | numeric o => numeric o.placeless
  | text o => text o.placeless

@[simp] theorem isEnter_placeless (e : Event) : e.placeless.isEnter = e.isEnter := by
  cases e <;> rfl

@[simp] theorem isOption_placeless (e : Event) : e.placeless.isOption = e.isOption := by
  cases e <;> rfl

@[simp] theorem isValue_placeless (e : Event) : e.placeless.isValue = e.isValue := by
  cases e <;> rfl

theorem bears_placeless (name : String) (e : Event) : e.placeless.bears name = e.bears name := by
  cases e <;> rfl

/-- An answer but for its place is that of the event without places. -/
theorem answer_placeless (name : String) (e : Event) :
    (e.placeless.hit.answer name).map DefaultValue.placeless =
      (e.hit.answer name).map DefaultValue.placeless := by
  cases e with
  | enter form | exit form => rfl
  | value o v => rfl
  | numeric o => rfl
  | text o =>
    obtain ⟨_, _, _, _, default, _, _, _⟩ := o
    cases default <;> rfl

end Event

namespace Node

/-- How many records of each kind are called back is seen from the events. -/
theorem counts_report (tree : Nat) (n : Node) :
    (n.report tree).forms = n.events.countP Event.isEnter ∧
      (n.report tree).options = n.events.countP Event.isOption ∧
      (n.report tree).enumValues = n.events.countP Event.isValue := by
  have hacts : n.report tree = .ofActs (n.acts tree) := by
    have hwilling := Callback.willing_silent
    have hreport := Walk.node_of_willing hwilling tree n ()
    rw [Walk.node_of_lenient hwilling.lenient, Callback.verdicts_of_willing hwilling] at hreport
    exact (congrArg Prod.fst hreport).symm
  obtain ⟨hforms, hoptions, hvalues, -⟩ := Report.counts_ofActs (n.acts tree)
  rw [events_acts] at hforms hoptions hvalues
  rw [hacts]
  exact ⟨hforms, hoptions, hvalues⟩

/-- The counts do not depend on places. -/
theorem counts_report_congr {n n' : Node} (tree : Nat)
    (h : n'.events.map Event.placeless = n.events.map Event.placeless) :
    (n'.report tree).forms = (n.report tree).forms ∧
      (n'.report tree).options = (n.report tree).options ∧
      (n'.report tree).enumValues = (n.report tree).enumValues := by
  have hcount (p : Event → Bool) (hp : ∀ e, p e.placeless = p e) :
      n'.events.countP p = n.events.countP p := by
    have := congrArg (List.countP p) h
    simpa only [List.countP_map, Function.comp_def, hp] using this
  obtain ⟨hforms, hoptions, hvalues⟩ := counts_report tree n
  obtain ⟨hforms', hoptions', hvalues'⟩ := counts_report tree n'
  rw [hforms, hoptions, hvalues, hforms', hoptions', hvalues', hcount _ Event.isEnter_placeless,
    hcount _ Event.isOption_placeless, hcount _ Event.isValue_placeless]
  exact ⟨rfl, rfl, rfl⟩

end Node

/-- Where two walks show the same but for places and neither notes an error, lookups answer the same
but for places. -/
theorem Lookup.find_placeless {t t' : Tree} (hname : t'.name = t.name)
    (h : (Node.ofTree limits t').events.map Event.placeless =
      (Node.ofTree limits t).events.map Event.placeless)
    (hclean : ∀ d ∈ ((Node.ofTree limits t).report 0).diagnostics, d.severity ≠ .error)
    (hclean' : ∀ d ∈ ((Node.ofTree limits t').report 0).diagnostics, d.severity ≠ .error)
    (form? : Option String) (name : String) :
    (find limits form? name [t']).map DefaultValue.placeless =
      (find limits form? name [t]).map DefaultValue.placeless := by
  have hfind : ((Node.ofTree limits t').events.find? (Event.bears name)).map Event.placeless =
      ((Node.ofTree limits t).events.find? (Event.bears name)).map Event.placeless := by
    have := congrArg (List.find? (Event.bears name)) h
    simpa only [List.find?_map, Function.comp_def, Event.bears_placeless] using this
  rw [find_cons, find_cons, tree_eq fun d hd hs => absurd hs (hclean d hd),
    tree_eq fun d hd hs => absurd hs (hclean' d hd), hname]
  by_cases hform : form?.all (· = t.name)
  · rw [if_pos hform, if_pos hform]
    -- the two searches find events that are alike, or both find none
    generalize (Node.ofTree limits t').events.find? (Event.bears name) = found' at hfind
    generalize (Node.ofTree limits t).events.find? (Event.bears name) = found at hfind
    cases found with
    | none =>
      obtain rfl := Option.map_eq_none_iff.mp hfind
      rfl
    | some e =>
      obtain ⟨e', rfl, he⟩ := Option.map_eq_some_iff.mp hfind
      show (e'.hit.answer name).map _ = (e.hit.answer name).map _
      rw [← Event.answer_placeless, he, Event.answer_placeless]
  · rw [if_neg hform, if_neg hform]

/-! ## Stray records among others

A stray has a tag that neither a form nor an option has. It need not be a tag that is unknown: a
label or a help text among the records of a form is a stray as well.
-/

/-- A tag that introduces nothing that a form holds. -/
def Foreign (tag : UInt32) : Prop :=
  ∀ k ∈ [Kind.form, .enum, .number, .bool, .varchar, .comment], tag ≠ k.tag

instance (tag : UInt32) : Decidable (Foreign tag) :=
  inferInstanceAs (Decidable (∀ k ∈ [Kind.form, .enum, .number, .bool, .varchar, .comment],
    tag ≠ k.tag))

/-- A foreign tag introduces nothing. -/
theorem Role.ofTag_of_foreign {tag : UInt32} (h : Foreign tag) : ofTag tag = .unrecognized := by
  rw [ofTag]
  split <;> first | rfl | exact absurd (Kind.ofTag?_eq_some_iff.mp ‹_›).symm (h _ (by decide))

namespace Blueprint

/-- `bs'` is `bs` with strays put anywhere into it and into its forms. The first of `bs'` is written
at the cursor, and the strays are listed with their offsets and tags. -/
inductive Strewn : Nat → List Blueprint → List Blueprint → List (Nat × UInt32) → Prop
  /-- nothing is put into nothing -/
  | nil {cursor : Nat} : Strewn cursor [] [] []
  /-- a stray comes first -/
  | stray {cursor : Nat} {bs bs' : List Blueprint} {strays : List (Nat × UInt32)} {tag : UInt32}
      {body : List UInt8} : Foreign tag →
      Strewn (cursor + (frame tag none body).length) bs bs' strays →
      Strewn cursor bs (.verbatim (frame tag none body) :: bs') ((cursor, tag) :: strays)
  /-- an option comes first -/
  | option {cursor : Nat} {o : OptionSpec} {bs bs' : List Blueprint}
      {strays : List (Nat × UInt32)} : Strewn (cursor + o.encode.length) bs bs' strays →
      Strewn cursor (.option o :: bs) (.option o :: bs') strays
  /-- a form comes first, with or without strays in it -/
  | form {cursor : Nat} {fields : CommonFields} {label : Option FieldSpec} {size : Option UInt32}
      {inner inner' bs bs' : List Blueprint} {strays strays' : List (Nat × UInt32)} :
      Strewn (cursor + Layout.formLength + (encodeField? label).length) inner inner' strays →
      Strewn (cursor + (encode (.form fields label inner' size)).length) bs bs' strays' →
      Strewn cursor (.form fields label inner size :: bs) (.form fields label inner' size :: bs')
        (strays ++ strays')

/-! ## The places of what is written

Written records are described with the places at which they are written. Without the places the
description of a record does not depend on what stands in front of it.
-/

/-- Values without their places are those of the blueprint. -/
theorem ValueSpec.placeless_valuesAt (vs : List ValueSpec) (cursor : Nat) :
    (valuesAt cursor vs).map EnumValue.placeless = vs.map (enumValue 0) := by
  induction vs generalizing cursor with
  | nil => rfl
  | cons v vs ih =>
    rw [valuesAt, List.map_cons, ih]
    rfl

/-- A numeric option without its place is that of the blueprint. -/
theorem OptionSpec.placeless_numericAt (o : OptionSpec) (kind : NumericKind) (cursor : Nat) :
    (o.numericAt cursor kind).placeless =
      { o.numericAt 0 kind with values := o.values.map (ValueSpec.enumValue 0) } := by
  rw [NumericOption.placeless, numericAt, ValueSpec.placeless_valuesAt]
  rfl

theorem placeless_events_numeric (o : NumericOption) :
    (Node.numeric o).events.map Event.placeless = (Node.numeric o.placeless).events := by
  simp only [Node.events, List.map_append, List.map_map, NumericOption.placeless]
  rfl

/-- An option shows the same wherever it is written. -/
theorem OptionSpec.placeless_events_node (o : OptionSpec) (cursor origin : Nat) :
    (o.node cursor).events.map Event.placeless = (o.node origin).events.map Event.placeless := by
  have hnumeric (kind : NumericKind) :
      (Node.numeric (o.numericAt cursor kind)).events.map Event.placeless =
        (Node.numeric (o.numericAt origin kind)).events.map Event.placeless := by
    simp only [placeless_events_numeric, placeless_numericAt]
  have htext (kind : TextKind) : (o.textAt cursor kind).placeless =
      (o.textAt origin kind).placeless := by
    simp only [TextOption.placeless, textAt, Option.map_map]
    rfl
  unfold node
  cases o.kind with
  | enum | number | bool => exact hnumeric _
  | varchar | comment => exact congrArg (fun o => [Event.text o]) (htext _)
  | form | enumValue | optionName | label | help | defaultValue => rfl

end Blueprint

/-! ## Outlines of strewn records

`Overlooks` goes through two rows of nodes at once. A stray stands in the one only and makes a
warning; all other nodes come in pairs. The induction of `Strewn.outline` is on how the strays were
put in, with one case for what stands next.
-/

namespace Node

variable {h : Header} {n n' : Node} {ns ns' : List Node} {strays strays' : List (Nat × UInt32)}

/-- The warning about a stray. -/
def strayWarning (tree : Nat) (stray : Nat × UInt32) : Diagnostic :=
  ⟨tree, stray.1, stray.2, .warning, .unknownRecord stray.1 stray.2⟩

/-- The nodes `ns'` show what `ns` shows but for places, and note the strays and nothing else. -/
structure Overlooks (strays : List (Nat × UInt32)) (ns ns' : List Node) : Prop where
  /-- the events are the same but for places -/
  events : (eventsAll ns').map Event.placeless = (eventsAll ns).map Event.placeless
  /-- there is a warning for each stray -/
  diagnostics : ∀ tree, (reportAll tree ns').diagnostics = strays.map (strayWarning tree)

namespace Overlooks

theorem nil : Overlooks [] [] [] := ⟨rfl, fun _ => rfl⟩

theorem stray {offset : Nat} {tag : UInt32} (ho : Overlooks strays ns ns') :
    Overlooks ((offset, tag) :: strays) ns (.unrecognized offset tag :: ns') where
  events := ho.events
  diagnostics tree := by
    rw [reportAll, Report.diagnostics_append, ho.diagnostics]
    rfl

theorem clean (he : n'.events.map Event.placeless = n.events.map Event.placeless)
    (hc : ∀ tree, n'.Clean tree) (ho : Overlooks strays ns ns') :
    Overlooks strays (n :: ns) (n' :: ns') where
  events := by rw [eventsAll, eventsAll, List.map_append, List.map_append, he, ho.events]
  diagnostics tree := by
    rw [reportAll, Report.diagnostics_append, hc, ho.diagnostics, List.nil_append]

theorem form {f f' : Form} {inner inner' : List Node} (hf : f'.placeless = f.placeless)
    (hin : Overlooks strays inner inner') (ho : Overlooks strays' ns ns') :
    Overlooks (strays ++ strays') (.form f inner :: ns) (.form f' inner' :: ns') where
  events := by
    simp only [eventsAll, Node.events, List.map_append, List.map_cons, List.map_nil,
      Event.placeless, hf, hin.events, ho.events]
  diagnostics tree := by
    rw [reportAll, Report.diagnostics_append, report, Report.diagnostics_append, hin.diagnostics,
      ho.diagnostics, List.map_append]
    rfl

end Overlooks

variable {bs : List UInt8}

/-- Where a stray is written, the outline shows it and goes on behind it. -/
theorem children_of_stray {tag : UInt32} {body : List UInt8} (ht : Foreign tag)
    (hb : w.Holds cursor (frame tag none body)) (hw : w.limit < Window.addressSpace)
    (hl : (frame tag none body).length < 0x100000000) :
    children w limits depth cursor = .unrecognized cursor tag ::
      children w limits depth (cursor + (frame tag none body).length) := by
  obtain ⟨h, hp, ho, htag, -, hstop, -⟩ := Header.exists_of_record (isRecord_frame hl) hb
    (Nat.lt_of_le_of_lt hb.1 hw)
  have hlt := Header.lt_stop_of_parse hp
  have hle : w.limit ≤ w.stop := Nat.min_le_left ..
  have hend := hb.1
  rw [children_of_framed (by omega) hp, hstop,
    ofHeader_of_unrecognized (htag ▸ Role.ofTag_of_foreign ht), ho, htag]

/-- Where a node is spelled, the outline shows it and goes on behind it. -/
theorem children_of_spells (hs : n.Spells limits (depth + 1) bs) (hb : w.Holds n.offset bs)
    (hw : w.limit < Window.addressSpace) :
    children w limits depth n.offset = n :: children w limits depth (n.offset + bs.length) := by
  obtain ⟨h, hp, hstop, hnode⟩ := ofHeader_of_spells hs hb (Nat.lt_of_le_of_lt hb.1 hw)
  have hlt := Header.lt_stop_of_parse hp
  have hle : w.limit ≤ w.stop := Nat.min_le_left ..
  have hend := hb.1
  rw [children_of_framed (by omega) hp, hstop, hnode]

/-- Where a form is spelled around any bytes, the outline shows it with the outline of these. -/
theorem children_of_spellsAround {f : Form} {inner : List UInt8} (hs : f.SpellsAround inner bs)
    (hb : w.Holds f.offset bs) (hw : w.limit < Window.addressSpace) (hdepth : f.depth = depth + 1)
    (hm : depth + 1 ≤ limits.maxDepth) :
    children w limits depth f.offset =
        .form f (children (w.upTo f.stop) limits (depth + 1) f.childrenStart) ::
          children w limits depth (f.offset + bs.length) ∧
      (w.upTo f.stop).Holds f.childrenStart inner := by
  obtain ⟨⟨h, hp, ho, hstop, htag⟩, hd, hin⟩ :=
    Form.decode_of_spellsAround hs hb (Nat.lt_of_le_of_lt hb.1 hw)
  have hlt := Header.lt_stop_of_parse hp
  have hle : w.limit ≤ w.stop := Nat.min_le_left ..
  have hend := hb.1
  rw [hs.stop_eq.1] at hstop
  rw [hdepth, ← ho] at hd
  refine ⟨?_, hin⟩
  rw [children_of_framed (by omega) hp, hstop,
    ofHeader_of_form (by rw [htag, Role.ofTag_form]) (Nat.not_lt.mpr hm) hd]

end Node

namespace Blueprint

namespace Strewn

variable {bs bs' : List Blueprint} {strays : List (Nat × UInt32)}

/-- With strays no less is written. -/
theorem length_le (hs : Strewn cursor bs bs' strays) :
    (encodeAll bs).length ≤ (encodeAll bs').length := by
  induction hs with
  | nil => exact Nat.le_refl _
  | stray _ _ ih =>
    rw [encodeAll, List.length_append]
    omega
  | option _ ih =>
    rw [encodeAll, encodeAll, List.length_append, List.length_append]
    omega
  | form _ _ ihin ih =>
    rw [encodeAll, encodeAll, encode, encode, List.length_append, List.length_append, length_frame,
      length_frame]
    simp only [List.length_append]
    omega

/-- **Strays do not disturb.** Where the strewn records fill a window, its outline shows what the
records show without the strays, wherever they stand, and notes the strays. -/
theorem outline (hs : Strewn cursor bs bs' strays) {origin : Nat}
    (hwf : WellFormedAll limits (depth + 1) bs) (hb : w.Holds cursor (encodeAll bs'))
    (hend : cursor + (encodeAll bs').length = w.stop) (hw : w.limit < Window.addressSpace)
    (hl : (encodeAll bs').length < 0x100000000) :
    Node.Overlooks strays (nodes (depth + 1) origin bs) (Node.children w limits depth cursor) := by
  induction hs generalizing w depth origin with
  | nil =>
    rw [Node.children_of_le (by rw [← hend]; exact Nat.le_refl _)]
    exact .nil
  | @stray cursor bs bs' strays tag body ht hs ih =>
    rw [encodeAll, encode] at hb hend hl
    rw [List.length_append] at hend hl
    obtain ⟨hfirst, hrest⟩ := Window.holds_append.mp hb
    -- the stray is framed, noted and passed
    rw [Node.children_of_stray ht hfirst hw (by omega)]
    exact .stray (ih hwf hrest (by omega) hw (by omega))
  | @option cursor o bs bs' strays hs ih =>
    obtain ⟨hoption, hwf⟩ := hwf
    rw [encodeAll, encode] at hb hend hl
    rw [List.length_append] at hend hl
    obtain ⟨hfirst, hrest⟩ := Window.holds_append.mp hb
    have hspells : (o.node cursor).Spells limits (depth + 1) o.encode :=
      OptionSpec.WellFormed.spells hoption (by omega)
    have hchildren := Node.children_of_spells hspells (by rwa [OptionSpec.offset_node]) hw
    rw [OptionSpec.offset_node] at hchildren
    rw [hchildren]
    exact .clean (o.placeless_events_node cursor origin) (fun _ => Node.clean_of_spells hspells)
      (ih hwf hrest (by omega) hw (by omega))
  | @form cursor fields label size inner inner' bs bs' strays strays' hin hs ihin ih =>
    obtain ⟨⟨hdepth, rfl, hlabel, hinner⟩, hwf⟩ := hwf
    rw [encodeAll] at hb hend hl
    rw [List.length_append] at hend hl
    obtain ⟨hfirst, hrest⟩ := Window.holds_append.mp hb
    -- the form is longer by the strays that it holds, and is spelled around all of them
    have haround : (formAt (depth + 1) cursor _ fields label).SpellsAround (encodeAll inner')
        (encode (.form fields label inner' none)) := spellsAround_formAt hlabel (by omega)
    obtain ⟨hstop, hfill⟩ := haround.stop_eq
    obtain ⟨hchildren, hholds⟩ := Node.children_of_spellsAround haround hfirst hw rfl hdepth
    rw [show (formAt (depth + 1) cursor _ fields label).offset = cursor from rfl] at hchildren
    rw [hchildren]
    refine .form rfl (ihin hinner hholds hfill ?_ ?_) (ih hwf hrest (by omega) hw (by omega))
    · refine Nat.lt_of_le_of_lt (Nat.min_le_left ..) (Nat.lt_of_le_of_lt ?_ hw)
      exact hstop ▸ hfirst.1
    · rw [encode, length_frame] at hl
      simp only [List.length_append] at hl
      omega

end Strewn

/-- A well-formed form makes a clean tree. With strays in it, it makes a tree that shows the same
but for places, and notes the strays. -/
theorem exists_trees_of_strewn {fields : CommonFields} {label : Option FieldSpec}
    {size : Option UInt32} {children strewn : List Blueprint} {strays : List (Nat × UInt32)}
    (hb : (form fields label children size).WellFormed limits 0)
    (hs : Strewn (Layout.formLength + (encodeField? label).length) children strewn strays)
    (hl : (form fields label strewn size).encode.length < 0x100000000) :
    ∃ t t', Tree.ofBytes (form fields label children size).encode.toArray = .ok t ∧
      Tree.ofBytes (form fields label strewn size).encode.toArray = .ok t' ∧
      t'.name = t.name ∧ (∀ tree, (Node.ofTree limits t).Clean tree) ∧
      Node.Overlooks strays [Node.ofTree limits t] [Node.ofTree limits t'] := by
  obtain ⟨-, rfl, hlabel, hchildren⟩ := id hb
  have hinner := hl
  rw [encode, length_frame] at hinner
  simp only [List.length_append] at hinner
  have hl₀ : (form fields label children none).encode.length < 0x100000000 := by
    have hle := hs.length_le
    rw [encode, length_frame]
    simp only [List.length_append]
    omega
  have hspells : Node.Spells limits 0 (node 0 0 (form fields label children none))
    (form fields label children none).encode := spells_encode hb hl₀
  -- the tree without strays, as the blueprint describes it
  obtain ⟨t, ht, hroot, hn⟩ : ∃ t,
      Tree.ofBytes (form fields label children none).encode.toArray = .ok t ∧
      t.root = formAt 0 0 (form fields label children none).encode.length fields label ∧
      Node.ofTree limits t = node 0 0 (form fields label children none) := by
    have hall : (form fields label children none).encode <+:
        (form fields label children none).encode.toArray.toList := List.prefix_refl _
    obtain ⟨ht, hn, -⟩ := Tree.ofBytes_of_spells hspells rfl hall
    exact ⟨_, ht, rfl, hn⟩
  have haround : (formAt 0 0 (form fields label strewn none).encode.length fields
      label).SpellsAround (encodeAll strewn) (form fields label strewn none).encode :=
    spellsAround_formAt hlabel hl
  -- the tree with strays, whose root holds all that was written
  obtain ⟨t', ht', hroot', hholds⟩ : ∃ t',
      Tree.ofBytes (form fields label strewn none).encode.toArray = .ok t' ∧
      t'.root = formAt 0 0 (form fields label strewn none).encode.length fields label ∧
      t'.window.Holds t'.root.childrenStart (encodeAll strewn) := by
    have hall : (form fields label strewn none).encode <+:
        (form fields label strewn none).encode.toArray.toList := List.prefix_refl _
    obtain ⟨ht', hholds, -⟩ := Tree.ofBytes_of_spellsAround haround rfl rfl hall
    exact ⟨_, ht', rfl, hholds⟩
  refine ⟨t, t', ht, ht', ?_, fun tree => hn ▸ Node.clean_of_spells hspells, ?_⟩
  · simp only [Tree.name, hroot, hroot', formAt]
  have hfill := haround.stop_eq.2
  rw [← hroot'] at hfill
  have hstart : t'.root.childrenStart = Layout.formLength + (encodeField? label).length := by
    rw [hroot', formAt, Nat.zero_add]
  rw [hstart] at hholds hfill
  have hlimit : t'.window.limit < Window.addressSpace :=
    Nat.lt_of_le_of_lt (Nat.min_le_left ..) (Tree.stop_lt_addressSpace ht')
  have hform : (formAt 0 0 (form fields label strewn none).encode.length fields label).placeless =
      (formAt 0 0 (form fields label children none).encode.length fields label).placeless := by
    simp only [Form.placeless, formAt]
  rw [hn, node, Node.ofTree, hstart, hroot', ← List.append_nil strays]
  exact .form hform (hs.outline hchildren hholds hfill hlimit (by omega)) .nil

/-- **Strays are passed over.** Let a well-formed form have strays put anywhere into it and into its
forms, and let the whole still fit a 32-bit size. Both forms make trees. A callback that refuses
nothing is called back for the same events in both, but for the places of records and the sizes of
forms, and as many forms, options and values are counted. All that the walk notes is one warning for
each stray, at its offset and with its tag. A lookup of any name answers the same in both, but for
the place of the default. -/
theorem walk_strewn {f : Callback σ} (hf : f.Willing) (s : σ) (limits : Limits) (index : Nat)
    {fields : CommonFields} {label : Option FieldSpec} {size : Option UInt32}
    {children strewn : List Blueprint} {strays : List (Nat × UInt32)}
    (hb : (form fields label children size).WellFormed limits 0)
    (hs : Strewn (Layout.formLength + (encodeField? label).length) children strewn strays)
    (hl : (form fields label strewn size).encode.length < 0x100000000) :
    ∃ t t', Tree.ofBytes (form fields label children size).encode.toArray = .ok t ∧
      Tree.ofBytes (form fields label strewn size).encode.toArray = .ok t' ∧
      let walk := fun t => Walk.tree f.logged limits index t (s, [])
      (walk t').2.2.map Event.placeless = (walk t).2.2.map Event.placeless ∧
      (walk t').1.forms = (walk t).1.forms ∧ (walk t').1.options = (walk t).1.options ∧
      (walk t').1.enumValues = (walk t).1.enumValues ∧
      (walk t').1.diagnostics = strays.map (Node.strayWarning index) ∧
      ∀ form? name, (Lookup.find limits form? name [t']).map DefaultValue.placeless =
        (Lookup.find limits form? name [t]).map DefaultValue.placeless := by
  obtain ⟨t, t', ht, ht', hname, hclean, hevents, hnotes⟩ := exists_trees_of_strewn hb hs hl
  simp only [Node.eventsAll, Node.reportAll, List.append_nil, Report.append_nil] at hevents hnotes
  obtain ⟨hforms, hoptions, hvalues⟩ := Node.counts_report_congr index hevents
  refine ⟨t, t', ht, ht', ?_⟩
  simp only [Walk.tree_logged hf]
  refine ⟨hevents, hforms, hoptions, hvalues, hnotes index,
    Lookup.find_placeless hname hevents (fun d hd => ?_) fun d hd => ?_⟩
  · rw [hclean] at hd
    exact absurd hd List.not_mem_nil
  · rw [hnotes] at hd
    obtain ⟨stray, -, rfl⟩ := List.mem_map.mp hd
    nofun

/-- A label follows that of the form, a help text follows the switch, and an unknown record stands
in the inner form. -/
theorem walk_strewn_setup :
    let switch := OptionSpec.numeric .bool ⟨2, 0, ⟨4⟩⟩ "on" "On" 1
    let note := OptionSpec.comment ⟨0, 0, ⟨0⟩⟩ "Note"
    let setup := form ⟨1, 0, ⟨0⟩⟩ (some (.text .label "Setup"))
      [.option switch, .form ⟨3, 2, ⟨0⟩⟩ (some (.text .label "Inner")) [.option note] none] none
    let strewn := form ⟨1, 0, ⟨0⟩⟩ (some (.text .label "Setup"))
      [.verbatim (frame 0x0108 none [2, 0, 0, 0, 72, 0]), .option switch,
        .verbatim (frame 0x0109 none [1, 0, 0, 0, 0]),
        .form ⟨3, 2, ⟨0⟩⟩ (some (.text .label "Inner"))
          [.verbatim (frame 0x9999 none []), .option note] none] none
    let walk := fun t => Walk.tree Callback.silent.logged {} 0 t ((), [])
    ∃ t t', Tree.ofBytes setup.encode.toArray = .ok t ∧
      Tree.ofBytes strewn.encode.toArray = .ok t' ∧
      (walk t').2.2.map Event.placeless = (walk t).2.2.map Event.placeless ∧
      (walk t').1.diagnostics.map (fun d => (d.offset, d.tag)) =
        [(46, 0x0108), (122, 0x0109), (181, 0x9999)] ∧
      ∀ name, (Lookup.find {} none name [t']).map DefaultValue.placeless =
        (Lookup.find {} none name [t]).map DefaultValue.placeless := by
  intro switch note setup strewn walk
  have hb : setup.WellFormed {} 0 :=
    ⟨Nat.zero_le _, rfl, FieldSpec.given_text .., OptionSpec.wellFormed_numeric ..,
      ⟨by decide, rfl, FieldSpec.given_text .., OptionSpec.wellFormed_comment .., trivial⟩, trivial⟩
  obtain ⟨t, t', ht, ht', hlog, -, -, -, hnotes, hfind⟩ :=
    walk_strewn Callback.willing_silent () {} 0 hb
      (.stray (by decide) (.option (.stray (by decide)
        (.form (.stray (by decide) (.option .nil)) .nil))))
      (show strewn.encode.length < 0x100000000 by decide +kernel)
  refine ⟨t, t', ht, ht', hlog, ?_, hfind none⟩
  show (walk t').1.diagnostics.map _ = _
  rw [hnotes]
  decide +kernel

end Blueprint

end SetupForms
