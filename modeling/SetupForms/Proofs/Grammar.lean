import SetupForms.Proofs.WireOutline

/-!
# The grammar of the format

`Derives` is a grammar over plain bytes: it knows no window, no cursor and no decoder. A walk that
does nothing leaves a clean report for a buffer exactly if some prefix of the buffer derives a form
at depth 0 (`clean_iff_derives`). So neither a byte of slack nor a field in the wrong place nor a
size that reaches into a neighbour gets past a walk unnoticed, and nothing well formed is rejected.

The two directions are of different kinds. What is spelled is derived by induction on the node,
because a node has one rule for each of its parts. What is derived is spelled by induction on the
derivation, and there the offsets have to be made up: a derivation says nothing of places, so the
statement is that bytes which derive a symbol spell something at every place (`Placed`).
-/

namespace SetupForms.Grammar

open Blueprint

/-- What a run of bytes may be. Depths are those of the enclosing form, or of the form itself. -/
inductive Symbol where
  /-- a form at a depth, with all it holds -/
  | form (depth : Nat)
  /-- one record of a form at a depth -/
  | child (depth : Nat)
  /-- all records of a form at a depth -/
  | children (depth : Nat)
  /-- a numeric option with its values -/
  | numeric (kind : NumericKind)
  /-- a text option or a comment -/
  | text (kind : TextKind)
  /-- the values of a numeric option -/
  | values (kind : NumericKind)

/-- The bytes `bs` derive a symbol. -/
inductive Derives (limits : Limits) : Symbol → List UInt8 → Prop where
  /-- a form is its fixed part, its label and its children -/
  | form {depth : Nat} {size : UInt32} {fields : CommonFields} {name : String}
      {label children bs : List UInt8} :
      Field.IsText Kind.label.tag name label → Derives limits (.children depth) children →
      IsRecord Kind.form.tag size (encodeFields fields ++ label ++ children) bs →
      Derives limits (.form depth) bs
  /-- a form may stand in a form, as long as the depth allows it -/
  | nested {depth : Nat} {bs : List UInt8} :
      depth + 1 ≤ limits.maxDepth → Derives limits (.form (depth + 1)) bs →
      Derives limits (.child depth) bs
  /-- so may a numeric option -/
  | option {depth : Nat} {kind : NumericKind} {bs : List UInt8} :
      Derives limits (.numeric kind) bs → Derives limits (.child depth) bs
  /-- and a text option or comment -/
  | line {depth : Nat} {kind : TextKind} {bs : List UInt8} :
      Derives limits (.text kind) bs → Derives limits (.child depth) bs
  /-- a form may hold nothing -/
  | nil {depth : Nat} : Derives limits (.children depth) []
  /-- or one record and then others -/
  | cons {depth : Nat} {a b : List UInt8} :
      Derives limits (.child depth) a → Derives limits (.children depth) b →
      Derives limits (.children depth) (a ++ b)
  /-- a numeric option has a default, a name, a label, perhaps a help text, and values -/
  | numeric {kind : NumericKind} {size default : UInt32} {fields : CommonFields}
      {name label : String} {help : Option String} {a b c values bs : List UInt8} :
      Field.IsText Kind.optionName.tag name a → Field.IsText Kind.label.tag label b →
      Field.IsOptionalText Kind.help.tag help c → Derives limits (.values kind) values →
      IsRecord kind.kind.tag size
        (encodeFields fields ++ Bytes.ofUInt32 default ++ a ++ b ++ c ++ values) bs →
      Derives limits (.numeric kind) bs
  /-- an option of any kind may have no values -/
  | noValues {kind : NumericKind} : Derives limits (.values kind) []
  /-- an enum may have a value and then others -/
  | value {size number : UInt32} {label : String} {l a b : List UInt8} :
      Field.IsText Kind.label.tag label l →
      IsRecord Kind.enumValue.tag size (Bytes.ofUInt32 number ++ l) a →
      Derives limits (.values .enum) b → Derives limits (.values .enum) (a ++ b)
  /-- a text option has a default that is not too long, a name, a label, and perhaps a help text -/
  | varchar {size : UInt32} {fields : CommonFields} {default : Field} {name label : String}
      {help : Option String} {a b c d bs : List UInt8} :
      default.tag = Kind.defaultValue.tag → default.dataLength ≤ limits.maxDefaultLength →
      default.Spells a → Field.IsText Kind.optionName.tag name b →
      Field.IsText Kind.label.tag label c → Field.IsOptionalText Kind.help.tag help d →
      IsRecord Kind.varchar.tag size (encodeFields fields ++ (a ++ b) ++ c ++ d) bs →
      Derives limits (.text .varchar) bs
  /-- a comment has a label, and perhaps a help text -/
  | comment {size : UInt32} {fields : CommonFields} {label : String} {help : Option String}
      {a b bs : List UInt8} :
      Field.IsText Kind.label.tag label a → Field.IsOptionalText Kind.help.tag help b →
      IsRecord Kind.comment.tag size (encodeFields fields ++ a ++ b) bs →
      Derives limits (.text .comment) bs

variable {limits : Limits} {depth cursor : Nat} {bs : List UInt8}

/-! ## What is spelled is derived

A spelling carries the offsets of its records and a derivation does not, so this direction only
forgets.
-/

/-- Values that are spelled are derived. -/
theorem derives_of_values {vs : List EnumValue} (hs : EnumValue.SpellAll cursor vs bs) :
    Derives limits (.values .enum) bs := by
  induction vs generalizing cursor bs with
  | nil =>
    obtain rfl : bs = [] := hs
    exact .noValues
  | cons v vs ih =>
    obtain ⟨a, b, rfl, -, ⟨size, l, hl, hrec⟩, hall⟩ := hs
    exact .value hl hrec (ih hall)

/-- A numeric option that is spelled is derived. -/
theorem derives_of_numeric {o : NumericOption} (hs : o.Spells bs) :
    Derives limits (.numeric o.kind) bs := by
  obtain ⟨name, label, help, values, hname, hlabel, hhelp, hvalues, hne, hrec⟩ := hs
  refine .numeric hname hlabel hhelp ?_ hrec
  by_cases hk : o.kind = .enum
  · rw [hk]
    exact derives_of_values hvalues
  · rw [hne hk] at hvalues
    obtain rfl : values = [] := hvalues
    exact .noValues

/-- A text option or comment that is spelled is derived. -/
theorem derives_of_text {o : TextOption} (hs : o.Spells limits bs) :
    Derives limits (.text o.kind) bs := by
  obtain ⟨value, label, help, hvalue, hlabel, hhelp, hrec⟩ := hs
  unfold TextOption.SpellsValue at hvalue
  split at hvalue
  next f s hk hdef hname =>
    obtain ⟨a, b, rfl, -, htag, hlen, hsp, hname⟩ := hvalue
    rw [hk] at hrec ⊢
    exact .varchar htag hlen hsp hname hlabel hhelp hrec
  next hk hdef hname =>
    obtain rfl := hvalue
    rw [hk, List.append_nil] at hrec
    rw [hk]
    exact .comment hlabel hhelp hrec
  next => exact hvalue.elim

mutual

/-- A record that is spelled is derived. -/
theorem child_of_spells : ∀ {n : Node} {depth : Nat} {bs : List UInt8},
    n.Spells limits (depth + 1) bs → Derives limits (.child depth) bs
  | .form _ _, _, _, ⟨_, hmax, _, hall, _, ht, hrec, _⟩ =>
    .nested hmax (.form ht (children_of_spellAll hall) hrec)
  | .numeric _, _, _, hs => .option (derives_of_numeric hs)
  | .text _, _, _, hs => .line (derives_of_text hs)

/-- Records one behind the other are derived. -/
theorem children_of_spellAll : ∀ {ns : List Node} {depth cursor : Nat} {bs : List UInt8},
    Node.SpellAll limits (depth + 1) cursor ns bs → Derives limits (.children depth) bs
  | [], _, _, bs, hs => by
    obtain rfl : bs = [] := hs
    exact .nil
  | n :: ns, _, _, bs, ⟨a, b, hab, _, hs, hall⟩ => by
    rw [hab]
    exact .cons (child_of_spells hs) (children_of_spellAll hall)

end

/-- A form that is spelled is derived. -/
theorem form_of_spells {root : Form} {ns : List Node}
    (hs : (Node.form root ns).Spells limits depth bs) : Derives limits (.form depth) bs := by
  obtain ⟨-, -, inner, hall, label, ht, hrec, -⟩ := hs
  exact .form ht (children_of_spellAll hall) hrec

/-! ## What is derived is spelled

The place of a record is where the bytes before it end. So the children of a form are placed behind
its label, and each record behind the one before it.
-/

/-- At every place the bytes `bs` spell something that the symbol stands for. -/
def Placed (limits : Limits) : Symbol → List UInt8 → Prop
  | .form depth, bs => depth ≤ limits.maxDepth → ∀ offset, ∃ f ns,
    f.offset = offset ∧ (Node.form f ns).Spells limits depth bs
  | .child depth, bs => ∀ offset, ∃ n : Node, n.offset = offset ∧ n.Spells limits (depth + 1) bs
  | .children depth, bs => ∀ cursor, ∃ ns, Node.SpellAll limits (depth + 1) cursor ns bs
  | .numeric kind, bs => ∀ offset, ∃ o : NumericOption,
    o.offset = offset ∧ o.kind = kind ∧ o.Spells bs
  | .text kind, bs => ∀ offset, ∃ o : TextOption,
    o.offset = offset ∧ o.kind = kind ∧ o.Spells limits bs
  | .values kind, bs => ∀ cursor, ∃ vs, EnumValue.SpellAll cursor vs bs ∧ (kind ≠ .enum → vs = [])

/-- What derives a symbol spells something of its kind at every place. -/
theorem placed_of_derives {s : Symbol} (hd : Derives limits s bs) : Placed limits s bs := by
  induction hd with
  | @form depth size fields name label children bs ht _ hrec ih =>
    intro hmax offset
    obtain ⟨ns, hall⟩ := ih (offset + Layout.formLength + label.length)
    exact ⟨⟨offset, size, fields, name, depth, offset + Layout.formLength + label.length,
      offset + bs.length⟩, ns, rfl, rfl, hmax, children, hall, label, ht, hrec, rfl, rfl⟩
  | nested hmax _ ih =>
    intro offset
    obtain ⟨f, ns, ho, hs⟩ := ih hmax offset
    exact ⟨.form f ns, ho, hs⟩
  | option _ ih =>
    intro offset
    obtain ⟨o, ho, -, hs⟩ := ih offset
    exact ⟨.numeric o, ho, hs⟩
  | line _ ih =>
    intro offset
    obtain ⟨o, ho, -, hs⟩ := ih offset
    exact ⟨.text o, ho, hs⟩
  | nil => exact fun _ => ⟨[], rfl⟩
  | @cons depth a b _ _ iha ihb =>
    intro cursor
    obtain ⟨n, ho, hs⟩ := iha cursor
    obtain ⟨ns, hall⟩ := ihb (cursor + a.length)
    exact ⟨n :: ns, a, b, rfl, ho, hs, hall⟩
  | @numeric kind size default fields name label help a b c values bs ha hb hc _ hrec ih =>
    intro offset
    obtain ⟨vs, hvs, hne⟩ := ih (offset + Layout.numericLength + a.length + b.length + c.length)
    exact ⟨⟨offset, size, kind, fields, default, name, label, help, vs⟩, rfl, rfl,
      a, b, c, values, ha, hb, hc, hvs, hne, hrec⟩
  | noValues => exact fun _ => ⟨[], rfl, fun _ => rfl⟩
  | @value size number label l a b hl hrec _ ih =>
    intro cursor
    obtain ⟨vs, hvs, -⟩ := ih (cursor + a.length)
    exact ⟨⟨cursor, number, label⟩ :: vs, ⟨a, b, rfl, rfl, ⟨size, l, hl, hrec⟩, hvs⟩,
      fun hk => absurd rfl hk⟩
  | @varchar size fields default name label help a b c d bs htag hlen ha hb hc hd hrec =>
    intro offset
    -- the default says nothing of where it stands, so it can be moved to its place
    let placed : Field := { default with offset := offset + Layout.textLength }
    exact ⟨⟨offset, size, .varchar, fields, some placed, some name, label, help⟩, rfl, rfl,
      a ++ b, c, d, ⟨a, b, rfl, rfl, htag, hlen, ha, hb⟩, hc, hd, hrec⟩
  | @comment size fields label help a b bs ha hb hrec =>
    intro offset
    refine ⟨⟨offset, size, .comment, fields, none, none, label, help⟩, rfl, rfl,
      [], a, b, rfl, ha, hb, ?_⟩
    rwa [List.append_nil]

/-! ## Walks and the grammar

A clean walk is one whose nodes are all spelled, which is what the wire theory says of it.
-/

/-- **Walks accept the grammar.** A buffer makes a tree whose walk finds nothing amiss exactly if
some prefix of the buffer derives a form at depth 0. -/
theorem clean_iff_derives (limits : Limits) (index : Nat) (bytes : Array UInt8) :
    (∃ t, Tree.ofBytes bytes = .ok t ∧
        (Walk.tree Callback.silent limits index t ()).1.isClean = true) ↔
      ∃ p, p <+: bytes.toList ∧ Derives limits (.form 0) p := by
  have hwalk : ∀ t, (Walk.tree Callback.silent limits index t ()).1.isClean = true ↔
      (Node.ofTree limits t).Clean index := by
    intro t
    rw [Walk.tree_of_willing Callback.willing_silent, Report.isClean, List.isEmpty_iff]
    rfl
  constructor
  · rintro ⟨t, ht, hc⟩
    obtain ⟨p, hs, hp⟩ := Tree.exists_of_ofBytes ht ((hwalk t).mp hc)
    exact ⟨p, hp, form_of_spells hs⟩
  · rintro ⟨p, hp, hd⟩
    obtain ⟨root, ns, ho, hs⟩ := placed_of_derives hd (Nat.zero_le _) 0
    obtain ⟨ht, hn, -⟩ := Tree.ofBytes_of_spells hs ho hp
    refine ⟨_, ht, (hwalk _).mpr ?_⟩
    rw [hn]
    exact Node.clean_of_spells hs

end SetupForms.Grammar
