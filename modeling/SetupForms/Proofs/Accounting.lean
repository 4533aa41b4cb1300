import SetupForms.Blueprint
import SetupForms.Proofs.Acts
import SetupForms.Proofs.OutlineNode

/-!
# Every child is accounted for once

`Accounts` says, of the acts of a walk alone, how they cover a form: its framed children stand one
behind the other, each of them has one outcome at its own offset, and they end with the form or at
the first header that cannot be read. The acts of every walk are of this kind
(`Tree.walk_accounts`), so that nothing is lost, nothing is called back or noted twice, and offsets
only grow.

Nothing in `Accounts` mentions the walk: its rules speak of headers that parse and of acts in a row.
That the acts of a walk are such a row is proved once, by induction along the outline
(`Node.accounts_children`). Whatever can be said of the walk as a whole then follows by induction on
the rules, without another look at the decoders: the order of the offsets, that every call is in the
tree, and that forms are entered and left in brackets.
-/

namespace SetupForms

universe u

variable {σ : Type u} {bytes : Array UInt8} {w : Window} {limits : Limits} {tree cursor depth : Nat}

/-! ## What acts may cover

A numeric option is covered by more than its own record: its values are records as well, and an
account that leaves them out would be satisfied by a walk that drops some. So the values must tile
the option from the end of its last text field to its end, where the text fields are framed one
behind the other from the end of the fixed part.
-/

/-- A record of the kind is framed at `cursor` and ends at `next`. -/
def Window.FramesKind (w : Window) (kind : Kind) (cursor next : Nat) : Prop :=
  ∃ h, Header.parse w cursor = .ok h ∧ h.tag = kind.tag ∧ h.stop = next

/-- An optional text stands in a record of the kind that is framed at `cursor` and ends at `next`.
Where there is no text, no such record is to be seen. -/
def Window.FramesOptional (w : Window) (kind : Kind) (cursor next : Nat) : Option String → Prop
  | some _ => w.FramesKind kind cursor next
  | none => next = cursor ∧ Header.tagAt? w cursor ≠ some kind.tag

/-- The values stand one behind the other from `cursor` to the end of the window, each in a record
of its own. -/
def EnumValue.Tile (w : Window) : Nat → List EnumValue → Prop
  | cursor, [] => cursor = w.stop
  | cursor, v :: vs =>
    v.offset = cursor ∧ ∃ next, w.FramesKind .enumValue cursor next ∧ Tile w next vs

/-- The text fields of a numeric option end at `stop`: behind the fixed part comes the name, then
the label, and then the help text if there is one. -/
def NumericOption.TextsEnd (bytes : Array UInt8) (h : Header) (o : NumericOption) (stop : Nat) :
    Prop :=
  let w : Window := ⟨bytes, h.stop⟩
  ∃ label behind,
    w.FramesKind .optionName (h.offset + Layout.numericLength) label ∧
    w.FramesKind .label label behind ∧ w.FramesOptional .help behind stop o.help

/-- The values of a numeric option tile it from the end of its text fields to its own end. Only an
enum has values, so that the text fields of another option end with it. -/
def NumericOption.Tiled (bytes : Array UInt8) (h : Header) (o : NumericOption) : Prop :=
  (∃ start, o.TextsEnd bytes h start ∧ EnumValue.Tile ⟨bytes, h.stop⟩ start o.values) ∧
    (o.kind ≠ .enum → o.values = [])

/-- A text option has a name and a default, and a comment has neither. -/
def TextOption.Complete (o : TextOption) : Prop :=
  match o.kind with
  | .varchar => (∃ name, o.name = some name) ∧ ∃ field, o.default = some field
  | .comment => o.name = none ∧ o.default = none

/-- A stretch of a form. -/
inductive Stretch where
  /-- what stands in a form from a cursor on -/
  | rest (form : Form) (cursor : Nat)
  /-- one framed child of a form -/
  | child (parent : Form) (header : Header)

/-- The acts account for a stretch: for the rest of a form child by child, for a child by its one
outcome. -/
inductive Accounts (bytes : Array UInt8) (tree : Nat) : Stretch → List Act → Prop where
  /-- the children end with the form -/
  | filled {form : Form} : Accounts bytes tree (.rest form form.stop) []
  /-- no header can be read, and the rest of the form is lost -/
  | torn {form : Form} {cursor : Nat} {fault : Fault} :
      cursor < form.stop → Header.parse ⟨bytes, form.stop⟩ cursor = .error fault →
      Accounts bytes tree (.rest form cursor)
        [.note ⟨tree, cursor, (Header.tagAt? ⟨bytes, form.stop⟩ cursor).getD 0, .error, fault⟩]
  /-- a child is framed, and the next one starts where it ends -/
  | framed {form : Form} {cursor : Nat} {h : Header} {a b : List Act} :
      cursor < form.stop → Header.parse ⟨bytes, form.stop⟩ cursor = .ok h →
      Accounts bytes tree (.child form h) a → Accounts bytes tree (.rest form h.stop) b →
      Accounts bytes tree (.rest form cursor) (a ++ b)
  /-- a child is skipped -/
  | skipped {parent : Form} {h : Header} {severity : Severity} {fault : Fault} :
      Accounts bytes tree (.child parent h) [.note ⟨tree, h.offset, h.tag, severity, fault⟩]
  /-- a child is called back as a text option or comment -/
  | text {parent : Form} {h : Header} {o : TextOption} :
      o.offset = h.offset → o.Complete →
      Accounts bytes tree (.child parent h) [.call tree (.text o)]
  /-- a child is called back as a numeric option, right behind its values -/
  | numeric {parent : Form} {h : Header} {o : NumericOption} :
      o.offset = h.offset → o.Tiled bytes h →
      Accounts bytes tree (.child parent h)
        ((o.values.map (Event.value o) ++ [Event.numeric o]).map (.call tree))
  /-- a child is entered as a form one level deeper, and left behind all that it holds -/
  | form {parent form : Form} {h : Header} {inner : List Act} :
      form.offset = h.offset → form.stop = h.stop → form.depth = parent.depth + 1 →
      form.offset < form.childrenStart → form.childrenStart ≤ form.stop →
      Accounts bytes tree (.rest form form.childrenStart) inner →
      Accounts bytes tree (.child parent h)
        (.call tree (.enter form) :: (inner ++ [.call tree (.exit form)]))

/-! ## Walks account

Both ends of a tiling come from the decoder: it reads the fields in their order, each from where the
one before ended, and it refuses an option whose last value does not end with the option.
-/

/-- A mandatory text ends inside of the window. -/
theorem Field.stop_le_of_requireText {tag : UInt32} {s : String} {next : Nat}
    (hr : requireText w cursor tag = .ok (s, next)) : next ≤ w.limit := by
  obtain ⟨f, hf, hr⟩ := bind_eq_ok_iff.mp hr
  obtain ⟨t, -, hr⟩ := bind_eq_ok_iff.mp hr
  obtain ⟨-, rfl⟩ := Prod.mk.inj (pure_eq_ok_iff.mp hr)
  exact (require_stop hf).2.2

/-- An optional text ends inside of the window, and so does its absence. -/
theorem Field.stop_le_of_optionalText {tag : UInt32} {s : Option String} {next : Nat}
    (hr : optionalText w cursor tag = .ok (s, next)) (hc : cursor ≤ w.limit) : next ≤ w.limit := by
  obtain ⟨found, hn, hr⟩ := bind_eq_ok_iff.mp hr
  cases found with
  | none =>
    obtain ⟨-, rfl⟩ := Prod.mk.inj (pure_eq_ok_iff.mp hr)
    exact hc
  | some f =>
    obtain ⟨t, -, hr⟩ := bind_eq_ok_iff.mp hr
    obtain ⟨-, rfl⟩ := Prod.mk.inj (pure_eq_ok_iff.mp hr)
    exact (require_stop (require_eq_ok_iff.mpr hn)).2.2

/-- A field is a record of the kind for which it was asked. -/
theorem Field.framesKind_of_require {kind : Kind} {f : Field}
    (hr : require w cursor kind.tag = .ok f) : w.FramesKind kind cursor f.stop := by
  have hn := require_eq_ok_iff.mp hr
  obtain ⟨h, hp, hread⟩ := bind_eq_ok_iff.mp (next?_eq_some hn)
  obtain ⟨-, hread⟩ := guard_eq_ok_iff.mp hread
  obtain ⟨n, -, hread⟩ := bind_eq_ok_iff.mp hread
  obtain ⟨data, -, hread⟩ := bind_eq_ok_iff.mp hread
  obtain rfl := pure_eq_ok_iff.mp hread
  obtain ⟨ho, -, -, htag, -⟩ := Header.parse_eq_ok hp
  refine ⟨h, hp, ?_, congrArg (· + h.size.toNat) ho⟩
  -- the field is given out because its tag was to be seen
  unfold next? at hn
  split at hn
  next hseen =>
    obtain ⟨-, hseen⟩ := Option.ite_none_left_eq_some.mp hseen
    exact Except.ok.inj (htag.symm.trans (toOption_eq_some_iff.mp hseen))
  next => cases hn

/-- A mandatory text stands in a record of its kind. -/
theorem Field.framesKind_of_requireText {kind : Kind} {s : String} {next : Nat}
    (hr : requireText w cursor kind.tag = .ok (s, next)) : w.FramesKind kind cursor next := by
  obtain ⟨f, hf, hr⟩ := bind_eq_ok_iff.mp hr
  obtain ⟨t, -, hr⟩ := bind_eq_ok_iff.mp hr
  obtain ⟨-, rfl⟩ := Prod.mk.inj (pure_eq_ok_iff.mp hr)
  exact framesKind_of_require hf

/-- An optional text is a record of its kind, or none is to be seen. -/
theorem Field.framesOptional_of_optionalText {kind : Kind} {s : Option String} {next : Nat}
    (hr : optionalText w cursor kind.tag = .ok (s, next)) :
    w.FramesOptional kind cursor next s := by
  obtain ⟨found, hn, hr⟩ := bind_eq_ok_iff.mp hr
  cases found with
  | none =>
    obtain ⟨rfl, rfl⟩ := Prod.mk.inj (pure_eq_ok_iff.mp hr)
    refine ⟨rfl, fun hseen => ?_⟩
    rw [next?, if_pos hseen] at hn
    obtain ⟨f, -, hf⟩ := map_eq_ok_iff.mp hn
    cases hf
  | some f =>
    obtain ⟨t, -, hr⟩ := bind_eq_ok_iff.mp hr
    obtain ⟨rfl, rfl⟩ := Prod.mk.inj (pure_eq_ok_iff.mp hr)
    exact framesKind_of_require (require_eq_ok_iff.mpr hn)

/-- A record that ends at `next` was framed before it. -/
theorem Window.FramesKind.lt {kind : Kind} {next : Nat} (hf : w.FramesKind kind cursor next) :
    cursor < next := by
  obtain ⟨h, hp, -, rfl⟩ := hf
  exact Header.lt_stop_of_parse hp

/-- An optional text ends no earlier than it starts. -/
theorem Window.FramesOptional.le {kind : Kind} {next : Nat} {s : Option String}
    (hf : w.FramesOptional kind cursor next s) : cursor ≤ next := by
  cases s with
  | none => exact Nat.le_of_eq hf.1.symm
  | some _ => exact Nat.le_of_lt (FramesKind.lt hf)

/-- The text fields stand behind the fixed part. -/
theorem NumericOption.TextsEnd.le {bytes : Array UInt8} {h : Header} {o : NumericOption}
    {stop : Nat} (ht : o.TextsEnd bytes h stop) : h.offset + Layout.numericLength ≤ stop := by
  obtain ⟨label, behind, hname, hlabel, hhelp⟩ := ht
  have hbehind := Nat.lt_trans hname.lt hlabel.lt
  exact Nat.le_trans (Nat.le_of_lt hbehind) hhelp.le

/-- A value is decoded from a record of its kind. -/
theorem EnumValue.tag_of_decode {h : Header} {v : EnumValue} (hd : decode w h = .ok v) :
    h.tag = Kind.enumValue.tag := by
  obtain ⟨value, hv, -⟩ := bind_eq_ok_iff.mp hd
  exact Header.requireTag_eq_ok_iff.mp (guard_eq_ok_iff.mp hv).1

/-- Decoded values tile what they are decoded from. -/
theorem EnumValue.tile_of_decodeAll {vs : List EnumValue} (hd : decodeAll w cursor = .ok vs)
    (hc : cursor ≤ w.stop) : Tile w cursor vs := by
  fun_induction decodeAll w cursor generalizing vs with
  | case1 cursor hlt f hp => cases hd
  | case2 cursor hlt h hp f hv => cases hd
  | case3 cursor hlt h hp v hv ih =>
    obtain ⟨vs', hvs, rfl⟩ := map_eq_ok_iff.mp hd
    obtain ⟨ho, -, hle, -⟩ := Header.parse_eq_ok hp
    have hw : w.limit ≤ w.stop := Nat.min_le_left ..
    exact ⟨(offset_of_decode hv).trans ho, h.stop, ⟨h, hp, tag_of_decode hv, rfl⟩,
      ih hvs (by omega)⟩
  | case4 cursor hge =>
    obtain rfl := Except.ok.inj hd
    exact (by omega : cursor = w.stop)

/-- A decoded numeric option is tiled: its values, if it has any, start where its text fields end.
-/
theorem NumericOption.tiled_of_decode {h : Header} {o : NumericOption} {kind : NumericKind}
    (hd : decode w h kind = .ok o) : o.Tiled w.bytes h := by
  obtain ⟨⟨fields, default⟩, -, hd⟩ := bind_eq_ok_iff.mp hd
  obtain ⟨⟨name, c₁⟩, hn, hd⟩ := bind_eq_ok_iff.mp hd
  obtain ⟨⟨label, c₂⟩, hl, hd⟩ := bind_eq_ok_iff.mp hd
  obtain ⟨⟨help, c₃⟩, hh, hd⟩ := bind_eq_ok_iff.mp hd
  obtain ⟨values, hv, hd⟩ := bind_eq_ok_iff.mp hd
  obtain rfl := pure_eq_ok_iff.mp hd
  have htexts : TextsEnd w.bytes h
      ⟨h.offset, h.size, kind, fields, default, name, label, help, values⟩ c₃ :=
    ⟨c₁, c₂, Field.framesKind_of_requireText hn, Field.framesKind_of_requireText hl,
      Field.framesOptional_of_optionalText hh⟩
  have hle := Field.stop_le_of_optionalText hh (Field.stop_le_of_requireText hl)
  have hw : (w.upTo h.stop).limit ≤ h.stop := Nat.min_le_left ..
  cases kind with
  | enum =>
    exact ⟨⟨c₃, htexts, EnumValue.tile_of_decodeAll hv (Nat.le_trans hle hw)⟩,
      fun hk => absurd rfl hk⟩
  | number | bool =>
    -- nothing follows the texts, so that they end with the option
    obtain ⟨⟨⟩, hf, rfl⟩ := map_eq_ok_iff.mp hv
    exact ⟨⟨c₃, htexts, Header.requireFilled_eq_ok_iff.mp hf⟩, fun _ => rfl⟩

theorem TextOption.complete_of_decode {h : Header} {o : TextOption} {kind : TextKind}
    (hd : decode w h kind limits = .ok o) : o.Complete := by
  obtain ⟨fields, -, hd⟩ := bind_eq_ok_iff.mp hd
  obtain ⟨⟨default, name, c₁⟩, hv, hd⟩ := bind_eq_ok_iff.mp hd
  obtain ⟨⟨label, c₂⟩, -, hd⟩ := bind_eq_ok_iff.mp hd
  obtain ⟨⟨help, c₃⟩, -, hd⟩ := bind_eq_ok_iff.mp hd
  obtain ⟨-, hd⟩ := guard_eq_ok_iff.mp hd
  obtain rfl := pure_eq_ok_iff.mp hd
  cases kind with
  | comment =>
    cases hv
    exact ⟨rfl, rfl⟩
  | varchar =>
    obtain ⟨field, -, hv⟩ := bind_eq_ok_iff.mp hv
    obtain ⟨-, hv⟩ := guard_eq_ok_iff.mp hv
    obtain ⟨⟨text, c⟩, -, hv⟩ := bind_eq_ok_iff.mp hv
    cases hv
    exact ⟨⟨_, rfl⟩, _, rfl⟩

namespace Node

/-- A framed child has one outcome, if what a nested form holds is accounted for. -/
theorem accounts_ofHeader (limits : Limits) {parent : Form} {h : Header} {inside : (nested : Form) →
      Form.decode w h.offset (depth + 1) = .ok nested → List Node}
    (hdepth : parent.depth = depth) (hp : Header.parse w cursor = .ok h)
    (hin : ∀ nested hd, Accounts w.bytes tree (.rest nested nested.childrenStart)
      (actsAll tree (inside nested hd))) :
    Accounts w.bytes tree (.child parent h) ((ofHeader w limits depth h inside).acts tree) := by
  obtain ⟨rfl, -⟩ := Header.parse_eq_ok hp
  cases hr : Role.ofTag h.tag with
  | form =>
    by_cases hm : limits.maxDepth < depth + 1
    · rw [ofHeader_of_tooDeep hr hm]
      exact .skipped
    cases hd : Form.decode w h.offset (depth + 1) with
    | error f =>
      rw [ofHeader_of_badForm hr hm hd]
      exact .skipped
    | ok nested =>
      rw [ofHeader_of_form hr hm hd]
      obtain ⟨ho, hnested, -, hlow, hhigh, -⟩ := Form.decode_eq_ok hd
      simp only [Layout.formLength, Header.length] at hlow
      exact .form ho (Form.stop_of_decode hp hd) (hdepth ▸ hnested) (by omega) hhigh (hin nested hd)
  | numeric kind =>
    rw [ofHeader_of_numeric hr]
    cases hd : NumericOption.decode w h kind with
    | error f => exact .skipped
    | ok o =>
      exact .numeric (NumericOption.offset_of_decode hd).1 (NumericOption.tiled_of_decode hd)
  | text kind =>
    rw [ofHeader_of_text hr]
    cases hd : TextOption.decode w h kind limits with
    | error f => exact .skipped
    | ok o => exact .text (TextOption.offset_of_decode hd) (TextOption.complete_of_decode hd)
  | unrecognized =>
    rw [ofHeader_of_unrecognized hr]
    exact .skipped

/-- The outline of a form accounts for it. -/
theorem accounts_children {form : Form} (hdepth : form.depth = depth) (hstop : form.stop = w.stop)
    (hc : cursor ≤ w.stop) :
    Accounts w.bytes tree (.rest form cursor) (actsAll tree (children w limits depth cursor)) := by
  fun_induction children w limits depth cursor generalizing form with
  | case1 w depth cursor hlt f hp =>
    -- the rest of the form is lost with the header: no other act follows
    obtain ⟨bytes, stop⟩ := w
    obtain rfl : form.stop = stop := hstop
    exact .torn hlt hp
  | case2 w depth cursor hlt h hp ihin ihrest =>
    have hle := (Header.parse_eq_ok hp).2.2.1
    have hw : w.limit ≤ w.stop := Nat.min_le_left ..
    -- the child is accounted for by its role, and a form inside of it by the induction
    have hchild := accounts_ofHeader limits hdepth hp fun nested hd =>
      ihin nested hd (Form.decode_eq_ok hd).2.1 rfl (Form.decode_eq_ok hd).2.2.2.2.1
    obtain ⟨bytes, stop⟩ := w
    obtain rfl : form.stop = stop := hstop
    exact .framed hlt hp hchild (ihrest hdepth rfl (by omega))
  | case3 w depth cursor hge =>
    obtain rfl : cursor = form.stop := by omega
    exact .filled

end Node

/-! ## What accounting implies

The three properties are proved by induction on the account. In each of them the rule `framed` is
the one with an argument: it puts the acts of a child in front of those of the rest, so that it
needs the property for both and a reason why they go together. For the offsets this is the end of
the child, which lies between the two.
-/

namespace Act

/-- The offset of the child whose outcome an act is. Values and exits come with the outcome of their
option or form. -/
def anchor? : Act → Option Nat
  | call _ (.enter form) => some form.offset
  | call _ (.numeric o) => some o.offset
  | call _ (.text o) => some o.offset
  | call _ (.exit _) | call _ (.value ..) => none
  | note d => some d.offset

/-- The offsets of outcomes, in the order of the acts. -/
def anchors (as : List Act) : List Nat := as.filterMap anchor?

/-- A call is in a given tree, and not that of a root. Text options are complete. -/
def Inside (tree : Nat) : Act → Prop
  | call t e => t = tree ∧ e.opensTree = false ∧ ∀ o, e = .text o → o.Complete
  | note _ => True

/-- The outcomes of acts in a row stand in the same row. -/
theorem anchors_append (as bs : List Act) : anchors (as ++ bs) = anchors as ++ anchors bs :=
  List.filterMap_append

/-- The outcome of a numeric option is at the option, whatever values come before. -/
theorem anchors_numeric (tree : Nat) (o : NumericOption) (values : List EnumValue) :
    anchors ((values.map (Event.value o) ++ [Event.numeric o]).map (call tree)) = [o.offset] := by
  induction values with
  | nil => rfl
  | cons v vs ih => exact ih

/-- A form is anchored where it is entered. -/
theorem anchors_form (tree : Nat) (form : Form) (inner : List Act) :
    anchors (call tree (.enter form) :: (inner ++ [call tree (.exit form)])) =
      form.offset :: anchors inner := by
  rw [anchors, List.filterMap_cons, anchor?, List.filterMap_append]
  exact congrArg _ (List.append_nil _)

end Act

namespace Event

/-- The events close the forms that are open, the innermost first, and whatever forms they enter on
the way, each at the depth at which it stands. -/
def Bracketed : List Form → List Event → Prop
  | opened, [] => opened = []
  | opened, enter form :: es => form.depth = opened.length ∧ Bracketed (form :: opened) es
  | [], exit _ :: _ => False
  | innermost :: opened, exit form :: es => form = innermost ∧ Bracketed opened es
  | opened, value .. :: es | opened, numeric _ :: es | opened, text _ :: es => Bracketed opened es

/-- The values of an option and the option itself open and close nothing. -/
theorem bracketed_numeric (opened : List Form) (o : NumericOption) (values : List EnumValue)
    (es : List Event) :
    Bracketed opened (values.map (value o) ++ ([numeric o] ++ es)) ↔ Bracketed opened es := by
  induction values with
  | nil => cases opened <;> rfl
  | cons v vs ih => cases opened <;> exact ih

end Event

namespace Stretch

/-- A framed child is not empty. -/
def Proper : Stretch → Prop
  | rest .. => True
  | child _ h => h.offset < h.stop

/-- Where a stretch starts. -/
def start : Stretch → Nat
  | rest _ cursor => cursor
  | child _ h => h.offset

/-- Where a stretch ends. -/
def stop : Stretch → Nat
  | rest form _ => form.stop
  | child _ h => h.stop

/-- The form in which a stretch lies. -/
def form : Stretch → Form
  | rest form _ | child form _ => form

end Stretch

namespace Accounts

variable {stretch : Stretch} {as : List Act}

/-- The outcomes in a stretch lie in it, and their offsets grow. -/
theorem anchors_increase (ha : Accounts bytes tree stretch as) (hs : stretch.Proper) :
    (Act.anchors as).Pairwise (· < ·) ∧
      ∀ x ∈ Act.anchors as, stretch.start ≤ x ∧ x < stretch.stop := by
  induction ha with
  | filled => exact ⟨.nil, fun _ hx => absurd hx List.not_mem_nil⟩
  | torn hlt hp =>
    refine ⟨List.pairwise_singleton .., fun x hx => ?_⟩
    obtain rfl := List.mem_singleton.mp hx
    exact ⟨Nat.le_refl _, hlt⟩
  | @framed form cursor h a b hlt hp _ _ iha ihb =>
    obtain ⟨rfl, hlow, hhigh, -⟩ := Header.parse_eq_ok hp
    have hle : h.stop ≤ form.stop := Nat.le_trans hhigh (Nat.min_le_left ..)
    have hh : h.offset < h.stop := Header.lt_stop_of_parse hp
    obtain ⟨hpa, ha⟩ := iha hh
    obtain ⟨hpb, hb⟩ := ihb trivial
    simp only [Stretch.start, Stretch.stop] at ha hb ⊢
    rw [Act.anchors_append]
    refine ⟨List.pairwise_append.mpr ⟨hpa, hpb, fun x hx y hy => ?_⟩, fun x hx => ?_⟩
    · -- the end of the child is the start of the rest
      exact Nat.lt_of_lt_of_le (ha x hx).2 (hb y hy).1
    · rcases List.mem_append.mp hx with hx | hx
      · exact ⟨(ha x hx).1, Nat.lt_of_lt_of_le (ha x hx).2 hle⟩
      · exact ⟨Nat.le_trans (Nat.le_of_lt hh) (hb x hx).1, (hb x hx).2⟩
  | skipped =>
    refine ⟨List.pairwise_singleton .., fun x hx => ?_⟩
    obtain rfl := List.mem_singleton.mp hx
    exact ⟨Nat.le_refl _, hs⟩
  | text ho _ =>
    refine ⟨List.pairwise_singleton .., fun x hx => ?_⟩
    obtain rfl := List.mem_singleton.mp hx
    exact ⟨Nat.le_of_eq ho.symm, ho ▸ hs⟩
  | numeric ho _ =>
    rw [Act.anchors_numeric, ho]
    refine ⟨List.pairwise_singleton .., fun x hx => ?_⟩
    obtain rfl := List.mem_singleton.mp hx
    exact ⟨Nat.le_refl _, hs⟩
  | @form parent form h inner ho hstop _ hlow _ _ ih =>
    obtain ⟨hpair, hmem⟩ := ih trivial
    simp only [Stretch.start, Stretch.stop] at hmem ⊢
    rw [Act.anchors_form]
    -- the header of a form stands in front of all that the form holds
    refine ⟨List.pairwise_cons.mpr ⟨fun x hx => ?_, hpair⟩, fun x hx => ?_⟩
    · exact Nat.lt_of_lt_of_le hlow (hmem x hx).1
    · rw [← ho, ← hstop]
      rcases List.mem_cons.mp hx with rfl | hx
      · exact ⟨Nat.le_refl _, ho ▸ hstop ▸ hs⟩
      · exact ⟨Nat.le_trans (Nat.le_of_lt hlow) (hmem x hx).1, (hmem x hx).2⟩

/-- All acts in a stretch are inside the tree, and none of them enters a root: a form that is
entered on the way is one level deeper than the form around it. -/
theorem inside (ha : Accounts bytes tree stretch as) : ∀ a ∈ as, a.Inside tree := by
  induction ha with
  | filled => exact fun _ hx => absurd hx List.not_mem_nil
  | torn | skipped =>
    intro x hx
    obtain rfl := List.mem_singleton.mp hx
    exact trivial
  | framed _ _ _ _ iha ihb => exact fun x hx => (List.mem_append.mp hx).elim (iha x) (ihb x)
  | text _ hc =>
    intro x hx
    obtain rfl := List.mem_singleton.mp hx
    exact ⟨rfl, rfl, fun o ho => Event.text.inj ho ▸ hc⟩
  | numeric =>
    intro x hx
    obtain ⟨e, he, rfl⟩ := List.mem_map.mp hx
    rcases List.mem_append.mp he with he | he
    · obtain ⟨v, -, rfl⟩ := List.mem_map.mp he
      exact ⟨rfl, rfl, nofun⟩
    · obtain rfl := List.mem_singleton.mp he
      exact ⟨rfl, rfl, nofun⟩
  | @form parent form h inner _ _ hdepth _ _ _ ih =>
    have hne : form.depth ≠ 0 := hdepth ▸ Nat.succ_ne_zero _
    intro x hx
    rcases List.mem_cons.mp hx with rfl | hx
    · exact ⟨rfl, decide_eq_false hne, nofun⟩
    rcases List.mem_append.mp hx with hx | hx
    · exact ih x hx
    · obtain rfl := List.mem_singleton.mp hx
      exact ⟨rfl, rfl, nofun⟩

/-- The events in a stretch close whatever forms they enter. -/
theorem bracketed_append (ha : Accounts bytes tree stretch as) {opened : List Form}
    (hopened : opened.length = stretch.form.depth + 1) (es : List Event) :
    Event.Bracketed opened (Act.events as ++ es) ↔ Event.Bracketed opened es := by
  induction ha generalizing opened es with
  | filled | torn | skipped => rfl
  | framed _ _ _ _ iha ihb =>
    rw [Act.events_append, List.append_assoc, iha hopened, ihb hopened]
  | text => cases opened <;> rfl
  | numeric =>
    rw [Act.events_map_call, List.append_assoc]
    exact Event.bracketed_numeric ..
  | @form parent form h inner ho hstop hdepth hlow hhigh _ ih =>
    have hlen : form.depth = opened.length := hdepth.trans hopened.symm
    rw [Act.events_call, Act.events_append, List.cons_append, List.append_assoc, Event.Bracketed,
      ih (congrArg (· + 1) hlen.symm)]
    exact ⟨fun ⟨_, _, hb⟩ => hb, fun hb => ⟨hlen, rfl, hb⟩⟩

end Accounts

/-! ## The walk of a tree

The root is no child of anything, so its two acts are put around the account of its children by
hand.
-/

namespace Tree

/-- What a walk does in a form that it enters accounts for the children of the form. -/
theorem accounts_root {t : Tree} (ht : ofBytes t.bytes = .ok t) (limits : Limits) (tree : Nat) :
    Accounts t.bytes tree (.rest t.root t.root.childrenStart)
      (Node.actsAll tree (Node.children t.window limits 0 t.root.childrenStart)) := by
  obtain ⟨-, hdepth, -, -, hle, -⟩ := Form.decode_eq_ok (ofBytes_eq_ok_iff.mp ht).2
  exact Node.accounts_children (w := t.window) hdepth rfl hle

/-- **Every child is accounted for once.** A callback that refuses nothing is led through the acts
of a tree, and nothing else is noted. They enter the root, account for its children one behind the
other, and leave it. Hence the offsets of outcomes grow, forms are entered and left in brackets, and
the report counts the forms entered, the options and values called back, and what was noted. -/
theorem walk_accounts {f : Callback σ} (hf : f.Willing) (s : σ) (limits : Limits) (index : Nat)
    {t : Tree} (ht : ofBytes t.bytes = .ok t) :
    let acts := (Node.ofTree limits t).acts index
    let walk := Walk.tree f limits index t s
    walk.2 = f.feed s (Act.events acts) ∧ walk.1.diagnostics = Act.notes acts ∧
      (∃ inner,
        acts = .call index (.enter t.root) :: (inner ++ [.call index (.exit t.root)]) ∧
          Accounts t.bytes index (.rest t.root t.root.childrenStart) inner) ∧
      (Act.anchors acts).Pairwise (· < ·) ∧ Event.Bracketed [] (Act.events acts) ∧
      walk.1.forms = (Act.events acts).countP Event.isEnter ∧
      walk.1.options = (Act.events acts).countP Event.isOption ∧
      walk.1.enumValues = (Act.events acts).countP Event.isValue ∧
      walk.1.skipped = walk.1.diagnostics.length := by
  intro acts walk
  obtain ⟨ho, hdepth, -, hlow, -⟩ := Form.decode_eq_ok (ofBytes_eq_ok_iff.mp ht).2
  have hin := accounts_root ht limits index
  have hwalk : walk = (.ofActs acts, f.feed s (Act.events acts)) := by
    show Walk.node f index (Node.ofTree limits t) s = _
    rw [Walk.node_of_lenient hf.lenient, Callback.verdicts_of_willing hf, Node.events_acts]
    rfl
  obtain ⟨hforms, hoptions, hvalues, hskipped⟩ := Report.counts_ofActs acts
  obtain ⟨hpair, hmem⟩ := hin.anchors_increase trivial
  rw [hwalk]
  refine ⟨rfl, Report.diagnostics_ofActs acts, ⟨_, rfl, hin⟩, ?_, ?_, hforms, hoptions, hvalues, ?_⟩
  · -- the root stands in front of all that it holds
    refine Act.anchors_form .. ▸ List.pairwise_cons.mpr ⟨fun x hx => ?_, hpair⟩
    have hx := (hmem x hx).1
    simp only [Stretch.start, Layout.formLength, Header.length] at hx hlow
    omega
  · show Event.Bracketed [] (Act.events (.call index (.enter t.root) :: (_ ++ [_])))
    rw [Act.events_call, Act.events_append, Event.Bracketed,
      hin.bracketed_append (congrArg (· + 1) hdepth.symm)]
    exact ⟨hdepth, rfl, rfl⟩
  · rw [Report.diagnostics_ofActs, hskipped]

/-- A tree that holds an enum of two values, a form whose second child has no header, and a number
without a name. -/
def tornMenu : Tree :=
  let number := Blueprint.OptionSpec.numeric .number ⟨2, 0, ⟨0⟩⟩ "n" "N" 7
  let enum := { Blueprint.OptionSpec.numeric .enum ⟨4, 0, ⟨0⟩⟩ "e" "E" 1 with
    values := [.labelled 0 "off", .labelled 1 "on"] }
  let bytes := Blueprint.encode <| .form ⟨1, 0, ⟨0⟩⟩ (some (.text .label "Boot"))
    [.option enum, .form ⟨3, 0, ⟨0⟩⟩ (some (.text .label "Menu"))
      [.option number, .verbatim [1, 2, 3]] none, .option { number with name := none }] none
  ⟨bytes.toArray, ⟨0, 314, ⟨1, 0, ⟨0⟩⟩, "Boot", 0, 45, 314⟩⟩

/-- The values of the enum are called back in their order right before it; the torn form and the
number without a name are noted, at their offsets. -/
theorem walk_accounts_tornMenu :
    let acts := (Node.ofTree {} tornMenu).acts 0
    let walk := Walk.tree Callback.silent {} 0 tornMenu ()
    (∃ inner,
      acts = .call 0 (.enter tornMenu.root) :: (inner ++ [.call 0 (.exit tornMenu.root)]) ∧
        Accounts tornMenu.bytes 0 (.rest tornMenu.root 45) inner) ∧
      ((Act.events acts).filterMap fun | .value o v => some (o.name, v.label) | _ => none) =
        [("e", "off"), ("e", "on")] ∧
      (Act.anchors acts).Pairwise (· < ·) ∧ Event.Bracketed [] (Act.events acts) ∧
      walk.1.enumValues = (Act.events acts).countP Event.isValue ∧
      walk.1.skipped = walk.1.diagnostics.length :=
  have h := walk_accounts Callback.willing_silent () {} 0 (t := tornMenu)
    (ofBytes_eq_ok_iff.mpr ⟨rfl, toOption_eq_some_iff.mp (by decide +kernel)⟩)
  ⟨h.2.2.1, by decide +kernel, h.2.2.2.1, h.2.2.2.2.1, h.2.2.2.2.2.2.2.1, h.2.2.2.2.2.2.2.2⟩

end Tree

end SetupForms
