import SetupForms.Proofs.LookupAgreement
import SetupForms.Proofs.OutlineNode

/-!
# Which faults can come up

`FailsWith p x` says that a computation fails with faults of a class only. Every reader, from a
bounded read up to a whole root form, fails only because bytes are malformed (`FailsOnBytes`), and
so does a lookup inside a tree. A record that a walk cannot decode may besides have a default that
is too long (`Fault.Undecodable`). So a walk in which nothing is refused notes nothing else
(`Walk.noted_of_willing`), and a lookup ends with malformed bytes or a miss
(`Lookup.find_failsWith`).

The class of a computation is found by going through its steps: a chain of steps is in a class if
every step is (`FailsWith.bind`), and so is a choice between computations of the class
(`FailsWith.ite`). The proofs below therefore mirror the definitions of the readers, one lemma for
each reader and in the same order, and no proof looks into another reader.
-/

namespace SetupForms

universe u v

variable {ε : Type u} {α β : Type v}

/-! ## Computations that fail in one way

To be in a class says nothing about success. A computation that never fails is in every class, and
the statements are meant to be used together with a fault that did come up.
-/

/-- A computation fails with faults of a class only. -/
def FailsWith (p : ε → Prop) (x : Except ε α) : Prop := ∀ f, x = .error f → p f

namespace FailsWith

variable {p q : ε → Prop} {x y : Except ε α}

/-- What succeeds is in every class. -/
theorem ok (a : α) : FailsWith p (.ok a : Except ε α) := nofun

/-- What fails with a fault of the class is in the class. -/
theorem error {f : ε} (h : p f) : FailsWith p (.error f : Except ε α) := by
  rintro _ ⟨⟩
  exact h

/-- A class may be exchanged for a wider one. -/
theorem mono (hx : FailsWith p x) (hpq : ∀ f, p f → q f) : FailsWith q x :=
  fun f h => hpq f (hx f h)

/-- A choice is in the class if both sides are. -/
theorem ite {c : Prop} [Decidable c] (hx : FailsWith p x) (hy : FailsWith p y) :
    FailsWith p (if c then x else y) := by
  split
  · exact hx
  · exact hy

/-- A chain of steps is in the class if each step is. -/
theorem bind {g : α → Except ε β} (hx : FailsWith p x) (hg : ∀ a, FailsWith p (g a)) :
    FailsWith p (x >>= g) := by
  cases x with
  | error f => exact .error (hx f rfl)
  | ok a => exact hg a

/-- What is made of an answer does not change how a computation fails. -/
theorem map {g : α → β} (hx : FailsWith p x) : FailsWith p (x.map g) := by
  cases x with
  | error f => exact .error (hx f rfl)
  | ok a => exact .ok (g a)

end FailsWith

/-- A chain fails in its first step, or with the answer of the first step in the rest. -/
theorem bind_eq_error_iff {x : Except ε α} {g : α → Except ε β} {f : ε} :
    x >>= g = .error f ↔ x = .error f ∨ ∃ a, x = .ok a ∧ g a = .error f := by
  cases x with
  | error f' =>
    refine ⟨fun h => .inl (congrArg _ (Except.error.inj h)), ?_⟩
    rintro (h | ⟨a, h, -⟩) <;> cases h
    rfl
  | ok a =>
    refine ⟨fun h => .inr ⟨a, rfl, h⟩, ?_⟩
    rintro (h | ⟨_, ⟨⟩, h⟩)
    · cases h
    · exact h

/-- A computation fails only because bytes are malformed. -/
abbrev FailsOnBytes (x : Except Fault α) : Prop := FailsWith (fun f => f.isStructural = true) x

variable {w : Window} {cursor depth : Nat} {h : Header} {limits : Limits} {tag : UInt32}
  {name : String}

/-! ## Readers

The readers fail on bytes that are not there, sizes that cannot be, tags that were not expected,
fields that are missing and texts that are none. All of these are faults of the bytes.
-/

namespace Window

theorem slice_failsOnBytes {offset length : Nat} : FailsOnBytes (w.slice offset length) :=
  .ite (.error rfl) (.ite (.error rfl) (.ok _))

theorem uint32_failsOnBytes {offset : Nat} : FailsOnBytes (w.uint32 offset) :=
  slice_failsOnBytes.map

theorem uint64_failsOnBytes {offset : Nat} : FailsOnBytes (w.uint64 offset) :=
  slice_failsOnBytes.map

end Window

namespace Header

theorem requireMin_failsOnBytes {min : Nat} : FailsOnBytes (h.requireMin min) :=
  .ite (.error rfl) (.ok _)

theorem requireTag_failsOnBytes {expected : UInt32} : FailsOnBytes (h.requireTag expected) :=
  .ite (.ok _) (.error rfl)

theorem requireClass_failsOnBytes {p : Kind → Bool} {expected : UInt32} :
    FailsOnBytes (h.requireClass p expected) :=
  .ite (.ok _) (.error rfl)

theorem requireFilled_failsOnBytes : FailsOnBytes (h.requireFilled cursor) :=
  .ite (.ok _) (.error rfl)

theorem parse_failsOnBytes : FailsOnBytes (parse w cursor) :=
  Window.uint32_failsOnBytes.bind fun _ => Window.uint32_failsOnBytes.bind fun _ =>
    requireMin_failsOnBytes.bind fun _ => .ite (.error rfl) (.ok _)

end Header

namespace Field

theorem text_failsOnBytes {f : Field} : FailsOnBytes f.text := by
  unfold text
  split
  · exact .ok _
  · exact .error rfl

theorem read_failsOnBytes : FailsOnBytes (read w cursor) :=
  Header.parse_failsOnBytes.bind fun _ => Header.requireMin_failsOnBytes.bind fun _ =>
    Window.uint32_failsOnBytes.bind fun _ => Window.slice_failsOnBytes.bind fun _ => .ok _

theorem next?_failsOnBytes : FailsOnBytes (next? w cursor tag) :=
  .ite read_failsOnBytes.map (.ok _)

theorem require_failsOnBytes : FailsOnBytes (require w cursor tag) := by
  refine next?_failsOnBytes.bind fun found => ?_
  cases found with
  | none => exact .error rfl
  | some f => exact .ok f

theorem requireText_failsOnBytes : FailsOnBytes (requireText w cursor tag) :=
  require_failsOnBytes.bind fun _ => text_failsOnBytes.bind fun _ => .ok _

theorem optionalText_failsOnBytes : FailsOnBytes (optionalText w cursor tag) := by
  refine next?_failsOnBytes.bind fun found => ?_
  cases found with
  | none => exact .ok _
  | some f => exact text_failsOnBytes.bind fun _ => .ok _

end Field

theorem CommonFields.read_failsOnBytes : FailsOnBytes (read w h) :=
  Window.uint64_failsOnBytes.bind fun _ => Window.uint64_failsOnBytes.bind fun _ =>
    Window.uint32_failsOnBytes.bind fun _ => .ok _

namespace Layout

theorem form_failsOnBytes : FailsOnBytes (form w h) :=
  Header.requireTag_failsOnBytes.bind fun _ => Header.requireMin_failsOnBytes.bind fun _ =>
    CommonFields.read_failsOnBytes

theorem text_failsOnBytes : FailsOnBytes (text w h) :=
  Header.requireClass_failsOnBytes.bind fun _ => Header.requireMin_failsOnBytes.bind fun _ =>
    CommonFields.read_failsOnBytes

theorem numeric_failsOnBytes : FailsOnBytes (numeric w h) :=
  Header.requireClass_failsOnBytes.bind fun _ => Header.requireMin_failsOnBytes.bind fun _ =>
    CommonFields.read_failsOnBytes.bind fun _ => Window.uint32_failsOnBytes.bind fun _ => .ok _

theorem enumValue_failsOnBytes : FailsOnBytes (enumValue w h) :=
  Header.requireTag_failsOnBytes.bind fun _ => Header.requireMin_failsOnBytes.bind fun _ =>
    Window.uint32_failsOnBytes

end Layout

/-! ## Decoders

A decoder adds no fault of its own to those of its readers, with one exception: a text option whose
default is longer than the limit. That fault is one of the settings, not of the bytes, so it is kept
apart (`Fault.Undecodable`).
-/

theorem Form.decode_failsOnBytes : FailsOnBytes (decode w cursor depth) :=
  Header.parse_failsOnBytes.bind fun _ => Layout.form_failsOnBytes.bind fun _ =>
    Field.require_failsOnBytes.bind fun _ => Field.text_failsOnBytes.bind fun _ => .ok _

theorem Tree.ofBytes_failsOnBytes {bytes : Array UInt8} : FailsOnBytes (ofBytes bytes) :=
  Form.decode_failsOnBytes.map

namespace EnumValue

/-- A value fails on its bytes only. -/
theorem decode_failsOnBytes : FailsOnBytes (decode w h) :=
  Layout.enumValue_failsOnBytes.bind fun _ => Field.require_failsOnBytes.bind fun _ =>
    Header.requireFilled_failsOnBytes.bind fun _ => Field.text_failsOnBytes.bind fun _ => .ok _

theorem decodeAll_failsOnBytes : FailsOnBytes (decodeAll w cursor) := by
  fun_induction decodeAll w cursor with
  | case1 cursor hlt f hp => exact .error (Header.parse_failsOnBytes f hp)
  | case2 cursor hlt h hp f hv => exact .error (decode_failsOnBytes f hv)
  | case3 cursor hlt h hp v hv ih => exact ih.map
  | case4 cursor hge => exact .ok _

end EnumValue

namespace NumericOption

theorem decodeValues_failsOnBytes {kind : NumericKind} :
    FailsOnBytes (decodeValues w h cursor kind) := by
  cases kind with
  | enum => exact EnumValue.decodeAll_failsOnBytes
  | number | bool => exact Header.requireFilled_failsOnBytes.map

theorem decode_failsOnBytes {kind : NumericKind} : FailsOnBytes (decode w h kind) :=
  Layout.numeric_failsOnBytes.bind fun _ => Field.requireText_failsOnBytes.bind fun _ =>
    Field.requireText_failsOnBytes.bind fun _ => Field.optionalText_failsOnBytes.bind fun _ =>
      decodeValues_failsOnBytes.bind fun _ => .ok _

end NumericOption

/-- The bytes of a record are malformed, or a field of it is longer than the limit. -/
inductive Fault.Undecodable : Fault → Prop where
  /-- the bytes do not make a record -/
  | malformed {f : Fault} : f.isStructural = true → Undecodable f
  /-- the default is longer than the limit -/
  | tooLong (offset : Nat) (tag length max : UInt32) :
      Undecodable (.fieldTooLong offset tag length max)

/-- Of options only a text can fail otherwise, because its default is too long. -/
theorem TextOption.decode_failsWith {kind : TextKind} :
    FailsWith Fault.Undecodable (decode w h kind limits) := by
  have bytes {α : Type} {x : Except Fault α} (hx : FailsOnBytes x) :
      FailsWith Fault.Undecodable x := hx.mono fun _ => .malformed
  refine (bytes Layout.text_failsOnBytes).bind fun _ => .bind ?_ fun _ =>
    (bytes Field.requireText_failsOnBytes).bind fun _ =>
      (bytes Field.optionalText_failsOnBytes).bind fun _ =>
        (bytes Header.requireFilled_failsOnBytes).bind fun _ => .ok _
  cases kind with
  | comment => exact .ok _
  | varchar =>
    exact (bytes Field.require_failsOnBytes).bind fun _ =>
      (FailsWith.ite (.error (.tooLong ..)) (.ok _)).bind fun _ =>
        (bytes Field.requireText_failsOnBytes).bind fun _ => .ok _

/-! ## Walks

The outline of a tree holds the faults of its decoders, and a walk in which nothing is refused notes
just these. So what can be noted is what decoders can fail with, and a warning for a record of an
unknown kind, which no decoder is asked about.
-/

/-- What a walk notes of a record by itself: a warning of a record of no known kind, or an error of
one that cannot be decoded. -/
inductive Diagnostic.Noted : Diagnostic → Prop where
  /-- a record of no known kind -/
  | unknown (tree offset : Nat) (tag : UInt32) :
      Noted ⟨tree, offset, tag, .warning, .unknownRecord offset tag⟩
  /-- a record that cannot be decoded -/
  | undecodable (tree offset : Nat) (tag : UInt32) {fault : Fault} :
      fault.Undecodable → Noted ⟨tree, offset, tag, .error, fault⟩

/-- A warning is of a record of no known kind, and such a record costs no more than a warning. -/
theorem Diagnostic.Noted.warning_iff {d : Diagnostic} (hd : d.Noted) :
    d.severity = .warning ↔ ∃ offset tag, d.fault = .unknownRecord offset tag := by
  cases hd with
  | unknown tree offset tag => exact ⟨fun _ => ⟨offset, tag, rfl⟩, fun _ => rfl⟩
  | undecodable tree offset tag hf =>
    refine ⟨nofun, ?_⟩
    rintro ⟨o, t, rfl⟩
    cases hf with
    | malformed hs => cases hs

/-- An error is noted of a record that cannot be decoded. -/
theorem Diagnostic.Noted.undecodable_of_error {d : Diagnostic} (hd : d.Noted)
    (hs : d.severity = .error) : d.fault.Undecodable := by
  cases hd with
  | unknown => cases hs
  | undecodable tree offset tag hf => exact hf

/-- Nothing that is noted is an internal fault. -/
theorem Diagnostic.Noted.fault_ne_internal {d : Diagnostic} (hd : d.Noted) (text : String) :
    d.fault ≠ .internal text := by
  cases hd with
  | unknown => nofun
  | undecodable tree offset tag hf =>
    rintro ⟨⟩
    cases hf with
    | malformed hs => cases hs

namespace Node

/-- What a decoder fails with may be noted. -/
theorem noted_ofExcept {α : Type} {tree : Nat} {make : α → Node} {x : Except Fault α}
    (hx : FailsWith Fault.Undecodable x) (hmake : ∀ a, ((make a).report tree).diagnostics = []) :
    ∀ d ∈ ((ofExcept h make x).report tree).diagnostics, d.Noted := by
  cases x with
  | ok a =>
    intro d hd
    cases hmake a ▸ hd
  | error f =>
    intro d hd
    obtain rfl := List.mem_singleton.mp hd
    exact .undecodable _ _ _ (hx f rfl)

/-- What is noted of a framed record may be noted, if that is so inside of nested forms. -/
theorem noted_ofHeader {tree : Nat} {inside : (nested : Form) →
      Form.decode w h.offset (depth + 1) = .ok nested → List Node}
    (hin : ∀ nested hd, ∀ d ∈ (reportAll tree (inside nested hd)).diagnostics, d.Noted) :
    ∀ d ∈ ((ofHeader w limits depth h inside).report tree).diagnostics, d.Noted := by
  cases hr : Role.ofTag h.tag with
  | form =>
    by_cases hm : limits.maxDepth < depth + 1
    · rw [ofHeader_of_tooDeep hr hm]
      exact List.forall_mem_singleton.mpr (.undecodable _ _ _ (.malformed rfl))
    cases hd : Form.decode w h.offset (depth + 1) with
    | error f =>
      rw [ofHeader_of_badForm hr hm hd]
      exact List.forall_mem_singleton.mpr
        (.undecodable _ _ _ (.malformed (Form.decode_failsOnBytes f hd)))
    | ok nested =>
      rw [ofHeader_of_form hr hm hd, report, Report.diagnostics_append]
      exact hin nested hd
  | numeric kind =>
    rw [ofHeader_of_numeric hr]
    exact noted_ofExcept (NumericOption.decode_failsOnBytes.mono fun _ => .malformed) fun _ => rfl
  | text kind =>
    rw [ofHeader_of_text hr]
    exact noted_ofExcept TextOption.decode_failsWith fun _ => rfl
  | unrecognized =>
    rw [ofHeader_of_unrecognized hr]
    exact List.forall_mem_singleton.mpr (.unknown ..)

/-- All that is noted in a form may be noted. -/
theorem noted_children {tree : Nat} :
    ∀ d ∈ (reportAll tree (children w limits depth cursor)).diagnostics, d.Noted := by
  fun_induction children w limits depth cursor with
  | case1 w depth cursor hlt f hp =>
    exact List.forall_mem_singleton.mpr
      (.undecodable _ _ _ (.malformed (Header.parse_failsOnBytes f hp)))
  | case2 w depth cursor hlt h hp ihin ihrest =>
    intro d hd
    rcases List.mem_append.mp hd with hd | hd
    · exact noted_ofHeader ihin d hd
    · exact ihrest d hd
  | case3 w depth cursor hge => exact List.forall_mem_nil _

end Node

/-- **What a walk notes.** A walk in which nothing is refused notes only unknown records, malformed
bytes and texts whose default is too long. -/
theorem Walk.noted_of_willing {σ : Type u} {f : Callback σ} (hf : f.Willing) (limits : Limits)
    (first : Nat) (trees : List Tree) (s : σ) :
    ∀ d ∈ (Walk.trees f limits first trees s).1.diagnostics, d.Noted := by
  induction trees generalizing first s with
  | nil => nofun
  | cons t ts ih =>
    rw [trees_cons_of_willing hf]
    intro d hd
    rcases List.mem_append.mp hd with hd | hd
    · exact Node.noted_children d hd
    · exact ih _ _ d hd

/-! ## Lookups

A lookup reads less of a record than a walk: it takes the fixed part and the name of an option, and
the default only of the option that it was asked for. It stops at the first fault.
-/

namespace Lookup

theorem numeric_failsOnBytes : FailsOnBytes (numeric w h name) :=
  Layout.numeric_failsOnBytes.bind fun _ => Field.require_failsOnBytes.bind fun _ =>
    .ite Window.slice_failsOnBytes.map (.ok _)

theorem varchar_failsOnBytes : FailsOnBytes (varchar w h name) :=
  Layout.text_failsOnBytes.bind fun _ => Field.require_failsOnBytes.bind fun _ =>
    Field.require_failsOnBytes.bind fun _ => .ok _

theorem comment_failsOnBytes : FailsOnBytes (comment w h name) :=
  Layout.text_failsOnBytes.bind fun _ => Field.require_failsOnBytes.bind fun _ => .ok _

/-- A record fails on its bytes only, if the search in nested forms does. -/
theorem record_failsOnBytes {search : (form : Form) →
      Form.decode w h.offset (depth + 1) = .ok form → Except Fault (Option Hit)}
    (hin : ∀ form hd, FailsOnBytes (search form hd)) :
    FailsOnBytes (record w limits.maxDepth name depth h search) := by
  unfold record
  split
  · refine .ite (.error rfl) ?_
    split
    next f hd => exact .error (Form.decode_failsOnBytes f hd)
    next form hd => exact .ite (.ok _) (hin form hd)
  · exact numeric_failsOnBytes
  · exact varchar_failsOnBytes
  · exact comment_failsOnBytes
  · exact .ok _

theorem children_failsOnBytes :
    FailsOnBytes (children w limits.maxDepth name depth cursor) := by
  fun_induction children w limits.maxDepth name depth cursor with
  | case1 w depth cursor hlt f hp => exact .error (Header.parse_failsOnBytes f hp)
  | case2 w depth cursor hlt h hp hrec ihin ihrest => exact ihrest
  | case3 w depth cursor hlt h hp hrec ihin => exact record_failsOnBytes ihin
  | case4 w depth cursor hge => exact .ok _

theorem tree_failsOnBytes {t : Tree} : FailsOnBytes (tree limits t name) :=
  .ite (.ok _) children_failsOnBytes

/-- A lookup ends with malformed bytes, or with the answer that there is no such option or no
default of it. -/
inductive Unanswered (name : String) : Fault → Prop where
  /-- the bytes in front of the option are malformed -/
  | malformed {f : Fault} : f.isStructural = true → Unanswered name f
  /-- no tree has the option -/
  | notFound : Unanswered name (.optionNotFound name)
  /-- there is a form or a comment of the name -/
  | noDefault (kind : Undefaulted) : Unanswered name (.noDefault name kind)

/-- A search in trees ends with malformed bytes or a miss. -/
theorem find_failsWith (form? : Option String) (trees : List Tree) :
    FailsWith (Unanswered name) (find limits form? name trees) := by
  induction trees with
  | nil => exact .error .notFound
  | cons t ts ih =>
    rw [find]
    refine .ite ih ?_
    cases ht : tree limits t name with
    | error f => exact .error (.malformed (tree_failsOnBytes f ht))
    | ok found =>
      rcases found with _ | d | kind
      · exact ih
      · exact .ok d
      · exact .error (.noDefault kind)

end Lookup

end SetupForms
