import SetupForms.Record.Option
import SetupForms.Tree

/-!
# Looking up defaults

A lookup searches trees for an option by its internal name and answers with the bytes of its
default. It decodes only what it needs to compare names and stops at the first match. Forms and
comments share the namespace of options: they are found by their label, but have no default. Unlike
a walk, a lookup skips nothing: the first structural fault on its way is its answer.

The name is compared as bytes, since the field may hold bytes that are no text. A match decides the
lookup even where the rest of the record is malformed, as the rest is not read.
-/

namespace SetupForms

open Text

/-- What kind of default was found. -/
inductive DefaultKind where
  /-- the four bytes of a numeric option's default -/
  | numeric
  /-- the whole payload of a text option's default -/
  | text
  deriving DecidableEq

/-- The bytes of a default and where they stand. -/
structure DefaultValue where
  /-- the bytes -/
  bytes : List UInt8
  /-- where they start -/
  offset : Nat
  /-- how to read them -/
  kind : DefaultKind
  deriving DecidableEq

namespace DefaultValue

/-- A numeric default as a word. -/
def toUInt32? (d : DefaultValue) : Option UInt32 :=
  if d.kind = .numeric ∧ d.bytes.length = 4 then some (UInt32.ofNat (Bytes.toNat d.bytes)) else none

/-- A text default up to its first NUL. -/
def text? (d : DefaultValue) : Option String :=
  if d.kind = .text then Utf8.decode? (Field.untilNul d.bytes) else none

end DefaultValue

namespace Lookup

/-- A record of the name that is looked up. -/
inductive Hit where
  /-- an option with its default -/
  | value (default : DefaultValue)
  /-- a record without a default -/
  | bare (kind : Undefaulted)
  deriving DecidableEq

/-- The default of a numeric option, if it bears the name. -/
def numeric (w : Window) (h : Header) (name : String) : Except Fault (Option Hit) := do
  -- read for its checks; the ids and flags are not used
  let _ ← Layout.numeric w h
  let inner := w.upTo h.stop
  let field ← Field.require inner (h.offset + Layout.numericLength) Kind.optionName.tag
  if field.textBytes = Utf8.encode name then
    (inner.slice (Layout.defaultOffset h) 4).map fun bytes =>
      some (.value ⟨bytes, Layout.defaultOffset h, .numeric⟩)
  else
    return none

/-- The default of a text option, if it bears the name. -/
def varchar (w : Window) (h : Header) (name : String) : Except Fault (Option Hit) := do
  let _ ← Layout.text w h
  let inner := w.upTo h.stop
  let default ← Field.require inner (h.offset + Layout.textLength) Kind.defaultValue.tag
  let field ← Field.require inner default.stop Kind.optionName.tag
  return if field.textBytes = Utf8.encode name then
      some (.value ⟨default.data, default.dataOffset, .text⟩)
    else none

/-- Whether a comment bears the name as its label. -/
def comment (w : Window) (h : Header) (name : String) : Except Fault (Option Hit) := do
  let _ ← Layout.text w h
  let field ← Field.require (w.upTo h.stop) (h.offset + Layout.textLength) Kind.label.tag
  return if field.textBytes = Utf8.encode name then some (.bare .comment) else none

/-- Compares the framed record `h`, a child of a form at `depth`, with the name. What a nested form
of another name holds is left to `inside`. -/
def record (w : Window) (maxDepth : Nat) (name : String) (depth : Nat) (h : Header)
    (inside : (form : Form) → Form.decode w h.offset (depth + 1) = .ok form →
      Except Fault (Option Hit)) :
    Except Fault (Option Hit) :=
  match Role.ofTag h.tag with
  | .form =>
    -- a lookup gives up where a walk would note the form and go on
    if maxDepth < depth + 1 then
      .error (.nestingTooDeep h.offset maxDepth)
    else
      match hd : Form.decode w h.offset (depth + 1) with
      | .error f => .error f
      | .ok form => if form.name = name then .ok (some (.bare .form)) else inside form hd
  | .numeric _ => numeric w h name
  | .text .varchar => varchar w h name
  | .text .comment => comment w h name
  | .unrecognized => .ok none

/-- Searches from `cursor` to the end of the window, inside a form at `depth`. -/
def children (w : Window) (maxDepth : Nat) (name : String) (depth cursor : Nat) :
    Except Fault (Option Hit) :=
  if cursor < w.stop then
    match _hp : Header.parse w cursor with
    | .error f => .error f
    | .ok h =>
      match record w maxDepth name depth h
          (fun form _hd =>
            children (w.upTo form.stop) maxDepth name (depth + 1) form.childrenStart) with
      | .ok none => children w maxDepth name depth h.stop
      | answer => answer
  else
    .ok none
termination_by w.stop - cursor
decreasing_by
  · obtain ⟨ho, -, -⟩ := Header.parse_eq_ok _hp
    obtain ⟨-, -, -, hlow, hin, hs⟩ := Form.decode_eq_ok _hd
    have hw : w.limit ≤ w.stop := Nat.min_le_left ..
    simp only [Field.headerLength, Header.length] at hlow
    simp only [Window.upTo]
    omega
  · have := Header.lt_stop_of_parse _hp
    omega

/-- Searches one tree, its root included. -/
def tree (limits : Limits) (t : Tree) (name : String) : Except Fault (Option Hit) :=
  if t.name = name then .ok (some (.bare .form))
  else children t.window limits.maxDepth name 0 t.root.childrenStart

/-- The default of the first option of a name. With `form?`, only trees of that name are
searched. -/
def find (limits : Limits) (form? : Option String) (name : String) :
    List Tree → Except Fault DefaultValue
  | [] => .error (.optionNotFound name)
  | t :: ts =>
    if form?.any (· ≠ t.name) then
      find limits form? name ts
    else
      match tree limits t name with
      | .error f => .error f
      | .ok (some (.value d)) => .ok d
      -- the name is taken by a form or a comment
      | .ok (some (.bare kind)) => .error (.noDefault name kind)
      | .ok none => find limits form? name ts

end Lookup

end SetupForms
