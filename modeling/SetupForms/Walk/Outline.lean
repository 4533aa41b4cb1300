import SetupForms.Record.Option
import SetupForms.Tree

/-!
# Outlines

The outline of a form lists what its bytes hold, child by child in their order, before anyone
looks at it: forms with their own children, options, records of no known kind, records that do not
decode, and the place where framing is lost. Each child is framed by its own header, so a record
that does not decode leaves its siblings as they are. `Node.children_of_framed` and its
companions unfold the outline one child at a time.

The outline needs no callback and no report, so that what a walk reads and what it makes of it are
two functions. The recursion goes into forms and along records at the same time; both leave fewer
bytes to read, a form because its children start behind its header and end inside the frame of the
form.
-/

namespace SetupForms

/-- What stands at one place of a form. -/
inductive Node where
  /-- a form and what it holds -/
  | form (form : Form) (children : List Node)
  /-- a numeric option -/
  | numeric (option : NumericOption)
  /-- a text option or comment -/
  | text (option : TextOption)
  /-- a framed record that a form may not hold -/
  | unrecognized (offset : Nat) (tag : UInt32)
  /-- a framed record that does not decode -/
  | malformed (offset : Nat) (tag : UInt32) (fault : Fault)
  /-- no header can be read, so the rest of the form is lost; the tag is 0 if it cannot be read -/
  | torn (offset : Nat) (tag : UInt32) (fault : Fault)

namespace Node

/-- The node of a record whose decoding may fail. -/
def ofExcept {α : Type} (h : Header) (make : α → Node) : Except Fault α → Node
  | .ok a => make a
  | .error f => .malformed h.offset h.tag f

/-- The node of the framed record `h`, a child of a form at `depth`. What a nested form holds is
left to `inside`. -/
def ofHeader (w : Window) (limits : Limits) (depth : Nat) (h : Header)
    (inside : (nested : Form) → Form.decode w h.offset (depth + 1) = .ok nested → List Node) :
    Node :=
  match Role.ofTag h.tag with
  | .form =>
    -- a form that is too deep is not decoded at all, whatever is wrong with it
    if limits.maxDepth < depth + 1 then
      .malformed h.offset h.tag (.nestingTooDeep h.offset limits.maxDepth)
    else
      match hd : Form.decode w h.offset (depth + 1) with
      | .ok nested => .form nested (inside nested hd)
      | .error f => .malformed h.offset h.tag f
  | .numeric kind => ofExcept h .numeric (NumericOption.decode w h kind)
  | .text kind => ofExcept h .text (TextOption.decode w h kind limits)
  | .unrecognized => .unrecognized h.offset h.tag

/-- What stands from `cursor` to the end of the window, inside a form at `depth`. -/
def children (w : Window) (limits : Limits) (depth cursor : Nat) : List Node :=
  if cursor < w.stop then
    match _hp : Header.parse w cursor with
    | .error f => [.torn cursor ((Header.tagAt? w cursor).getD 0) f]
    | .ok h =>
      ofHeader w limits depth h
          (fun nested _hd =>
            children (w.upTo nested.stop) limits (depth + 1) nested.childrenStart) ::
        children w limits depth h.stop
  else
    []
termination_by w.stop - cursor
decreasing_by
  · obtain ⟨ho, -, -⟩ := Header.parse_eq_ok _hp
    obtain ⟨-, -, -, hlow, hin, hs⟩ := Form.decode_eq_ok _hd
    have hw : w.limit ≤ w.stop := Nat.min_le_left ..
    simp only [Field.headerLength, Header.length] at hlow
    simp only [Window.upTo]
    omega
  · have := Header.lt_stop_of_parse _hp
    omega

/-- The outline of a whole tree. -/
def ofTree (limits : Limits) (t : Tree) : Node :=
  .form t.root (children t.window limits 0 t.root.childrenStart)

/-! ## One child at a time

The recursion of `children` is not opened outside of this module. Its three cases, the end of the
form, a record that cannot be framed and one that can, are lemmas.
-/

theorem children_of_le {w : Window} {limits : Limits} {depth cursor : Nat} (h : w.stop ≤ cursor) :
    children w limits depth cursor = [] := by
  rw [children, if_neg (by omega)]

theorem children_of_torn {w : Window} {limits : Limits} {depth cursor : Nat} {f : Fault}
    (hc : cursor < w.stop) (hp : Header.parse w cursor = .error f) :
    children w limits depth cursor = [.torn cursor ((Header.tagAt? w cursor).getD 0) f] := by
  rw [children, if_pos hc]
  split
  next g hg => rw [hp] at hg; cases hg; rfl
  next h hh => rw [hp] at hh; cases hh

theorem children_of_framed {w : Window} {limits : Limits} {depth cursor : Nat} {h : Header}
    (hc : cursor < w.stop) (hp : Header.parse w cursor = .ok h) :
    children w limits depth cursor =
      ofHeader w limits depth h
          (fun nested _ =>
            children (w.upTo nested.stop) limits (depth + 1) nested.childrenStart) ::
        children w limits depth h.stop := by
  rw [children, if_pos hc]
  split
  next g hg => rw [hp] at hg; cases hg
  next h' hh => rw [hp] at hh; cases hh; rfl

end Node

end SetupForms
