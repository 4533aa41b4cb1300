import SetupForms.Record.Field
import SetupForms.Record.Layout

/-!
# Forms

A form is read up to its children: the fixed part and the label. `Form.decode_eq_ok` bounds the
region that is left for the children, so that a walk through nested forms ends.

Forms are nested, so their depth is part of them, and so is the place where their children start:
the children are not read here but by whoever walks or searches the form.
-/

namespace SetupForms

/-- A form up to its children. -/
structure Form where
  /-- where the record starts -/
  offset : Nat
  /-- the length of the whole record -/
  size : UInt32
  /-- ids and flags -/
  fields : CommonFields
  /-- the label, which shares one namespace with option names -/
  name : String
  /-- 0 for the root of a tree -/
  depth : Nat
  /-- where the first child starts -/
  childrenStart : Nat
  /-- where the record ends -/
  stop : Nat
  deriving DecidableEq

namespace Form

/-- Reads the form at `offset`, which must end inside the window. -/
def decode (w : Window) (offset depth : Nat) : Except Fault Form := do
  let h ← Header.parse w offset
  let fields ← Layout.form w h
  -- the label is a field of the form and may not reach out of it
  let label ← Field.require (w.upTo h.stop) (offset + Layout.formLength) Kind.label.tag
  let name ← label.text
  return {
    offset, fields, name, depth
    size := h.size
    childrenStart := label.stop
    stop := h.stop
  }

/-- A form that was read stands at its offset and ends inside the window; its children start
behind its fixed part and label. -/
theorem decode_eq_ok {w : Window} {offset depth : Nat} {form : Form}
    (hd : decode w offset depth = .ok form) :
    form.offset = offset ∧ form.depth = depth ∧ form.stop = offset + form.size.toNat ∧
      offset + Layout.formLength + Field.headerLength ≤ form.childrenStart ∧
      form.childrenStart ≤ form.stop ∧ form.stop ≤ w.limit := by
  obtain ⟨h, hp, hd⟩ := bind_eq_ok_iff.mp hd
  obtain ⟨fields, hf, hd⟩ := bind_eq_ok_iff.mp hd
  obtain ⟨label, hl, hd⟩ := bind_eq_ok_iff.mp hd
  obtain ⟨name, ht, hd⟩ := bind_eq_ok_iff.mp hd
  obtain rfl := pure_eq_ok_iff.mp hd
  obtain ⟨rfl, -, hs, -⟩ := Header.parse_eq_ok hp
  obtain ⟨-, hlow, hhigh⟩ := Field.require_stop hl
  rw [Window.limit_upTo_of_le hs] at hhigh
  exact ⟨rfl, rfl, rfl, hlow, hhigh, hs⟩

end Form

end SetupForms
