import SetupForms.Record.Form

/-!
# Trees

A tree is a buffer whose first record is a form. Only that root is checked when the tree is made;
what lies below is read when the tree is walked or searched.

Making a tree is cheap and says little: the bytes below the root may be anything. A buffer may also
go on behind the root, which nothing here looks at.
-/

namespace SetupForms

/-- A form tree over a buffer. -/
structure Tree where
  /-- the buffer, which may extend past the root -/
  bytes : Array UInt8
  /-- the root form -/
  root : Form

namespace Tree

/-- The tree whose root stands at the start of a buffer. -/
def ofBytes (bytes : Array UInt8) : Except Fault Tree :=
  (Form.decode (Window.ofBytes bytes) 0 0).map fun root => ⟨bytes, root⟩

/-- A tree for each buffer. The first bad root is the fault. -/
def ofBuffers : List (Array UInt8) → Except Fault (List Tree)
  | [] => .ok []
  | b :: bs => do
    let t ← ofBytes b
    let ts ← ofBuffers bs
    return t :: ts

/-- The window in which the children of the root lie. -/
def window (t : Tree) : Window := ⟨t.bytes, t.root.stop⟩

/-- The label of the root. -/
def name (t : Tree) : String := t.root.name

/-- The bytes of the root record, from its header through its last child. -/
def rootBytes (t : Tree) : Array UInt8 := t.bytes.extract 0 t.root.stop

/-- The first tree of a given name. -/
def find (trees : List Tree) (name : String) : Except Fault Tree :=
  match trees.find? (·.name = name) with
  | some t => .ok t
  | none => .error (.treeNotFound name)

theorem ofBytes_eq_ok_iff {bytes : Array UInt8} {t : Tree} :
    ofBytes bytes = .ok t ↔
      t.bytes = bytes ∧ Form.decode (Window.ofBytes bytes) 0 0 = .ok t.root := by
  unfold ofBytes
  cases h : Form.decode (Window.ofBytes bytes) 0 0 with
  | error f => simp [Except.map]
  | ok root =>
    obtain ⟨b, r⟩ := t
    simp [Except.map, eq_comm]

end Tree

end SetupForms
