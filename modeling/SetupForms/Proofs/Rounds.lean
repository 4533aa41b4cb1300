import SetupForms.Proofs.LookupAgreement
import SetupForms.Proofs.WireRecord

/-!
# Rounds

Each loop of the decoders, and the recursion into nested forms, is written out here once more with a
bound on the rounds, and with an answer `out` for when the rounds run out. A round moves the cursor
on by a header at least. So a round for every eight bytes is enough, whatever `out` is: the bounded
versions are the decoders themselves (`EnumValue.decodeAllWithin_eq`, `Node.childrenWithin_eq`,
`Lookup.findWithin_eq`).

The decoders themselves are defined by recursion on the bytes that are left, which is accepted
because each round takes some. Written with a bound the same follows for what is read in all,
without a look at how the recursion was accepted.
-/

namespace SetupForms

universe u

variable {w : Window} {cursor depth : Nat} {h : Header} {limits : Limits} {name : String} {n : Nat}

/-- Behind a record one round less is enough. -/
theorem Header.rounds_of_parse (hp : parse w cursor = .ok h) (hn : (w.stop - cursor) / 8 < n + 1) :
    (w.stop - h.stop) / 8 < n := by
  obtain ⟨rfl, hm, hs, -⟩ := parse_eq_ok hp
  have hw : w.limit ≤ w.stop := Nat.min_le_left ..
  simp only [length] at hm
  simp only [stop] at hs ⊢
  omega

theorem Form.rounds_of_decode {form : Form} (hp : Header.parse w cursor = .ok h)
    (hd : decode w h.offset (depth + 1) = .ok form) (hn : (w.stop - cursor) / 8 < n + 1) :
    ((w.upTo form.stop).stop - form.childrenStart) / 8 < n := by
  obtain ⟨rfl, -⟩ := Header.parse_eq_ok hp
  obtain ⟨-, -, -, hlow, hin, hs⟩ := decode_eq_ok hd
  have hw : w.limit ≤ w.stop := Nat.min_le_left ..
  simp only [Layout.formLength, Header.length] at hlow
  simp only [Window.upTo]
  omega

/-! ## The values of an enum

A round reads one value. The induction here and below is on the bound, and its step is the step of
the decoder.
-/

/-- `decodeAll` in at most so many rounds. -/
def EnumValue.decodeAllWithin (out : Except Fault (List EnumValue)) :
    Nat → Window → Nat → Except Fault (List EnumValue)
  | 0, _, _ => out
  | n + 1, w, cursor =>
    if cursor < w.stop then do
      let h ← Header.parse w cursor
      let v ← decode w h
      (decodeAllWithin out n w h.stop).map (v :: ·)
    else
      .ok []

theorem EnumValue.decodeAllWithin_eq (out : Except Fault (List EnumValue))
    (hn : (w.stop - cursor) / 8 < n) : decodeAllWithin out n w cursor = decodeAll w cursor := by
  induction n generalizing cursor with
  | zero => omega
  | succ n ih =>
    rw [decodeAllWithin]
    split
    next hlt =>
      rw [decodeAll_of_lt hlt]
      refine bind_congr_ok fun h hp => bind_congr_ok fun v _ => ?_
      rw [ih (Header.rounds_of_parse hp hn)]
    next hge => rw [decodeAll_of_le (by omega)]

/-! ## What a form holds

A round reads one record, and a form takes rounds of its own, for which one less is enough too,
because what it holds is behind its header.
-/

namespace Node

/-- `children` in at most so many rounds. Going on behind a record takes a round, and so does going
into a form. -/
def childrenWithin (out : List Node) : Nat → Window → Limits → Nat → Nat → List Node
  | 0, _, _, _, _ => out
  | n + 1, w, limits, depth, cursor =>
    if cursor < w.stop then
      match Header.parse w cursor with
      | .error f => [.torn cursor ((Header.tagAt? w cursor).getD 0) f]
      | .ok h =>
        ofHeader w limits depth h
            (fun nested _ =>
              childrenWithin out n (w.upTo nested.stop) limits (depth + 1) nested.childrenStart) ::
          childrenWithin out n w limits depth h.stop
    else
      []

/-- Enough rounds read all that a form holds. -/
theorem childrenWithin_eq (out : List Node) (hn : (w.stop - cursor) / 8 < n) :
    childrenWithin out n w limits depth cursor = children w limits depth cursor := by
  induction n generalizing w depth cursor with
  | zero => omega
  | succ n ih =>
    rw [childrenWithin]
    split
    next hlt =>
      cases hp : Header.parse w cursor with
      | error f => rw [children_of_torn hlt hp]
      | ok h =>
        have hin : (fun (nested : Form) (_ : Form.decode w h.offset (depth + 1) = .ok nested) =>
            childrenWithin out n (w.upTo nested.stop) limits (depth + 1) nested.childrenStart) =
            fun nested _ =>
              children (w.upTo nested.stop) limits (depth + 1) nested.childrenStart := by
          funext nested hd
          exact ih (Form.rounds_of_decode hp hd hn)
        rw [children_of_framed hlt hp]
        simp only [hin, ih (Header.rounds_of_parse hp hn)]
    next hge => rw [children_of_le (by omega)]

/-- The outline of a tree in at most so many rounds. -/
def ofTreeWithin (out : List Node) (n : Nat) (limits : Limits) (t : Tree) : Node :=
  .form t.root (childrenWithin out n t.window limits 0 t.root.childrenStart)

theorem ofTreeWithin_eq (out : List Node) {t : Tree} (hn : t.root.stop / 8 < n) :
    ofTreeWithin out n limits t = ofTree limits t := by
  rw [ofTreeWithin, ofTree, childrenWithin_eq]
  simp only [Tree.window]
  omega

end Node

/-- A walk of a tree whose outline is read in at most so many rounds. -/
def Walk.treeWithin {σ : Type u} (out : List Node) (n : Nat) (f : Callback σ) (limits : Limits)
    (index : Nat) (t : Tree) (s : σ) : Report × σ :=
  node f index (Node.ofTreeWithin out n limits t) s

/-! ## Lookups

A search takes the same rounds, unless it ends sooner.
-/

namespace Lookup

/-- `children` in at most so many rounds. -/
def childrenWithin (out : Except Fault (Option Hit)) :
    Nat → Window → Nat → String → Nat → Nat → Except Fault (Option Hit)
  | 0, _, _, _, _, _ => out
  | n + 1, w, maxDepth, name, depth, cursor =>
    if cursor < w.stop then
      match Header.parse w cursor with
      | .error f => .error f
      | .ok h =>
        match record w maxDepth name depth h
            (fun form _ =>
              childrenWithin out n (w.upTo form.stop) maxDepth name (depth + 1)
                form.childrenStart) with
        | .ok none => childrenWithin out n w maxDepth name depth h.stop
        | answer => answer
    else
      .ok none

/-- Enough rounds search all that a form holds. -/
theorem childrenWithin_eq (out : Except Fault (Option Hit)) {maxDepth : Nat}
    (hn : (w.stop - cursor) / 8 < n) :
    childrenWithin out n w maxDepth name depth cursor = children w maxDepth name depth cursor := by
  induction n generalizing w depth cursor with
  | zero => omega
  | succ n ih =>
    rw [childrenWithin]
    split
    next hlt =>
      cases hp : Header.parse w cursor with
      | error f => rw [children_of_torn hlt hp]
      | ok h =>
        have hin : (fun (form : Form) (_ : Form.decode w h.offset (depth + 1) = .ok form) =>
            childrenWithin out n (w.upTo form.stop) maxDepth name (depth + 1) form.childrenStart) =
            fun form _ =>
              children (w.upTo form.stop) maxDepth name (depth + 1) form.childrenStart := by
          funext form hd
          exact ih (Form.rounds_of_decode hp hd hn)
        rw [children_of_framed hlt hp]
        simp only [hin]
        cases record w maxDepth name depth h fun form _ =>
            children (w.upTo form.stop) maxDepth name (depth + 1) form.childrenStart with
        | error f => rfl
        | ok found =>
          cases found with
          | none => exact ih (Header.rounds_of_parse hp hn)
          | some hit => rfl
    next hge => rw [children_of_le (by omega)]

/-- `tree` in at most so many rounds. -/
def treeWithin (out : Except Fault (Option Hit)) (n : Nat) (limits : Limits) (t : Tree)
    (name : String) : Except Fault (Option Hit) :=
  if t.name = name then .ok (some (.bare .form))
  else childrenWithin out n t.window limits.maxDepth name 0 t.root.childrenStart

theorem treeWithin_eq (out : Except Fault (Option Hit)) {t : Tree} (hn : t.root.stop / 8 < n) :
    treeWithin out n limits t name = tree limits t name := by
  rw [treeWithin, tree, childrenWithin_eq]
  simp only [Tree.window]
  omega

/-- `find` in at most so many rounds in each tree. -/
def findWithin (out : Except Fault (Option Hit)) (n : Nat) (limits : Limits) (form? : Option String)
    (name : String) : List Tree → Except Fault DefaultValue
  | [] => .error (.optionNotFound name)
  | t :: ts =>
    if form?.any (· ≠ t.name) then
      findWithin out n limits form? name ts
    else
      match treeWithin out n limits t name with
      | .error f => .error f
      | .ok (some (.value d)) => .ok d
      | .ok (some (.bare kind)) => .error (.noDefault name kind)
      | .ok none => findWithin out n limits form? name ts

/-- Enough rounds for each tree search all of them. -/
theorem findWithin_eq (out : Except Fault (Option Hit)) {form? : Option String} {ts : List Tree}
    (hn : ∀ t ∈ ts, t.root.stop / 8 < n) :
    findWithin out n limits form? name ts = find limits form? name ts := by
  induction ts with
  | nil => rfl
  | cons t ts ih =>
    obtain ⟨ht, hrest⟩ := List.forall_mem_cons.mp hn
    rw [findWithin, find, treeWithin_eq out ht]
    split
    · exact ih hrest
    · rcases tree limits t name with f | _ | hit | kind
      · rfl
      · exact ih hrest
      · rfl
      · rfl

end Lookup

end SetupForms
