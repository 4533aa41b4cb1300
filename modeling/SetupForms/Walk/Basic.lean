import SetupForms.Walk.Callback
import SetupForms.Walk.Outline
import SetupForms.Walk.Report

/-!
# Walks

A walk calls a callback for every record of a tree in pre-order. A refused record is rejected with a
diagnostic, and the walk goes on with the next one. Refusing to enter a form skips what the form
holds and its exit; refusing an enum value skips the later values of that option and the option
itself.
-/

namespace SetupForms.Walk

universe u

variable {σ : Type u}

/-- The report of a record that is rejected. -/
def rejected (tree offset : Nat) (tag : UInt32) (fault : Fault) : Report :=
  .skip ⟨tree, offset, tag, .error, fault⟩

/-- Calls back with the values of an option and then with the option. -/
def numeric (f : Callback σ) (tree : Nat) (o : NumericOption) : List EnumValue → σ → Report × σ
  | [], s =>
    match f s (.numeric o) with
    | (.ok (), s) => ({ options := 1 }, s)
    | (.error fault, s) => (rejected tree o.offset o.kind.kind.tag fault, s)
  | value :: values, s =>
    match f s (.value o value) with
    | (.ok (), s) =>
      let (r, s) := numeric f tree o values s
      ({ enumValues := 1 } ++ r, s)
    -- a refused value is noted at its option, and ends it
    | (.error fault, s) => (rejected tree o.offset o.kind.kind.tag fault, s)

/-- Calls back with a text option. -/
def text (f : Callback σ) (tree : Nat) (o : TextOption) (s : σ) : Report × σ :=
  match f s (.text o) with
  | (.ok (), s) => ({ options := 1 }, s)
  | (.error fault, s) => (rejected tree o.offset o.kind.kind.tag fault, s)

mutual

/-- Walks one node and what it holds. -/
def node (f : Callback σ) (tree : Nat) : Node → σ → Report × σ
  | .form form children, s =>
    match f s (.enter form) with
    | (.error fault, s) => (rejected tree form.offset Kind.form.tag fault, s)
    | (.ok (), s) =>
      let (r, s) := nodes f tree children s
      match f s (.exit form) with
      | (.error fault, s) =>
        -- the form is counted, and its children have been walked; yet it is noted as skipped
        ({ forms := 1 } ++ r ++ rejected tree form.offset Kind.form.tag fault, s)
      | (.ok (), s) => ({ forms := 1 } ++ r, s)
  | .numeric o, s => numeric f tree o o.values s
  | .text o, s => text f tree o s
  | .unrecognized offset tag, s =>
    (.skip ⟨tree, offset, tag, .warning, .unknownRecord offset tag⟩, s)
  | .malformed offset tag fault, s => (rejected tree offset tag fault, s)
  | .torn offset tag fault, s => (rejected tree offset tag fault, s)

/-- Walks nodes one after the other. -/
def nodes (f : Callback σ) (tree : Nat) : List Node → σ → Report × σ
  | [], s => ({}, s)
  | n :: ns, s =>
    let (r, s) := node f tree n s
    let (rs, s) := nodes f tree ns s
    (r ++ rs, s)

end

/-- Walks one tree, known to the report by its index. -/
def tree (f : Callback σ) (limits : Limits) (index : Nat) (t : Tree) (s : σ) : Report × σ :=
  node f index (Node.ofTree limits t) s

/-- Walks trees in order, counting their indices from `first`. -/
def trees (f : Callback σ) (limits : Limits) (first : Nat) : List Tree → σ → Report × σ
  | [], s => ({}, s)
  | t :: ts, s =>
    let (r, s) := tree f limits first t s
    let (rs, s) := trees f limits (first + 1) ts s
    (r ++ rs, s)

end SetupForms.Walk
