import SetupForms.Record.Form
import SetupForms.Record.Option

/-!
# Events and callbacks

A walk calls back for every form, option and enum value in pre-order. A callback is a state machine
over `Event`s and may refuse any of them.

The state is whatever the callback needs, and it is carried through the whole walk. That a refusal
keeps the state means that a callback may take notes of what it refuses.
-/

namespace SetupForms

universe u

/-- What a walk calls back with. -/
inductive Event where
  /-- a form, before what it holds -/
  | enter (form : Form)
  /-- a form, after what it holds -/
  | exit (form : Form)
  /-- a value of an enum, before the option itself -/
  | value (option : NumericOption) (value : EnumValue)
  /-- a numeric option -/
  | numeric (option : NumericOption)
  /-- a text option or comment -/
  | text (option : TextOption)
  deriving DecidableEq

/-- The name by which an event is known: of a form its label, of a value its label, of an option
its internal name, and of a comment its label. -/
def Event.subject : Event → String
  | enter form | exit form => form.name
  | value _ v => v.label
  | numeric o => o.name
  | text o => o.name.getD o.label

/-- A state machine that is called back. A refusal keeps the new state. -/
abbrev Callback (σ : Type u) := σ → Event → Except Fault Unit × σ

namespace Callback

/-- The callback that does nothing. -/
def silent : Callback Unit := fun s _ => (.ok (), s)

/-- The callback that records every event and refuses as it is told. -/
def recorder (refusal? : Event → Option Fault) : Callback (Array Event) := fun s e =>
  (match refusal? e with
    | some f => .error f
    | none => .ok (),
   s.push e)

end Callback

end SetupForms
