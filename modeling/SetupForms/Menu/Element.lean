import SetupForms.Flags
import SetupForms.Json.Value
import SetupForms.Text.Hex

/-!
# Menu elements

What a renderer is handed: subtitles, questions with a widget each, and notes. `Element.line` is
the one-line text of an element and `Element.toJson` its JSON form.

Elements hold no record and no place, so that a renderer needs nothing of the format. The two texts
of an element are for the two outputs of the command line.
-/

namespace SetupForms.Menu

open Text

/-- How a question may be answered. -/
structure QuestionFlags where
  /-- the answer is fixed -/
  readOnly : Bool
  /-- a new answer asks for a reset -/
  resetRequired : Bool
  deriving DecidableEq

/-- The storage behind a question. -/
structure VarStore where
  /-- the id of the storage, which is that of its question -/
  id : UInt16
  /-- the name of the variable -/
  name : String
  /-- the size of the variable in bytes -/
  size : Nat
  deriving DecidableEq

/-- What all questions share. -/
structure Question where
  /-- the id of the question -/
  id : UInt16
  /-- the storage behind it -/
  varStore : VarStore
  /-- the displayed name -/
  label : String
  /-- the help text -/
  help : Option String
  /-- how it may be answered -/
  flags : QuestionFlags
  /-- how it is shown -/
  visibility : Visibility
  deriving DecidableEq

/-- One answer to choose. -/
structure Choice where
  /-- the number that is stored -/
  value : UInt32
  /-- the displayed text -/
  label : String
  deriving DecidableEq

/-- How a question is asked. -/
inductive Widget where
  /-- one of a list of choices -/
  | oneOf (default : UInt32) (choices : List Choice)
  /-- a number between bounds -/
  | number (default minimum maximum : UInt32)
  /-- on or off -/
  | checkBox (default : Bool)
  /-- a text, its length counted in 16-bit units -/
  | text (default : String) (minLength maxLength : Nat)
  deriving DecidableEq

/-- One line of a menu. -/
inductive Element where
  /-- a form's heading, or a blank separator -/
  | subtitle (label : String) (visibility : Visibility)
  /-- a question -/
  | question (question : Question) (widget : Widget)
  /-- a line to be read -/
  | note (label : String) (help : Option String) (visibility : Visibility)
  deriving DecidableEq

namespace Element

/-- The question of an element, if it asks one. -/
def question? : Element → Option Question
  | question q _ => some q
  | subtitle .. | note .. => none

/-- How an element is shown. -/
def visibility : Element → Visibility
  | subtitle _ v => v
  | question q _ => q.visibility
  | note _ _ v => v

end Element

/-! ## Lines

One line for an element, in fixed columns.
-/

/-- The id, name and label of a question. -/
def Question.line (q : Question) : String :=
  s!"{Hex.tag q.id.toNat} {q.varStore.name} \"{q.label}\""

/-- The text of a choice. -/
def Choice.line (c : Choice) : String := s!"{c.value}: {c.label}"

/-- The widget's name, the question and the widget's default and bounds. -/
def Widget.line (q : Question) : Widget → String
  | oneOf default choices =>
    s!"oneof    {q.line} = {default} " ++ "\x7b" ++
      String.intercalate ", " (choices.map Choice.line) ++ "\x7d"
  | number default minimum maximum => s!"numeric  {q.line} = {default} [{minimum}..={maximum}]"
  | checkBox default => s!"checkbox {q.line} = {default}"
  | text default _ maxLength => s!"string   {q.line} = \"{default}\" (max {maxLength})"

/-- The text of an element: its content, then the ways in which it is withheld. -/
def Element.line (e : Element) : String :=
  let content := match e with
    | subtitle label _ => s!"subtitle \"{label}\""
    | question q widget => widget.line q
    | note label _ _ => s!"text     \"{label}\""
  content ++ (if e.visibility.suppressed then " [suppressed]" else "") ++
    (if e.visibility.grayedOut then " [grayed out]" else "") ++
    (if e.question?.any (·.flags.readOnly) then " [read-only]" else "")

/-! ## JSON

The member `type` tells the elements apart, and a widget adds its own members behind the question.
-/

/-- A visibility as JSON. -/
def visibilityToJson (v : Visibility) : Json :=
  .object [("suppressed", .bool v.suppressed), ("grayed_out", .bool v.grayedOut)]

/-- A question as JSON. -/
def Question.toJson (q : Question) : Json :=
  .object [
    ("id", .number q.id.toNat),
    ("varstore", .object [
      ("id", .number q.varStore.id.toNat),
      ("name", .string q.varStore.name),
      ("size", .number q.varStore.size)]),
    ("label", .string q.label),
    ("help", .ofString? q.help),
    ("flags", .object [
      ("read_only", .bool q.flags.readOnly),
      ("reset_required", .bool q.flags.resetRequired)]),
    ("visibility", visibilityToJson q.visibility)]

/-- A choice as JSON. -/
def Choice.toJson (c : Choice) : Json :=
  .object [("value", .number c.value.toNat), ("label", .string c.label)]

/-- The kind of widget in JSON. -/
def Widget.noun : Widget → String
  | oneOf .. => "one_of"
  | number .. => "numeric"
  | checkBox .. => "check_box"
  | text .. => "string"

/-- The widget's own members in JSON. -/
def Widget.members : Widget → List (String × Json)
  | oneOf default choices =>
    [("default", .number default.toNat), ("options", .array (choices.map Choice.toJson))]
  | number default minimum maximum =>
    [("default", .number default.toNat), ("minimum", .number minimum.toNat),
      ("maximum", .number maximum.toNat)]
  | checkBox default => [("default", .bool default)]
  | text default minLength maxLength =>
    [("default", .string default), ("min_len", .number minLength), ("max_len", .number maxLength)]

/-- An element as JSON, its type first. -/
def Element.toJson : Element → Json
  | subtitle label v =>
    .object [("type", .string "subtitle"), ("label", .string label),
      ("visibility", visibilityToJson v)]
  | question q widget =>
    .object (("type", .string widget.noun) :: ("question", q.toJson) :: widget.members)
  | note label help v =>
    .object [("type", .string "text"), ("label", .string label), ("help", .ofString? help),
      ("visibility", visibilityToJson v)]

end SetupForms.Menu
