/-!
# Kinds of records

Every record starts with a 32-bit tag. `Kind` lists the eleven tags that mean something;
`Kind.tag` and `Kind.ofTag?` translate both ways (`ofTag?_eq_some_iff`), and every other word is a
tag of no known kind. `Role.ofTag` says what a tag introduces as the child of a form.

A tag is represented by its wire word and by nothing else, so that a tag is of an unknown kind
exactly if its word is none of the eleven. A tag that claims to be unknown and bears the word of a
known kind is no tag of the format, and is not represented.
-/

namespace SetupForms

/-- The kinds of records of the format. -/
inductive Kind where
  /-- a form, which groups forms and options -/
  | form
  /-- one selectable value of an enum option -/
  | enumValue
  /-- an option with a closed list of values -/
  | enum
  /-- an option that holds a 32-bit number -/
  | number
  /-- an option that is on or off -/
  | bool
  /-- an option that holds text -/
  | varchar
  /-- the field with an option's internal name -/
  | optionName
  /-- the field with a displayed name -/
  | label
  /-- the field with a help text -/
  | help
  /-- the field with the default of a text option -/
  | defaultValue
  /-- a line of text without a value -/
  | comment
  deriving DecidableEq

namespace Kind

/-- The kinds in the order of their tags. -/
def all : List Kind :=
  [form, enumValue, enum, number, bool, varchar, optionName, label, help, defaultValue, comment]

/-- The tag on the wire. -/
def tag : Kind → UInt32
  | form => 0x0101
  | enumValue => 0x0102
  | enum => 0x0103
  | number => 0x0104
  | bool => 0x0105
  | varchar => 0x0106
  | optionName => 0x0107
  | label => 0x0108
  | help => 0x0109
  | defaultValue => 0x010a
  | comment => 0x010b

/-- The kind a tag stands for, if it stands for one. -/
def ofTag? (t : UInt32) : Option Kind := all.find? fun k => k.tag = t

theorem mem_all (k : Kind) : k ∈ all := by cases k <;> decide

theorem tag_injective {k l : Kind} (h : k.tag = l.tag) : k = l := by
  cases k <;> cases l <;> first | rfl | simp [tag] at h

/-- A tag stands for the kind that is written with it, and for no other. -/
theorem ofTag?_eq_some_iff {t : UInt32} {k : Kind} : ofTag? t = some k ↔ k.tag = t := by
  constructor
  · intro h
    simpa using List.find?_some h
  · intro h
    subst h
    cases hf : ofTag? k.tag with
    | none => exact absurd (List.find?_eq_none.mp hf k (mem_all k)) (by simp)
    | some l =>
      have hl : l.tag = k.tag := by simpa using List.find?_some hf
      rw [tag_injective hl]

@[simp] theorem ofTag?_tag (k : Kind) : ofTag? k.tag = some k := ofTag?_eq_some_iff.mpr rfl

/-- The words for a kind. -/
def noun : Kind → String
  | form => "form"
  | enumValue => "enum value"
  | enum => "enum"
  | number => "number"
  | bool => "bool"
  | varchar => "varchar"
  | optionName => "option name"
  | label => "ui name"
  | help => "help text"
  | defaultValue => "default value"
  | comment => "comment"

/-- The words for a tag, known or not. -/
def nounOfTag (t : UInt32) : String := (ofTag? t).elim "unknown" noun

/-- Whether the kind is a variable-length field. -/
def isField : Kind → Bool
  | optionName | label | help | defaultValue => true
  | _ => false

/-- Whether the kind is an option with a 32-bit value. -/
def isNumeric : Kind → Bool
  | enum | number | bool => true
  | _ => false

/-- Whether the kind is an option with the layout of a text line. -/
def isText : Kind → Bool
  | varchar | comment => true
  | _ => false

/-- Whether a tag stands for a kind of a given class. -/
def ofClass (p : Kind → Bool) (t : UInt32) : Bool := (ofTag? t).any p

end Kind

/-- The kinds of options with a 32-bit value. -/
inductive NumericKind where
  | enum
  | number
  | bool
  deriving DecidableEq

/-- The record kind of a numeric option. -/
def NumericKind.kind : NumericKind → Kind
  | enum => .enum
  | number => .number
  | bool => .bool

/-- The kinds of records with the layout of a text line. -/
inductive TextKind where
  | varchar
  | comment
  deriving DecidableEq

/-- The record kind of a text line. -/
def TextKind.kind : TextKind → Kind
  | varchar => .varchar
  | comment => .comment

/-- What a record is as the child of a form. -/
inductive Role where
  | form
  | numeric (kind : NumericKind)
  | text (kind : TextKind)
  /-- nothing that a form may hold -/
  | unrecognized
  deriving DecidableEq

/-- The role of a record with a given tag. -/
def Role.ofTag (t : UInt32) : Role :=
  match Kind.ofTag? t with
  | some .form => .form
  | some .enum => .numeric .enum
  | some .number => .numeric .number
  | some .bool => .numeric .bool
  | some .varchar => .text .varchar
  | some .comment => .text .comment
  | _ => .unrecognized

namespace Role

@[simp] theorem ofTag_form : ofTag Kind.form.tag = .form := by
  rw [ofTag, Kind.ofTag?_tag]

@[simp] theorem ofTag_numeric (k : NumericKind) : ofTag k.kind.tag = .numeric k := by
  rw [ofTag, Kind.ofTag?_tag]
  cases k <;> rfl

@[simp] theorem ofTag_text (k : TextKind) : ofTag k.kind.tag = .text k := by
  rw [ofTag, Kind.ofTag?_tag]
  cases k <;> rfl

end Role

end SetupForms
