/-!
# JSON values and their text

The values that are written out, and two layouts: `compact` without blanks, and `pretty` with one
member or element a line, two blanks a level and `: ` after a key. Members keep their order. In
strings only quotes, backslashes and control characters below U+0020 are escaped.

Both layouts are read back as the value that was written (`Proofs/JsonText`), whatever characters
its strings are made of.
-/

namespace SetupForms

/-- A JSON value to be written. -/
inductive Json where
  | null
  | bool (b : Bool)
  | number (n : Nat)
  | string (s : String)
  | array (elements : List Json)
  | object (members : List (String × Json))

namespace Json

/-- A text, or null where there is none. -/
def ofString? (s : Option String) : Json := s.elim null string

/-- The escape of a control character without a short one. -/
def unicodeEscape (c : Char) : List Char :=
  let n := c.toNat
  ['\\', 'u', '0', '0', Nat.digitChar (n / 16), Nat.digitChar (n % 16)]

/-- A character as it stands between quotes. -/
def escape (c : Char) : List Char :=
  if c = '"' then ['\\', '"']
  else if c = '\\' then ['\\', '\\']
  else if c = '\x08' then ['\\', 'b']
  else if c = '\t' then ['\\', 't']
  else if c = '\n' then ['\\', 'n']
  else if c = '\x0c' then ['\\', 'f']
  else if c = '\r' then ['\\', 'r']
  else if c.toNat < 0x20 then unicodeEscape c
  else [c]

/-- A text in quotes. -/
def quote (s : String) : String := "\"" ++ String.ofList (s.toList.flatMap escape) ++ "\""

mutual

/-- The text without blanks. -/
def compact : Json → String
  | null => "null"
  | bool b => toString b
  | number n => toString n
  | string s => quote s
  | array elements => "[" ++ String.intercalate "," (compactElements elements) ++ "]"
  | object members => "\x7b" ++ String.intercalate "," (compactMembers members) ++ "\x7d"

/-- The texts of elements. -/
def compactElements : List Json → List String
  | [] => []
  | v :: vs => compact v :: compactElements vs

/-- The texts of members. -/
def compactMembers : List (String × Json) → List String
  | [] => []
  | (k, v) :: ms => (quote k ++ ":" ++ compact v) :: compactMembers ms

end

/-- Lines between brackets, each at its level; the brackets alone if there are none. -/
def block (opening closing : String) (level : Nat) (lines : List String) : String :=
  let margin (n : Nat) := "\n" ++ "".pushn ' ' (2 * n)
  if lines.isEmpty then opening ++ closing
  else
    opening ++ margin (level + 1) ++ String.intercalate ("," ++ margin (level + 1)) lines ++
      margin level ++ closing

mutual

/-- The text at a level of indentation. -/
def pretty (level : Nat) : Json → String
  | null => "null"
  | bool b => toString b
  | number n => toString n
  | string s => quote s
  | array elements => block "[" "]" level (prettyElements (level + 1) elements)
  | object members => block "\x7b" "\x7d" level (prettyMembers (level + 1) members)

/-- The texts of elements at a level. -/
def prettyElements (level : Nat) : List Json → List String
  | [] => []
  | v :: vs => pretty level v :: prettyElements level vs

/-- The texts of members at a level. -/
def prettyMembers (level : Nat) : List (String × Json) → List String
  | [] => []
  | (k, v) :: ms => (quote k ++ ": " ++ pretty level v) :: prettyMembers level ms

end

end Json

end SetupForms
