import SetupForms.Text.Hex
import SetupForms.Text.Utf16

/-!
# JSON documents

A document is JSON text as it is written: a number keeps its spelling, an object its members in
their order, repeated keys included, and a string whose escapes leave a surrogate unpaired spells
no text. `Document.parse?` reads a whole text in two steps, tokens and values; nothing but blanks
may follow.

The reader is strict where JSON is: no comma behind the last part, no number with a leading zero, no
control character in a string. It keeps what JSON leaves open, for the readings below to decide:
they refuse a key that comes twice and ignore a key that they do not know.
-/

namespace SetupForms

open Text

/-- A JSON text as it is written. -/
inductive Document where
  | null
  | bool (b : Bool)
  /-- a number by its spelling -/
  | number (lexeme : List Char)
  /-- a string, if it spells a text -/
  | string (content : Option String)
  | array (elements : List Document)
  | object (members : List (Option String × Document))

namespace Document

/-! ## Tokens

A token is found by its first character. Each scanner says how many characters it takes, so that the
text is cut once and no rest has to be handed about.
-/

/-- The tokens of JSON text. -/
inductive Token where
  | openArray
  | closeArray
  | openObject
  | closeObject
  | comma
  | colon
  | null
  | bool (b : Bool)
  | number (lexeme : List Char)
  | string (content : Option String)

/-- The character behind a backslash, if it stands for one. -/
def shortEscape? (c : Char) : Option Char :=
  match c with
  | '"' => some '"'
  | '\\' => some '\\'
  | '/' => some '/'
  | 'b' => some '\x08'
  | 'f' => some '\x0c'
  | 'n' => some '\n'
  | 'r' => some '\r'
  | 't' => some '\t'
  | _ => none

/-- The 16-bit units of a string behind its opening quote, and how many characters it takes up to
its closing quote. Control characters must be escaped. -/
def stringBody? : List Char → Option (List UInt16 × Nat)
  | [] => none
  | '"' :: _ => some ([], 1)
  | '\\' :: 'u' :: a :: b :: c :: d :: cs => do
    let unit ← Hex.value? [a, b, c, d]
    let (units, n) ← stringBody? cs
    return (UInt16.ofNat unit :: units, n + 6)
  | '\\' :: c :: cs => do
    let escaped ← shortEscape? c
    let (units, n) ← stringBody? cs
    return (Utf16.units escaped ++ units, n + 2)
  | c :: cs =>
    if c = '\\' ∨ c.toNat < 0x20 then none
    else do
      let (units, n) ← stringBody? cs
      return (Utf16.units c ++ units, n + 1)

/-- How many digits a text starts with. -/
def digitCount (cs : List Char) : Nat := (cs.takeWhile Char.isDigit).length

/-- The length of an integer without sign: a single zero, or digits that start with another. -/
def integerLength? (cs : List Char) : Option Nat :=
  if cs.head? = some '0' then some 1
  else if digitCount cs = 0 then none
  else some (digitCount cs)

/-- The length of a fraction, which is 0 where there is none. -/
def fractionLength? : List Char → Option Nat
  | '.' :: cs => if digitCount cs = 0 then none else some (1 + digitCount cs)
  | _ => some 0

/-- The length of an exponent, which is 0 where there is none. -/
def exponentLength? : List Char → Option Nat
  | c :: cs =>
    if c = 'e' ∨ c = 'E' then
      let sign := if cs.head? = some '+' ∨ cs.head? = some '-' then 1 else 0
      let digits := digitCount (cs.drop sign)
      if digits = 0 then none else some (1 + sign + digits)
    else
      some 0
  | [] => some 0

/-- The length of a number. -/
def numberLength? (cs : List Char) : Option Nat := do
  let sign := if cs.head? = some '-' then 1 else 0
  let integer ← integerLength? (cs.drop sign)
  let fraction ← fractionLength? (cs.drop (sign + integer))
  let exponent ← exponentLength? (cs.drop (sign + integer + fraction))
  return sign + integer + fraction + exponent

/-- The word at the start of a text, and how many characters follow its first. -/
def word? (cs : List Char) : Option (Token × Nat) :=
  if "true".toList.isPrefixOf cs then some (.bool true, 3)
  else if "false".toList.isPrefixOf cs then some (.bool false, 4)
  else if "null".toList.isPrefixOf cs then some (.null, 3)
  else none

/-- The token that starts with `c`, and how many of the characters behind `c` belong to it. -/
def token? (c : Char) (cs : List Char) : Option (Token × Nat) :=
  match c with
  | '[' => some (.openArray, 0)
  | ']' => some (.closeArray, 0)
  | '{' => some (.openObject, 0)
  | '}' => some (.closeObject, 0)
  | ',' => some (.comma, 0)
  | ':' => some (.colon, 0)
  | '"' => (stringBody? cs).map fun (units, n) =>
    (.string ((Utf16.decode? units).map String.ofList), n)
  | _ =>
    if c = '-' ∨ c.isDigit then
      (numberLength? (c :: cs)).map fun n => (.number ((c :: cs).take n), n - 1)
    else
      word? (c :: cs)

/-- Whether a character may stand between tokens. -/
def isBlank (c : Char) : Bool := c = ' ' || c = '\t' || c = '\n' || c = '\r'

/-- The tokens of a text. -/
def tokens? : List Char → Option (List Token)
  | [] => some []
  | c :: cs =>
    if isBlank c then tokens? cs
    else
      match token? c cs with
      | none => none
      | some (t, n) => (tokens? (cs.drop n)).map (t :: ·)
termination_by cs => cs.length
decreasing_by
  · exact Nat.lt_succ_self _
  · rw [List.length_drop, List.length_cons]
    omega

/-! ## Values

Values are nested without bound, and the reader keeps the open containers in a list instead of
calling itself for each part. It goes back and forth between two states: a value is due, or one has
just been read.
-/

/-- A container that is not closed yet, its parts in reverse order. -/
inductive Container where
  | array (elements : List Document)
  /-- an object and the key of the member that comes next -/
  | object (members : List (Option String × Document)) (key : Option String)

mutual

/-- Reads a value inside open containers. -/
def value? (open? : List Container) : List Token → Option Document
  | .null :: ts => resume? .null open? ts
  | .bool b :: ts => resume? (.bool b) open? ts
  | .number lexeme :: ts => resume? (.number lexeme) open? ts
  | .string content :: ts => resume? (.string content) open? ts
  | .openArray :: .closeArray :: ts => resume? (.array []) open? ts
  | .openArray :: ts => value? (.array [] :: open?) ts
  | .openObject :: .closeObject :: ts => resume? (.object []) open? ts
  | .openObject :: .string key :: .colon :: ts => value? (.object [] key :: open?) ts
  | _ => none

/-- Puts a value into the innermost open container. -/
def resume? (v : Document) : List Container → List Token → Option Document
  | [], [] => some v
  | .array vs :: open?, .closeArray :: ts => resume? (.array (v :: vs).reverse) open? ts
  | .array vs :: open?, .comma :: ts => value? (.array (v :: vs) :: open?) ts
  | .object ms key :: open?, .closeObject :: ts =>
    resume? (.object ((key, v) :: ms).reverse) open? ts
  | .object ms key :: open?, .comma :: .string next :: .colon :: ts =>
    value? (.object ((key, v) :: ms) next :: open?) ts
  -- a mark that does not fit, or the end of the text inside of a container
  | _, _ => none

end

/-- Reads a whole text. -/
def parse? (text : String) : Option Document := (tokens? text.toList).bind (value? [])

/-! ## Readings

What a setting may be. A reading fails on a document of another shape, and nothing is converted.
-/

/-- A number without sign, fraction and exponent that is at most `max`. -/
def toNat? (max : Nat) : Document → Option Nat
  | number lexeme =>
    if lexeme.all Char.isDigit then
      let n := lexeme.foldl (fun n c => 10 * n + (c.toNat - '0'.toNat)) 0
      if n ≤ max then some n else none
    else
      none
  | _ => none

/-- A truth value. -/
def toBool? : Document → Option Bool
  | bool b => some b
  | _ => none

/-- A string that spells a text. -/
def toText? : Document → Option String
  | string content => content
  | _ => none

/-- The values of one key. -/
def valuesOf (key : String) (members : List (Option String × Document)) : List Document :=
  members.filterMap fun m => if m.1 = some key then some m.2 else none

/-- The fields of a record with given keys: the members of an object or the elements of an array in
order. A missing field is `none`. A repeated key, a key that spells no text and an element too many
are refused; other members are ignored. -/
def fields? (keys : List String) : Document → Option (List (Option Document))
  | object members =>
    if members.any fun m => m.1.isNone then none
    else keys.mapM fun key =>
      match valuesOf key members with
      | [] => some none
      | [v] => some (some v)
      | _ => none
  | array elements =>
    if keys.length < elements.length then none
    else some ((List.range keys.length).map fun i => elements[i]?)
  | _ => none

/-- The reading of a field, or its default if it is missing. -/
def orElse? {α : Type} (read : Document → Option α) (default : α) : Option Document → Option α
  | none => some default
  | some v => read v

end Document

end SetupForms
