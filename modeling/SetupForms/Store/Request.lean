import SetupForms.Store.Basic
import SetupForms.Text.Utf16

/-!
# Config requests

A request is a text of `&` elements. Its first `&NAME=` element names the variable it is about, as
the UTF-16 units of the name in four digits each. `Store.extract` reads that variable and
`Store.route` writes it back under its stored attributes.

Requests come from outside, and each way in which one can be malformed is told apart for its
wording. A name is text, so that its units have to be well-formed, and they stand in the request in
four digits each.
-/

namespace SetupForms

open Text

namespace Request

/-- What opens the element with the name. -/
def key : List Char := "&NAME=".toList

/-- Why a request names no variable. -/
inductive Malformed where
  /-- there is no name element -/
  | noName
  /-- nothing closes the name element -/
  | unterminated
  /-- the name is not spelled in groups of four digits -/
  | notHex (hex : String)
  /-- the name holds an unpaired surrogate -/
  | notUtf16 (hex : String)
  deriving DecidableEq

/-- The wording of a malformed request. -/
def Malformed.detail : Malformed → String
  | noName => "no &NAME= element"
  | unterminated => "unterminated &NAME= element"
  | notHex hex => s!"name '{hex}' is not hex-encoded UTF-16"
  | notUtf16 hex => s!"name '{hex}' is not valid UTF-16"

/-- The fault of a malformed request. -/
def Malformed.fault (m : Malformed) : Fault := .invalidRequest m.detail

/-- What follows the first key. -/
def afterKey? : List Char → Option (List Char)
  | [] => none
  | c :: cs => if key.isPrefixOf (c :: cs) then some ((c :: cs).drop key.length) else afterKey? cs

/-- What stands before the first `&`, if there is one. -/
def element? (cs : List Char) : Option (List Char) :=
  if '&' ∈ cs then some (cs.takeWhile (· ≠ '&')) else none

/-- The units that groups of four digits spell. -/
def units? : List Char → Option (List UInt16)
  | [] => some []
  | a :: b :: c :: d :: cs => do
    let unit ← Hex.value? [a, b, c, d]
    let rest ← units? cs
    return UInt16.ofNat unit :: rest
  | _ => none

/-- The name in a request, or why there is none. -/
def read (request : List Char) : Except Malformed (List Char) :=
  match afterKey? request with
  | none => .error .noName
  | some rest =>
    match element? rest with
    | none => .error .unterminated
    | some hex =>
      match units? hex with
      | none => .error (.notHex (String.ofList hex))
      | some units =>
        match Utf16.decode? units with
        | none => .error (.notUtf16 (String.ofList hex))
        | some name => .ok name

/-- The name of the variable a request is about. -/
def variableName (request : String) : Except Fault String :=
  match read request.toList with
  | .ok name => .ok (String.ofList name)
  | .error m => .error m.fault

/-- The digits of a name as they stand in its element. -/
def nameChars (name : List Char) : List Char :=
  (Utf16.encode name).flatMap fun unit => Hex.fixed 4 unit.toNat

/-- The text of a name as it stands in its element. -/
def encodeName (name : String) : String := String.ofList (nameChars name.toList)

end Request

namespace Store

/-- The bytes of the variable a request is about. -/
def extract (s : Store) (request : String) : Except Fault (List UInt8) := do
  let name ← Request.variableName request
  let v ← s.get name
  return v.data

/-- The store with the variable of a request rewritten, which must keep its size. A locked variable
is left as it is without a fault. -/
def route (s : Store) (request : String) (data : List UInt8) : Except Fault Store := do
  let name ← Request.variableName request
  let v ← s.get name
  if v.data.length = data.length then
    match s.set name v.attributes data with
    -- a front end that writes everything back is not to fail for what is locked
    | .error (.writeProtected _) => return s
    | answer => answer
  else
    throw (.storeSizeMismatch name v.data.length data.length)

end Store

end SetupForms
