import SetupForms.Json.Document
import SetupForms.Json.Value
import SetupForms.Menu.Settings
import SetupForms.Record.Limits

/-!
# Settings as JSON

How limits, menu settings and the settings file of the command line are read from JSON and written
to it. A field that is left out keeps its default.

What is written is read back as it was, as long as the depth is a machine word (`Proofs/JsonText`).
In the file of the command line the two parts are members of one object, and either may be left out.
-/

namespace SetupForms

/-- A number that fits 16 bits. -/
def Document.toUInt16? (d : Document) : Option UInt16 := (d.toNat? 0xffff).map UInt16.ofNat

/-- Limits from a document. -/
def Limits.ofDocument? (d : Document) : Option Limits :=
  let defaults : Limits := {}
  match d.fields? ["max_default_len", "max_depth"] with
  | some [length, depth] => do
    let length ← Document.orElse? (·.toNat? 0xffffffff) defaults.maxDefaultLength.toNat length
    let depth ← Document.orElse? (·.toNat? 0xffffffffffffffff) defaults.maxDepth depth
    return ⟨UInt32.ofNat length, depth⟩
  | _ => none

/-- Limits as JSON. -/
def Limits.toJson (l : Limits) : Json :=
  .object [("max_default_len", .number l.maxDefaultLength.toNat), ("max_depth", .number l.maxDepth)]

/-- Menu settings from a document. -/
def Menu.Settings.ofDocument? (d : Document) : Option Menu.Settings :=
  let defaults : Menu.Settings := {}
  match d.fields? ["component_start", "component_end", "invalid_string", "reset_required",
    "tree_separator"] with
  | some [first, last, invalid, reset, separator] => do
    let componentStart ← Document.orElse? (·.toUInt16?) defaults.componentStart first
    let componentEnd ← Document.orElse? (·.toUInt16?) defaults.componentEnd last
    let invalidString ← Document.orElse? (·.toText?) defaults.invalidString invalid
    let resetRequired ← Document.orElse? (·.toBool?) defaults.resetRequired reset
    let treeSeparator ← Document.orElse? (·.toBool?) defaults.treeSeparator separator
    return { componentStart, componentEnd, invalidString, resetRequired, treeSeparator }
  | _ => none

/-- Menu settings as JSON. -/
def Menu.Settings.toJson (s : Menu.Settings) : Json :=
  .object [
    ("component_start", .number s.componentStart.toNat),
    ("component_end", .number s.componentEnd.toNat),
    ("invalid_string", .string s.invalidString),
    ("reset_required", .bool s.resetRequired),
    ("tree_separator", .bool s.treeSeparator)]

/-- The settings file of the command line. -/
structure Settings where
  /-- the limits of walks and lookups -/
  walk : Limits := {}
  /-- how menus are built -/
  menu : Menu.Settings := {}
  deriving DecidableEq

/-- The settings of a file from a document. -/
def Settings.ofDocument? (d : Document) : Option Settings :=
  match d.fields? ["walk", "menu"] with
  | some [walk, menu] => do
    let walk ← Document.orElse? Limits.ofDocument? {} walk
    let menu ← Document.orElse? Menu.Settings.ofDocument? {} menu
    return ⟨walk, menu⟩
  | _ => none

/-- The settings of a file from its text. -/
def Settings.ofText? (text : String) : Option Settings :=
  (Document.parse? text).bind Settings.ofDocument?

end SetupForms
