import SetupForms.Command.Arguments
import SetupForms.Handoff
import SetupForms.Lookup
import SetupForms.Menu.Draft
import SetupForms.Settings

/-!
# The command

`Command.run` is the command as a function of its arguments, of what can be read from files, and of
how the text of a settings file is read. It prints the menu of the given trees, or the default of
one option, and ends with status 0 if all went well, 1 if something is wrong with what was read, 2
for wrong usage and 3 for files that cannot be read.

Nothing is printed before everything has been read: settings, files and trees come first, in this
order, and the first fault among them is the outcome. What comes then has all that it needs, and the
status says what it has found.
-/

namespace SetupForms.Command

open Text

/-- What a run prints and how it ends. -/
structure Outcome where
  /-- the exit status -/
  status : Nat
  /-- the standard output -/
  stdout : String := ""
  /-- the standard error -/
  stderr : String := ""
  deriving DecidableEq

/-- What can be read: the bytes of a file by its path, or why it cannot be read. -/
abbrev Files := String → Except String (Array UInt8)

/-- How the text of a settings file is read: its settings, or none if it is no settings document. -/
abbrev SettingsReader := String → Option Settings

/-- A fault and what was being done. -/
structure Failure where
  /-- what was being done -/
  context : String
  /-- the cause -/
  fault : Fault
  deriving DecidableEq

/-- The outcome of a run that fails. -/
def Failure.outcome (f : Failure) : Outcome where
  status := f.fault.exitStatus
  stderr := s!"error: {f.context}: {f.fault.message}\n"

/-- The help text. -/
def usage : String := String.join [
  "Usage: cfr [OPTIONS] FILE...\n",
  "\n",
  "Each FILE is one CFR form tree, or with --hob-guid a HOB list.\n",
  "\n",
  "Options:\n",
  "  --config FILE     JSON overrides with optional \"walk\" and \"menu\" sections\n",
  "  --hob-guid GUID   Scan FILEs as HOB lists for GUID extension HOBs\n",
  "  --json            Print the menu as JSON\n",
  "  --default OPTION  Print the default of OPTION instead of the menu\n",
  "  --form NAME       Restrict --default to trees whose root form is NAME\n",
  "  -h, --help        Show this help\n"]

/-- Reads the settings file, if one is given. -/
def loadSettings (reader : SettingsReader) (files : Files) :
    Option String → Except Failure Settings
  | none => .ok {}
  | some path => do
    -- bytes that are no text are reported like a file that cannot be read
    let unreadable (text : String) : Failure := ⟨s!"failed reading config `{path}`", .io text⟩
    let bytes ← (files path).mapError unreadable
    let text ← match Utf8.decode? bytes.toList with
      | some text => .ok text
      | none => .error (unreadable "stream did not contain valid UTF-8")
    match reader text with
    | some settings => .ok settings
    | none => .error ⟨s!"invalid config JSON `{path}`", .invalidRequest "not a settings document"⟩

/-- Reads files in order. -/
def readFiles (files : Files) : List String → Except Failure (List (String × Array UInt8))
  | [] => .ok []
  | path :: paths => do
    let bytes ← (files path).mapError fun text => ⟨s!"failed reading `{path}`", .io text⟩
    let rest ← readFiles files paths
    return (path, bytes) :: rest

/-- The trees of one file: the file itself, or what it carries under a GUID. -/
def loadTrees (guid? : Option Guid) (path : String) (bytes : Array UInt8) :
    Except Failure (List Tree) :=
  match guid? with
  | none =>
    match Tree.ofBytes bytes with
    | .ok t => .ok [t]
    | .error f => .error ⟨s!"`{path}` is not a CFR tree", f⟩
  | some g =>
    match (Scan.ofBytes bytes).trees g with
    | [] => .error ⟨s!"scanning `{path}`", .blockNotFound g.text⟩
    | ts => .ok ts

/-- The trees of files in order. -/
def loadAll (guid? : Option Guid) : List (String × Array UInt8) → Except Failure (List Tree)
  | [] => .ok []
  | (path, bytes) :: rest => do
    let ts ← loadTrees guid? path bytes
    let more ← loadAll guid? rest
    return ts ++ more

/-- The text of a default: a number, a text, or digits for bytes that are neither. -/
def defaultText (d : DefaultValue) : String :=
  match d.toUInt32?, d.text? with
  | some n, _ => toString n
  | none, some s => s
  | none, none => String.ofList (Hex.ofBytes d.bytes)

/-- The text of a diagnostic. -/
def diagnosticText (d : Diagnostic) : String :=
  s!"{d.severity.noun}: tree {d.tree} offset {Hex.offset d.offset} tag {Hex.tag d.tag.toNat}: " ++
    d.fault.message

/-- A report as JSON. -/
def reportToJson (r : Report) : Json :=
  .object [
    ("forms", .number r.forms),
    ("options", .number r.options),
    ("enum_values", .number r.enumValues),
    ("skipped", .number r.skipped),
    ("diagnostics", .array (r.diagnostics.map fun d =>
      .object [
        ("tree", .number d.tree),
        ("offset", .number d.offset),
        ("tag", .number d.tag.toNat),
        ("severity", .string d.severity.noun),
        ("error", .string d.fault.message)]))]

/-- A menu as JSON. -/
def menuToJson (m : Menu) : Json :=
  .object [
    ("elements", .array (m.elements.map Menu.Element.toJson)),
    ("provisioned", .array (m.provisioned.map .string)),
    ("storage_errors", .array (m.storageFaults.map fun f => .string f.message)),
    ("report", reportToJson m.report)]

/-- Lines of text. -/
def lines (ls : List String) : String := String.join (ls.map (· ++ "\n"))

/-- Prints the menu of trees over an empty store. -/
def runMenu (settings : Settings) (json : Bool) (trees : List Tree) : Outcome :=
  let (menu, _) := Menu.build settings.menu settings.walk .store trees {}
  {
    status := if menu.isClean then 0 else 1
    stdout :=
      if json then (menuToJson menu).pretty 0 ++ "\n"
      else lines (menu.elements.map Menu.Element.line)
    stderr :=
      lines (menu.report.diagnostics.map diagnosticText) ++
        lines (menu.storageFaults.map fun f => s!"error: {f.message}")
  }

/-- Prints the default of an option. -/
def runDefault (settings : Settings) (form? : Option String) (option : String) (trees : List Tree) :
    Outcome :=
  match Lookup.find settings.walk form? option trees with
  | .ok d => { status := 0, stdout := defaultText d ++ "\n" }
  | .error f => { status := f.exitStatus, stderr := s!"error: {f.message}\n" }

/-- What is read before anything is printed: the settings and the trees. -/
def load (reader : SettingsReader) (files : Files) (a : Arguments) :
    Except Failure (Settings × List Tree) := do
  let settings ← loadSettings reader files a.config?
  let buffers ← readFiles files a.files
  let trees ← loadAll a.guid? buffers
  return (settings, trees)

/-- The files that a run may read, none if it ends before. -/
def paths (arguments : List String) : List String :=
  match Arguments.parse arguments with
  | .error _ => []
  | .ok a => if a.help then [] else a.config?.toList ++ a.files

/-- Runs the command. Settings are JSON unless another reader is given. -/
def run (files : Files) (arguments : List String) (reader : SettingsReader := Settings.ofText?) :
    Outcome :=
  match Arguments.parse arguments with
  | .error f => { status := 2, stderr := s!"error: {f.message}\n" ++ usage }
  | .ok a =>
    if a.help then { status := 0, stdout := usage }
    else
      match load reader files a with
      | .error f => f.outcome
      | .ok (settings, trees) =>
        match a.default? with
        | some option => runDefault settings a.form? option trees
        | none => runMenu settings a.json trees

end SetupForms.Command
