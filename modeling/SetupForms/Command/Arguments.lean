import SetupForms.Guid

/-!
# Command-line arguments

`Arguments.parse` reads the arguments of the command. A value flag takes its value from the text
behind `=` or from the next argument, and may be given once; what does not start with a hyphen is
a file. Each way to go wrong is a `UsageFault`.

Arguments are read from left to right into one record, and only what they ask for together is
checked at the end. Help is asked for by a flag like any other, so that faults in front of it and
behind it count, but it spares the final checks.
-/

namespace SetupForms.Command

/-- A flag that takes a value. -/
inductive ValueFlag where
  | config
  | form
  | default
  | guid
  deriving DecidableEq

/-- The spelling of a value flag. -/
def ValueFlag.text : ValueFlag → String
  | config => "--config"
  | form => "--form"
  | default => "--default"
  | guid => "--hob-guid"

/-- How the arguments can be wrong. -/
inductive UsageFault where
  /-- a value flag is the last argument -/
  | missingValue (flag : ValueFlag)
  /-- a value flag is given again -/
  | repeated (flag : ValueFlag)
  /-- a value is no GUID -/
  | invalidGuid (text : String)
  /-- an argument with a hyphen is no flag -/
  | unknownOption (argument : String)
  /-- no file is given -/
  | noFile
  /-- a form is given without an option to look up -/
  | formWithoutDefault
  /-- a lookup has no JSON form -/
  | jsonWithDefault
  deriving DecidableEq

/-- The wording of a usage fault. -/
def UsageFault.message : UsageFault → String
  | missingValue flag => s!"missing argument for `{flag.text}`"
  | repeated flag => s!"`{flag.text}` may only be provided once"
  | invalidGuid text => s!"invalid GUID for `--hob-guid`: `{text}`"
  | unknownOption argument => s!"unknown option `{argument}`"
  | noFile => "expected at least one FILE"
  | formWithoutDefault => "`--form` requires `--default`"
  | jsonWithDefault => "`--json` cannot be combined with `--default`"

/-- What the arguments ask for. -/
structure Arguments where
  /-- the files in their order -/
  files : List String := []
  /-- the settings file -/
  config? : Option String := none
  /-- the GUID under which files are scanned as hand-off lists -/
  guid? : Option Guid := none
  /-- whether the menu is printed as JSON -/
  json : Bool := false
  /-- the name of the trees that are searched -/
  form? : Option String := none
  /-- the option that is looked up -/
  default? : Option String := none
  /-- whether help is asked for -/
  help : Bool := false
  deriving DecidableEq

/-- What one argument is. -/
inductive Argument where
  /-- a request for help -/
  | help
  /-- a request for JSON -/
  | json
  /-- a value flag, with its value if that stands behind `=` -/
  | value (flag : ValueFlag) (inline? : Option String)
  /-- no flag, though it starts with a hyphen -/
  | unknown
  /-- a file -/
  | file
  deriving DecidableEq

/-- An argument cut at its first `=`, if it is a long flag with one. -/
def splitInline (argument : List Char) : List Char × Option (List Char) :=
  let flag := argument.takeWhile (· ≠ '=')
  if '=' ∈ argument ∧ ['-', '-'].isPrefixOf flag then
    (flag, some (argument.drop (flag.length + 1)))
  else
    (argument, none)

/-- What an argument is. Text behind the `=` of a switch is ignored. -/
def Argument.classify (argument : String) : Argument :=
  let (flag, inline?) := splitInline argument.toList
  -- only a value flag has a use for the text behind the `=`
  let value (f : ValueFlag) := Argument.value f (inline?.map String.ofList)
  if flag = "-h".toList ∨ flag = "--help".toList then .help
  else if flag = "--json".toList then .json
  else if flag = ValueFlag.config.text.toList then value .config
  else if flag = ValueFlag.form.text.toList then value .form
  else if flag = ValueFlag.default.text.toList then value .default
  else if flag = ValueFlag.guid.text.toList then value .guid
  else if argument.toList.head? = some '-' then .unknown
  else .file

namespace Arguments

/-- Whether a value flag has been given. -/
def given (a : Arguments) : ValueFlag → Bool
  | .config => a.config?.isSome
  | .form => a.form?.isSome
  | .default => a.default?.isSome
  | .guid => a.guid?.isSome

/-- The arguments with a flag's value, which must be its first. -/
def give (a : Arguments) (flag : ValueFlag) (value : String) : Except UsageFault Arguments :=
  if a.given flag then .error (.repeated flag)
  else
    match flag with
    | .config => .ok { a with config? := some value }
    | .form => .ok { a with form? := some value }
    | .default => .ok { a with default? := some value }
    | .guid =>
      match Guid.parse value with
      | .ok g => .ok { a with guid? := some g }
      | .error _ => .error (.invalidGuid value)

/-- The fault of a value flag that is the last argument. A GUID that is given again is refused for
that. -/
def missing (a : Arguments) (flag : ValueFlag) : UsageFault :=
  if flag = .guid ∧ a.given flag then .repeated flag else .missingValue flag

/-- Reads arguments one after the other. -/
def scan (a : Arguments) : List String → Except UsageFault Arguments
  | [] => .ok a
  | argument :: rest =>
    match Argument.classify argument with
    | .help => scan { a with help := true } rest
    | .json => scan { a with json := true } rest
    | .unknown => .error (.unknownOption argument)
    | .file => scan { a with files := a.files ++ [argument] } rest
    | .value flag (some value) => do scan (← a.give flag value) rest
    | .value flag none =>
      match rest with
      | [] => .error (a.missing flag)
      -- the next argument is the value, even if it looks like a flag
      | value :: rest => do scan (← a.give flag value) rest

/-- Checks what the arguments ask for together. Nothing is checked if help is asked for. -/
def check (a : Arguments) : Except UsageFault Arguments :=
  if a.help then .ok a
  else if a.files.isEmpty then .error .noFile
  else if a.form?.isSome ∧ a.default?.isNone then .error .formWithoutDefault
  else if a.json ∧ a.default?.isSome then .error .jsonWithDefault
  else .ok a

/-- Reads the arguments of the command. -/
def parse (arguments : List String) : Except UsageFault Arguments := do
  check (← scan {} arguments)

end Arguments

end SetupForms.Command
