import SetupForms.Fault

/-!
# Reports

A walk leaves a report: how many forms, options and enum values it called back successfully, how
many records it skipped, and a diagnostic for each skipped record in walk order. Reports of
successive parts are joined by `++`.

A report is made of parts because walks are: the report of a form is that of what it holds, with one
entry more. Counts are sums and diagnostics rows, so that `++` is associative and the empty report
does nothing.
-/

namespace SetupForms

/-- How bad a diagnostic is. -/
inductive Severity where
  /-- a record of no known kind was skipped -/
  | warning
  /-- a record was rejected -/
  | error
  deriving DecidableEq

/-- The word for a severity. -/
def Severity.noun : Severity → String
  | warning => "warning"
  | error => "error"

/-- One record that was skipped, and why. -/
structure Diagnostic where
  /-- the index of the tree in the walk -/
  tree : Nat
  /-- where the record starts -/
  offset : Nat
  /-- the tag of the record, 0 if it could not be read -/
  tag : UInt32
  /-- how bad it is -/
  severity : Severity
  /-- the cause -/
  fault : Fault
  deriving DecidableEq

/-- The outcome of a walk. -/
structure Report where
  /-- forms entered -/
  forms : Nat := 0
  /-- options called back -/
  options : Nat := 0
  /-- enum values called back -/
  enumValues : Nat := 0
  /-- records skipped for any reason -/
  skipped : Nat := 0
  /-- a diagnostic for each skipped record -/
  diagnostics : List Diagnostic := []
  deriving DecidableEq

namespace Report

/-- The report of two parts, one after the other. -/
def append (a b : Report) : Report where
  forms := a.forms + b.forms
  options := a.options + b.options
  enumValues := a.enumValues + b.enumValues
  skipped := a.skipped + b.skipped
  diagnostics := a.diagnostics ++ b.diagnostics

instance : Append Report := ⟨append⟩

/-- The report of one skipped record. -/
def skip (d : Diagnostic) : Report where
  skipped := 1
  diagnostics := [d]

/-- Whether nothing was skipped. -/
def isClean (r : Report) : Bool := r.diagnostics.isEmpty

/-- How many diagnostics have a given severity. -/
def count (r : Report) (s : Severity) : Nat := (r.diagnostics.filter (·.severity = s)).length

@[simp] theorem forms_append (a b : Report) : (a ++ b).forms = a.forms + b.forms := rfl

@[simp] theorem options_append (a b : Report) : (a ++ b).options = a.options + b.options := rfl

@[simp] theorem enumValues_append (a b : Report) :
    (a ++ b).enumValues = a.enumValues + b.enumValues := rfl

@[simp] theorem skipped_append (a b : Report) : (a ++ b).skipped = a.skipped + b.skipped := rfl

@[simp] theorem diagnostics_append (a b : Report) :
    (a ++ b).diagnostics = a.diagnostics ++ b.diagnostics := rfl

@[simp] theorem nil_append (a : Report) : ({} : Report) ++ a = a := by
  show append {} a = a
  simp [append]

@[simp] theorem append_nil (a : Report) : a ++ ({} : Report) = a := by
  show append a {} = a
  simp [append]

theorem append_assoc (a b c : Report) : a ++ b ++ c = a ++ (b ++ c) := by
  show append (append a b) c = append a (append b c)
  simp [append, Nat.add_assoc]

end Report

end SetupForms
