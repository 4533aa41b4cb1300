import SetupForms.Menu.Candidate
import SetupForms.Store.Basic
import SetupForms.Walk.Basic

/-!
# Building menus

A menu is built during a walk. Each option gets a question id from its object id, which must be new
in its tree, and a variable that holds its default unless one of that name exists; a read-only
option then locks its variable if there is a policy for it. Nested forms become subtitles. A `Draft`
is the menu so far, `Draft.step` is what the walk calls back, and `Menu.build` walks trees with it.

The order of the checks is visible from outside, because each has its own fault: the range of the
object id comes first, then the length of the name, then whether the id is new, and the variable
last. What was changed before a check fails is not undone.
-/

namespace SetupForms

namespace Menu

/-- The service that locks variables. -/
inductive Policy where
  /-- there is none -/
  | absent
  /-- it refuses every request -/
  | refusing
  /-- the store locks its own variables -/
  | store
  deriving DecidableEq

/-- What a build has made so far. -/
structure Draft where
  /-- the variables behind the menu -/
  store : Store
  /-- the question ids used in the current tree -/
  issued : List UInt16 := []
  /-- the lines of the menu -/
  elements : List Element := []
  /-- the names of the variables that were created -/
  provisioned : List String := []
  /-- variables whose size is not that of their option -/
  storageFaults : List Fault := []
  deriving DecidableEq

namespace Draft

/-- The draft with one more element. -/
def emit (d : Draft) (e : Element) : Draft := { d with elements := d.elements ++ [e] }

/-- Refuses a question id that is used in the current tree. -/
def requireNew (d : Draft) (c : Candidate) (id : UInt16) : Except Fault Unit :=
  if id ∈ d.issued then .error (.duplicateObjectId c.fields.objectId c.name) else .ok ()

/-- The id of a candidate's question. The object id must lie in range, the name must be short enough
and the id new. -/
def issue (settings : Settings) (d : Draft) (c : Candidate) : Except Fault UInt16 := do
  let id ← Candidate.questionId settings c.fields.objectId
  Candidate.requireName c.name
  requireNew d c id
  return id

/-- Creates the variable of a candidate if there is none, and notes one of another size. -/
def createVariable (d : Draft) (c : Candidate) : Except Fault Draft :=
  match d.store.size? c.name with
  | none =>
    (d.store.set c.name c.fields.flags.attributes c.stored).map fun store =>
      { d with store, provisioned := d.provisioned ++ [c.name] }
  | some size =>
    if size = c.stored.length then .ok d
    else
      .ok { d with storageFaults :=
        d.storageFaults ++ [.storeSizeMismatch c.name c.stored.length size] }

/-- Locks the variable of a read-only candidate if the policy is to do so. -/
def applyPolicy (policy : Policy) (d : Draft) (c : Candidate) : Draft :=
  if c.fields.flags.isReadOnly ∧ policy = .store then { d with store := d.store.lock c.name } else d

/-- Asks the question of a candidate and provides its variable. The id counts as used even if the
variable cannot be created. -/
def add (settings : Settings) (policy : Policy) (d : Draft) (c : Candidate) :
    Except Fault Unit × Draft :=
  match issue settings d c with
  | .error f => (.error f, d)
  | .ok id =>
    -- in use from here on, whatever becomes of the variable
    let d := { d with issued := id :: d.issued }
    match createVariable d c with
    | .error f => (.error f, d)
    | .ok d => (.ok (), (applyPolicy policy d c).emit (.question (c.question settings id) c.widget))

/-- What a walk calls back to build a menu. -/
def step (settings : Settings) (policy : Policy) : Callback Draft := fun d e =>
  match e with
  | .enter form =>
    -- the root of a tree starts with no ids in use
    let d := if form.depth = 0 then { d with issued := [] } else d
    (.ok (), d.emit (.subtitle form.name form.fields.flags.visibility))
  | .exit form =>
    (.ok (), if form.depth = 0 ∧ settings.treeSeparator then d.emit (.subtitle "" {}) else d)
  | .value .. => (.ok (), d)
  | .numeric o => add settings policy d (.ofNumeric o)
  | .text o =>
    match o.kind with
    | .comment => (.ok (), d.emit (.note o.label o.help o.fields.flags.visibility))
    | .varchar =>
      match Candidate.ofText settings o with
      | .error f => (.error f, d)
      | .ok c => add settings policy d c

end Draft

end Menu

/-- The outcome of a build. -/
structure Menu where
  /-- the lines -/
  elements : List Menu.Element
  /-- the variables created, in the order of their creation -/
  provisioned : List String
  /-- variables whose size is not that of their option -/
  storageFaults : List Fault
  /-- the report of the walk -/
  report : Report
  deriving DecidableEq

namespace Menu

/-- Whether the walk skipped nothing and every variable fits its option. -/
def isClean (m : Menu) : Bool := m.report.isClean && m.storageFaults.isEmpty

/-- The menu of a draft, with the report of the walk that made it. -/
def ofDraft (d : Draft) (report : Report) : Menu :=
  ⟨d.elements, d.provisioned, d.storageFaults, report⟩

/-- Builds the menu of trees over a store, and gives the store back. -/
def build (settings : Settings) (limits : Limits) (policy : Policy) (trees : List Tree)
    (store : Store) : Menu × Store :=
  let (report, d) := Walk.trees (Draft.step settings policy) limits 0 trees { store }
  (ofDraft d report, d.store)

end Menu

end SetupForms
