import SetupForms.Fallible
import SetupForms.Fault

/-!
# The variable store

Named variables with attributes, kept in the order of their names, and the names that are locked. A
locked name can no longer be written, whether or not it has a variable. The view of a store is
`get?` and `isLocked`: `get?_set` and its companions say what each operation does to it.

The store knows nothing of menus. A lock is on a name and not on a variable, so that a name can be
locked before it has one, and there is no way to take a lock back.
-/

namespace SetupForms

/-- A stored value. -/
structure Variable where
  /-- the bytes -/
  data : List UInt8
  /-- the attribute word -/
  attributes : UInt32
  deriving DecidableEq

/-- A store of named variables. -/
structure Store where
  /-- the variables in the order of their names -/
  entries : List (String × Variable) := []
  /-- the locked names -/
  locked : List String := []
  deriving DecidableEq

namespace Store

/-- The variable of a name among entries. -/
def lookup (name : String) : List (String × Variable) → Option Variable
  | [] => none
  | (n, v) :: rest => if n = name then some v else lookup name rest

/-- Entries with the variable of one name put in its place. -/
def insert (name : String) (v : Variable) : List (String × Variable) → List (String × Variable)
  | [] => [(name, v)]
  | (n, u) :: rest =>
    if n = name then (name, v) :: rest
    else if name < n then (name, v) :: (n, u) :: rest
    else (n, u) :: insert name v rest

/-- The variable of a name. -/
def get? (s : Store) (name : String) : Option Variable := lookup name s.entries

/-- Whether a name is locked. -/
def isLocked (s : Store) (name : String) : Bool := s.locked.contains name

/-- The size of a variable. -/
def size? (s : Store) (name : String) : Option Nat := (s.get? name).map (·.data.length)

/-- The variable of a name, which must exist. -/
def get (s : Store) (name : String) : Except Fault Variable :=
  match s.get? name with
  | some v => .ok v
  | none => .error (.variableNotFound name)

/-- The bytes of a variable that must have a given length. -/
def getExact (s : Store) (name : String) (length : Nat) : Except Fault (List UInt8) := do
  let v ← s.get name
  if v.data.length = length then
    return v.data
  else
    throw (.storeSizeMismatch name length v.data.length)

/-- The store with a variable created or replaced, unless its name is locked. -/
def set (s : Store) (name : String) (attributes : UInt32) (data : List UInt8) :
    Except Fault Store :=
  if s.isLocked name then .error (.writeProtected name)
  else .ok { s with entries := insert name ⟨data, attributes⟩ s.entries }

/-- The store with a name locked from now on. -/
def lock (s : Store) (name : String) : Store :=
  if s.isLocked name then s else { s with locked := name :: s.locked }

/-! ## What operations do to the view

The order of the entries is for printing only. Everything that is proved about a store is proved
about its view, and each operation has one lemma for each half of it.
-/

theorem get_eq_ok_iff {s : Store} {name : String} {v : Variable} :
    s.get name = .ok v ↔ s.get? name = some v := by
  unfold get
  cases s.get? name with
  | none => exact ⟨nofun, nofun⟩
  | some u => rw [Except.ok.injEq, Option.some.injEq]

/-- Bytes of a given length are read if the variable has just that length. -/
theorem getExact_eq_ok_iff {s : Store} {name : String} {length : Nat} {bytes : List UInt8} :
    s.getExact name length = .ok bytes ↔
      ∃ v, s.get? name = some v ∧ v.data.length = length ∧ v.data = bytes := by
  rw [getExact, bind_eq_ok_iff]
  refine exists_congr fun v => ?_
  rw [get_eq_ok_iff]
  refine and_congr_right fun _ => ?_
  split
  next h => rw [and_iff_right h, pure_eq_ok_iff]
  next h => exact ⟨fun hr => absurd hr throw_ne_ok, fun hr => absurd hr.1 h⟩

theorem lookup_insert (name other : String) (v : Variable) (entries : List (String × Variable)) :
    lookup other (insert name v entries) =
      if name = other then some v else lookup other entries := by
  -- the entry is put in front of the first larger name, so the cases are those of `insert`
  induction entries with
  | nil => rfl
  | cons e rest ih =>
    obtain ⟨n, u⟩ := e
    unfold insert
    split
    next h =>
      subst h
      simp only [lookup]
      split <;> rfl
    next h =>
      split
      · rfl
      · simp only [lookup, ih]
        split
        next hn =>
          subst hn
          rw [if_neg (fun he => h he.symm)]
        · rfl

theorem set_eq_ok_iff {s t : Store} {name : String} {attributes : UInt32} {data : List UInt8} :
    s.set name attributes data = .ok t ↔
      s.isLocked name = false ∧
        t = { s with entries := insert name ⟨data, attributes⟩ s.entries } := by
  unfold set
  cases s.isLocked name with
  | true => simp
  | false =>
    simp only [Bool.false_eq_true, if_false, Except.ok.injEq, true_and]
    exact eq_comm

/-- A successful write changes the variable of its own name and no other. -/
theorem get?_set {s t : Store} {name : String} {attributes : UInt32} {data : List UInt8}
    (h : s.set name attributes data = .ok t) (other : String) :
    t.get? other = if name = other then some ⟨data, attributes⟩ else s.get? other := by
  obtain ⟨-, rfl⟩ := set_eq_ok_iff.mp h
  exact lookup_insert ..

/-- A successful write locks nothing. -/
theorem isLocked_set {s t : Store} {name : String} {attributes : UInt32} {data : List UInt8}
    (h : s.set name attributes data = .ok t) (other : String) :
    t.isLocked other = s.isLocked other := by
  obtain ⟨-, rfl⟩ := set_eq_ok_iff.mp h
  rfl

@[simp] theorem get?_lock (s : Store) (name other : String) :
    (s.lock name).get? other = s.get? other := by
  unfold lock
  split <;> rfl

/-- Locking adds one name. -/
theorem isLocked_lock (s : Store) (name other : String) :
    (s.lock name).isLocked other = (decide (name = other) || s.isLocked other) := by
  unfold lock
  split
  next h =>
    by_cases hn : name = other
    · subst hn
      simp [h]
    · simp [hn]
  next h =>
    simp only [isLocked, List.contains_cons]
    rw [Bool.beq_eq_decide_eq, decide_eq_decide.mpr eq_comm]

end Store

end SetupForms
