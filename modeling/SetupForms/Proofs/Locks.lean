import SetupForms.Proofs.Rebuild

/-!
# Locks are permanent

A store is used in many ways: its variables are set, read and locked, requests are served, and menus
are built over it. Whatever is done, a name that is locked stays locked and its variable stays as it
is, present or absent, and no variable is ever lost. `Store.Keeps` says so of two stores,
`Store.keeps_operate` of one operation, and `Store.run_keeps_locked` of whole sessions, with the
only operations that may change a variable at all.

Nothing is assumed about the operations of a session or about what came before. The statement for a
session is the statement for two stores, which is transitive, so that only single operations have to
be looked at, and of these a build is the only one that is not a single step of the store.
-/

namespace SetupForms

open Menu

variable {s t u : Store} {name : String}

namespace Store

/-! ## Operations

An operation is whatever can be asked of a store from outside. Those that only read are among them:
they say something about the store, and they leave it as it is.
-/

/-- One use of a store. A clone shares the variables and locks of its store, so what is done through
it is done to the same store. -/
inductive Operation where
  /-- create or replace a variable -/
  | set (name : String) (attributes : UInt32) (data : List UInt8)
  /-- read a variable -/
  | get (name : String)
  /-- read the bytes of a variable of a known length -/
  | getExact (name : String) (length : Nat)
  /-- ask for the size of a variable -/
  | size (name : String)
  /-- lock a name -/
  | lock (name : String)
  /-- read the variable of a request -/
  | extract (request : String)
  /-- write the variable of a request -/
  | route (request : String) (data : List UInt8)
  /-- build a menu -/
  | build (settings : Menu.Settings) (limits : Limits) (policy : Policy) (trees : List Tree)

/-- What an operation answers. -/
inductive Answer where
  /-- whether a write or lock was done -/
  | done (result : Except Fault Unit)
  /-- a variable -/
  | variable (result : Except Fault Variable)
  /-- the bytes of a variable -/
  | bytes (result : Except Fault (List UInt8))
  /-- the size of a variable, if there is one -/
  | size (size : Option Nat)
  /-- the menu that was built -/
  | menu (menu : Menu)

/-- The answer to a write, and the store behind it. A write that fails leaves the store as it is. -/
def written (s : Store) : Except Fault Store → Answer × Store
  | .ok t => (.done (.ok ()), t)
  | .error f => (.done (.error f), s)

/-- The answer to an operation, and the store behind it. -/
def operate (s : Store) : Operation → Answer × Store
  | .set name attributes data => s.written (s.set name attributes data)
  | .get name => (.variable (s.get name), s)
  | .getExact name length => (.bytes (s.getExact name length), s)
  | .size name => (.size (s.size? name), s)
  | .lock name => (.done (.ok ()), s.lock name)
  | .extract request => (.bytes (s.extract request), s)
  | .route request data => s.written (s.route request data)
  | .build settings limits policy trees =>
    let (menu, t) := Menu.build settings limits policy trees s
    (.menu menu, t)

/-- The store behind operations one after the other. -/
def run (s : Store) (ops : List Operation) : Store := ops.foldl (fun s op => (s.operate op).2) s

/-- An operation that is meant to write the variable of a name. -/
def Operation.Writes (name : String) : Operation → Prop
  | set n .. => n = name
  | route request _ => Request.variableName request = .ok name
  | get _ | getExact .. | size _ | lock _ | extract _ | build .. => False

theorem run_append (s : Store) (before later : List Operation) :
    s.run (before ++ later) = (s.run before).run later := List.foldl_append

/-! ## What is kept

Names that are locked, variables under locked names, and the existence of variables are kept by
every step. A build is many such steps; here what `Provision` says of a whole build is used instead,
which is that it creates exactly the variables of the candidates it takes.
-/

/-- What a later store has kept of an earlier one. -/
structure Keeps (s t : Store) : Prop where
  /-- locked names are locked -/
  isLocked : ∀ name, s.isLocked name = true → t.isLocked name = true
  /-- their variables are as they were, or still absent -/
  get?_eq : ∀ name, s.isLocked name = true → t.get? name = s.get? name
  /-- what exists is not lost -/
  present : ∀ name, s.get? name ≠ none → t.get? name ≠ none

namespace Keeps

theorem refl (s : Store) : Keeps s s := ⟨fun _ => id, fun _ _ => rfl, fun _ => id⟩

theorem trans (h : Keeps s t) (h' : Keeps t u) : Keeps s u where
  isLocked name hl := h'.isLocked name (h.isLocked name hl)
  get?_eq name hl := (h'.get?_eq name (h.isLocked name hl)).trans (h.get?_eq name hl)
  present name hs := h'.present name (h.present name hs)

end Keeps

/-- Locking keeps everything and adds a lock. -/
theorem keeps_lock (s : Store) (name : String) : Keeps s (s.lock name) where
  isLocked other hl := by rw [isLocked_lock, hl, Bool.or_true]
  get?_eq other _ := get?_lock ..
  present other hs := by rwa [get?_lock]

/-- A write that succeeds is to a name that is not locked. -/
theorem keeps_set {attributes : UInt32} {data : List UInt8}
    (h : s.set name attributes data = .ok t) : Keeps s t where
  isLocked other hl := (isLocked_set h other).trans hl
  get?_eq other hl := by
    rw [get?_set h]
    refine if_neg ?_
    rintro rfl
    cases (set_eq_ok_iff.mp h).1.symm.trans hl
  present other hs := by
    rw [get?_set h]
    split
    · exact nofun
    · exact hs

/-- A request that is served keeps everything that is locked. -/
theorem keeps_route {request : String} {data : List UInt8} (h : s.route request data = .ok t) :
    Keeps s t := by
  obtain ⟨n, v, -, -, -, ⟨-, rfl⟩ | hset⟩ := route_eq_ok h
  · exact .refl t
  · exact keeps_set hset

/-- What existed is as it was when a menu is built. -/
theorem get?_build_of_some (settings : Menu.Settings) (limits : Limits) (policy : Policy)
    (trees : List Tree) {v : Variable} (hv : s.get? name = some v) :
    (Menu.build settings limits policy trees s).2.get? name = some v := by
  rw [build_eq_lastDraft, (provides_lastDraft ..).get?_eq, provided?, hv, Option.some_or]

/-- A build creates no variable of a locked name, because such a candidate is not taken. -/
theorem keeps_build (settings : Menu.Settings) (limits : Limits) (policy : Policy)
    (trees : List Tree) (s : Store) :
    Keeps s (Menu.build settings limits policy trees s).2 := by
  have hprov := provides_lastDraft settings limits policy trees s
  rw [build_eq_lastDraft]
  refine ⟨fun name hl => (hprov.isLocked_iff name).mpr (.inl hl), fun name hl => ?_,
    fun name hs => ?_⟩
  · rw [hprov.get?_eq]
    cases hs : s.get? name with
    | some v => rw [provided?, hs, Option.some_or]
    | none =>
      refine provided?_eq_none_iff.mpr ⟨hs, ?_⟩
      -- the candidate of a locked name without a variable is barred
      rintro c hc rfl
      have hbars := hprov.unbarred c hc
      rw [bars, hs, hl] at hbars
      cases hbars
  · rw [hprov.get?_eq]
    exact fun hnone => hs (provided?_eq_none_iff.mp hnone).1

/-- A write that fails leaves the store as it is. -/
theorem keeps_written {result : Except Fault Store} (h : ∀ t, result = .ok t → Keeps s t) :
    Keeps s (s.written result).2 := by
  cases result with
  | ok t => exact h t rfl
  | error f => exact .refl s

/-! ## Sessions

A session is a run of operations, and by induction along the run everything that one operation keeps
is kept. What an operation changes at all is read off its answer: the variable of a name changes
only where the operation is a write to the name, and one that succeeds.
-/

/-- Every operation keeps what is locked and what exists. -/
theorem keeps_operate (s : Store) (op : Operation) : Keeps s (s.operate op).2 := by
  cases op with
  | set name attributes data => exact keeps_written fun _ => keeps_set
  | lock name => exact keeps_lock s name
  | route request data => exact keeps_written fun _ => keeps_route
  | build settings limits policy trees => exact keeps_build settings limits policy trees s
  | get name | getExact name length | size name | extract request => exact .refl s

/-- Whole sessions keep what is locked. -/
theorem keeps_run (s : Store) (ops : List Operation) : Keeps s (s.run ops) := by
  induction ops generalizing s with
  | nil => exact .refl s
  | cons op ops ih => exact (keeps_operate s op).trans (ih _)

/-- A write that fails changes nothing. -/
theorem written_eq_of_ne {result : Except Fault Store}
    (hne : (s.written result).2.get? name ≠ s.get? name) :
    ∃ t, result = .ok t ∧ s.written result = (.done (.ok ()), t) := by
  cases result with
  | ok t => exact ⟨t, rfl, rfl⟩
  | error f => exact absurd rfl hne

/-- The variable of a name is changed by a write to that very name alone. -/
theorem writes_of_changed {v : Variable} (op : Operation) (hv : s.get? name = some v)
    (hne : (s.operate op).2.get? name ≠ some v) :
    op.Writes name ∧ (s.operate op).1 = .done (.ok ()) := by
  cases op with
  | set n attributes data =>
    obtain ⟨t, ht, hw⟩ := written_eq_of_ne (hv ▸ hne)
    have hn : n = name := Decidable.by_contra fun hn => hne (by
      rw [operate, hw, get?_set ht, if_neg hn, hv])
    exact ⟨hn, congrArg Prod.fst hw⟩
  | route request data =>
    obtain ⟨t, ht, hw⟩ := written_eq_of_ne (hv ▸ hne)
    refine ⟨?_, congrArg Prod.fst hw⟩
    obtain ⟨n, u, hname, -, -, ⟨-, rfl⟩ | hset⟩ := route_eq_ok ht
    · rw [operate, hw] at hne
      exact absurd hv hne
    · have hn : n = name := Decidable.by_contra fun hn => hne (by
        rw [operate, hw, get?_set hset, if_neg hn, hv])
      exact hname.trans (congrArg _ hn)
  | lock n => exact absurd ((get?_lock ..).trans hv) hne
  | build settings limits policy trees =>
    exact absurd (get?_build_of_some settings limits policy trees hv) hne
  | get n | getExact n length | size n | extract request => exact absurd hv hne

/-- **Locks are permanent.** Let a session go on in whatever way. A name that is locked at some
point is locked ever after, and whether it has a variable, and which, does not change any more. No
variable is ever lost. An operation that changes a variable is a successful write to its very name,
which is not locked. -/
theorem run_keeps_locked (s : Store) (before later : List Operation) (name : String) :
    let t := s.run before
    let u := s.run (before ++ later)
    (t.isLocked name = true → u.isLocked name = true ∧ u.get? name = t.get? name) ∧
      (t.get? name ≠ none → u.get? name ≠ none) ∧
      ∀ op v, t.get? name = some v → (t.operate op).2.get? name ≠ some v →
        op.Writes name ∧ (t.operate op).1 = .done (.ok ()) ∧ t.isLocked name = false := by
  intro t u
  have hkeeps : Keeps t u := by
    show Keeps t (s.run (before ++ later))
    rw [run_append]
    exact keeps_run t later
  refine ⟨fun hl => ⟨hkeeps.isLocked name hl, hkeeps.get?_eq name hl⟩, hkeeps.present name,
    fun op v hv hne => ?_⟩
  obtain ⟨hwrites, hdone⟩ := writes_of_changed op hv hne
  refine ⟨hwrites, hdone, Bool.eq_false_iff.mpr fun hl => hne ?_⟩
  rw [(keeps_operate t op).get?_eq name hl, hv]

end Store

end SetupForms
