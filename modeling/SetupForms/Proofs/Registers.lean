import SetupForms.Proofs.Locks

/-!
# Variables as registers

Requests alone make a store a set of registers, one for each variable. A write succeeds if its
request names a variable of the same length (`Store.exists_route_iff`). It then puts its bytes
there, unless the name is locked, and does nothing else. So whatever calls were served, in whatever
order, a request that names a variable reads the bytes that were last put there, or those that were
there at first (`Store.serve_register`).

A register machine has reads and writes and nothing else. That a store is one is not obvious here,
because a request may be malformed, may name no variable, or may bring data of another length.
`Call.put?` says what a call puts into a name, judged by the store in front of it, and everything
else is proved against it.
-/

namespace SetupForms

variable {s t : Store} {name : String}

namespace Request

/-- A call that serves a request. -/
inductive Call where
  /-- read the variable of a request -/
  | extract (request : String)
  /-- write the variable of a request -/
  | route (request : String) (data : List UInt8)

namespace Call

/-- The operation that a call is. -/
def operation : Call → Store.Operation
  | extract request => .extract request
  | route request data => .route request data

/-- The bytes that a call puts into the variable of a name: those of a write that is about the name,
is done, and finds the name unlocked. -/
def put? (s : Store) (name : String) : Call → Option (List UInt8)
  | extract _ => none
  | route request data =>
    if variableName request = .ok name ∧ (s.route request data).isOk ∧ s.isLocked name = false then
      some data
    else none

end Call

end Request

namespace Store

open Request

/-- The store behind calls one after the other. -/
def serve (s : Store) (calls : List Call) : Store := s.run (calls.map Call.operation)

/-- The bytes that calls have last put into the variable of a name. -/
def lastPut? (s : Store) (name : String) : List Call → Option (List UInt8)
  | [] => none
  | c :: cs => (lastPut? (s.operate c.operation).2 name cs).or (c.put? s name)

/-! ## One call

A call is looked at through the variable of one name: it puts something there, or leaves it as it
is.
-/

/-- A write is done if there is a store behind it. -/
theorem done_written_iff {result : Except Fault Store} :
    (s.written result).1 = .done (.ok ()) ↔ ∃ t, result = .ok t := by
  cases result with
  | ok t => exact ⟨fun _ => ⟨t, rfl⟩, fun _ => rfl⟩
  | error f =>
    refine ⟨fun h => ?_, ?_⟩
    · cases h
    · rintro ⟨t, h⟩
      cases h

/-- A write whose request names a variable of the same length puts its bytes there, if the name is
not locked. -/
theorem route_of_named {request : String} {data : List UInt8} {v : Variable}
    (hname : variableName request = .ok name) (hv : s.get? name = some v)
    (hlen : v.data.length = data.length) :
    s.route request data = if s.isLocked name then .ok s else s.set name v.attributes data := by
  have hget : s.get name = .ok v := get_eq_ok_iff.mpr hv
  rw [route, hname]
  show (s.get name >>= _) = _
  rw [hget]
  show (if v.data.length = data.length then _ else _) = _
  rw [if_pos hlen]
  cases hl : s.isLocked name with
  | true =>
    rw [set, if_pos hl]
    rfl
  | false =>
    rw [set, if_neg (Bool.eq_false_iff.mp hl)]
    rfl

/-- A write is done if and only if its request names a variable that is as long as the bytes. -/
theorem exists_route_iff {request : String} {data : List UInt8} :
    (∃ t, s.route request data = .ok t) ↔
      ∃ name v, variableName request = .ok name ∧ s.get? name = some v ∧
        v.data.length = data.length := by
  constructor
  · rintro ⟨t, h⟩
    obtain ⟨name, v, hname, hv, hlen, -⟩ := route_eq_ok h
    exact ⟨name, v, hname, hv, hlen⟩
  · rintro ⟨name, v, hname, hv, hlen⟩
    rw [route_of_named hname hv hlen]
    cases hl : s.isLocked name with
    | true => exact ⟨s, rfl⟩
    | false => exact ⟨_, set_eq_ok_iff.mpr ⟨hl, rfl⟩⟩

/-- A write that is done to an unlocked variable changes its bytes and nothing else. -/
theorem route_of_unlocked {request : String} {data : List UInt8}
    (hname : variableName request = .ok name) (h : s.route request data = .ok t)
    (hl : s.isLocked name = false) :
    ∃ v, s.get? name = some v ∧ t.locked = s.locked ∧
      ∀ other, t.get? other = if name = other then some ⟨data, v.attributes⟩ else s.get? other := by
  obtain ⟨n, v, hn, hv, -, hcase⟩ := route_eq_ok h
  obtain rfl := Except.ok.inj (hn.symm.trans hname)
  have hset := hcase.resolve_left fun hlocked => by cases hl.symm.trans hlocked.1
  refine ⟨v, hv, ?_, get?_set hset⟩
  rw [(set_eq_ok_iff.mp hset).2]

/-- A write to a locked variable changes nothing, whether it is done or not. -/
theorem operate_route_of_locked {request : String} (hname : variableName request = .ok name)
    (hl : s.isLocked name = true) (data : List UInt8) :
    (s.operate (.route request data)).2 = s := by
  rw [operate]
  cases h : s.route request data with
  | error f => rfl
  | ok t =>
    obtain ⟨n, v, hn, -, -, ⟨-, rfl⟩ | hset⟩ := route_eq_ok h
    · rfl
    · obtain rfl := Except.ok.inj (hn.symm.trans hname)
      cases (set_eq_ok_iff.mp hset).1.symm.trans hl

/-- Where nothing is put, a variable is left as it is. -/
theorem map_of_put?_eq_none {c : Call} (h : c.put? s name = none) :
    ((s.get? name).map fun v => ⟨(c.put? s name).getD v.data, v.attributes⟩) = s.get? name := by
  rw [h]
  exact Option.map_id'

/-- A call leaves in a variable what it has put there, or else what was there. -/
theorem get?_operate (s : Store) (name : String) (c : Call) :
    (s.operate c.operation).2.get? name =
      (s.get? name).map fun v => ⟨(c.put? s name).getD v.data, v.attributes⟩ := by
  cases c with
  | extract request => exact (map_of_put?_eq_none rfl).symm
  | route request data =>
    show (s.written (s.route request data)).2.get? name = _
    cases h : s.route request data with
    | error f =>
      have hnone : (Call.route request data).put? s name = none := if_neg fun hp => by
        rw [h] at hp
        cases hp.2.1
      rw [map_of_put?_eq_none hnone]
      rfl
    | ok t =>
      -- the write was for this name, and not barred by a lock, or the variable is as it was
      by_cases hput : variableName request = .ok name ∧ s.isLocked name = false
      · obtain ⟨v, hv, -, hget⟩ := route_of_unlocked hput.1 h hput.2
        have hsome : (Call.route request data).put? s name = some data :=
          if_pos ⟨hput.1, by rw [h]; rfl, hput.2⟩
        rw [hsome, hv]
        exact (hget name).trans (if_pos rfl)
      · have hnone : (Call.route request data).put? s name = none :=
          if_neg fun hp => hput ⟨hp.1, hp.2.2⟩
        rw [map_of_put?_eq_none hnone]
        obtain ⟨n, v, hn, -, -, ⟨-, rfl⟩ | hset⟩ := route_eq_ok h
        · rfl
        · refine (get?_set hset name).trans (if_neg ?_)
          rintro rfl
          exact hput ⟨hn, (set_eq_ok_iff.mp hset).1⟩

/-! ## Sequences of calls

The last put wins. The induction is on the calls, from the front, because each is judged by the
store that those before it have left.
-/

theorem serve_cons (s : Store) (c : Call) (cs : List Call) :
    s.serve (c :: cs) = (s.operate c.operation).2.serve cs := rfl

/-- Calls leave in a variable what they have last put there, or else what was there. -/
theorem get?_serve (s : Store) (name : String) (calls : List Call) :
    (s.serve calls).get? name =
      (s.get? name).map fun v => ⟨(s.lastPut? name calls).getD v.data, v.attributes⟩ := by
  induction calls generalizing s with
  | nil => exact Option.map_id'.symm
  | cons c cs ih =>
    rw [serve_cons, ih, get?_operate, Option.map_map]
    simp only [lastPut?, Option.getD_or, Function.comp_def]

/-- **Requests see registers.** Let any calls be served over any store. A write is then done if and
only if its request names a variable that is as long as the bytes. If the name is not locked, this
variable holds the bytes and keeps its attributes, and all else is as before. If it is locked, or if
the write fails, nothing changes, and nothing ever changes by reading. So a request that names a
variable reads the bytes that the calls have last put there, or those that were there at first. -/
theorem serve_register (s : Store) (calls : List Call) :
    let t := s.serve calls
    (∀ request data, (t.operate (.route request data)).1 = .done (.ok ()) ↔
      ∃ name v, variableName request = .ok name ∧ t.get? name = some v ∧
        v.data.length = data.length) ∧
    (∀ request data name, variableName request = .ok name → t.isLocked name = false →
      (t.operate (.route request data)).1 = .done (.ok ()) →
      ∃ v, t.get? name = some v ∧
        (t.operate (.route request data)).2.locked = t.locked ∧
        ∀ other, (t.operate (.route request data)).2.get? other =
          if name = other then some ⟨data, v.attributes⟩ else t.get? other) ∧
    (∀ request data name, variableName request = .ok name → t.isLocked name = true →
      (t.operate (.route request data)).2 = t) ∧
    (∀ request data, (t.operate (.route request data)).1 ≠ .done (.ok ()) →
      (t.operate (.route request data)).2 = t) ∧
    (∀ request, (t.operate (.extract request)).2 = t) ∧
    ∀ request name, variableName request = .ok name →
      t.extract request = (s.get name).map fun v => (s.lastPut? name calls).getD v.data := by
  intro t
  refine ⟨fun request data => ?_, fun request data name hname hl hdone => ?_,
    fun request data name hname hl => operate_route_of_locked hname hl data,
    fun request data hfails => ?_, fun request => rfl, fun request name hname => ?_⟩
  · exact done_written_iff.trans exists_route_iff
  · obtain ⟨u, hu⟩ := done_written_iff.mp hdone
    rw [operate, hu]
    exact route_of_unlocked hname hu hl
  · -- a write that is not done leaves no store of its own
    rw [operate] at hfails ⊢
    cases h : t.route request data with
    | ok u => exact absurd (done_written_iff.mpr ⟨u, h⟩) hfails
    | error f => rfl
  · rw [extract, hname]
    show (t.get name >>= fun v => pure v.data) = _
    rw [get, get, get?_serve]
    cases s.get? name <;> rfl

/-- Requests in either case share a register, and a write of another length is not done. -/
example :
    let s : Store := { entries := [("é", ⟨[1, 2], 3⟩)] }
    let calls : List Call := [.route "&NAME=00e9&" [7, 8], .route "&NAME=00E9&" [9]]
    (s.serve calls).extract "x&NAME=00E9&y" = .ok [7, 8] := by decide +kernel

end Store

end SetupForms
