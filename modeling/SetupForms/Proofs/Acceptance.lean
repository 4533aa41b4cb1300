import SetupForms.Menu.Draft
import SetupForms.Proofs.Acts
import SetupForms.Proofs.WireField

/-!
# Which options a menu takes

An option is taken into a menu if five things hold (`Asking.Accepted`). Three are about the option
alone: its default is text, its object id is in range and its name is short. The fourth is about the
acts before it, none of which has used the object id in the same tree, and the last about the store,
which must have the variable or let it be written. `judge` checks them in this order and says why an
option is refused. It needs no state but the acts of the walk so far.

The conditions and the judgement are two accounts of one decision. `Asking` and `Asking.Accepted`
are the account a reader should check: they speak of the fields of an option, of the acts before it
and of the store, and run nothing. `judge` is the account that a simulation of the builder can be
compared with, because it goes through the same stages in the same order and keeps the fault of the
first stage that fails. `judge_eq_ok_iff` is the bridge between the two.
-/

namespace SetupForms

open Text

/-! ## Judging acts one after the other

A walk is a list of acts, of which the calls are to be judged. The verdict on a call may depend on
all acts before it, so the judgement runs along the list and carries the acts that are past.
Verdicts of a list that is put together from two are put together as well, as long as the second
part knows the first as its past.
-/

namespace Act

/-- Acts with what is judged of their events from all that was done before. -/
def judged (judge : List Act → Nat → Event → Except Fault Unit) :
    List Act → List Act → List (Act × Except Fault Unit)
  | _, [] => []
  | past, note d :: as => (note d, .ok ()) :: judged judge (past ++ [note d]) as
  | past, call tree e :: as =>
    (call tree e, judge past tree e) :: judged judge (past ++ [call tree e]) as

/-- The second part of a list is judged after the first part. -/
theorem judged_append (judge : List Act → Nat → Event → Except Fault Unit) (past as bs : List Act) :
    judged judge past (as ++ bs) = judged judge past as ++ judged judge (past ++ as) bs := by
  induction as generalizing past with
  | nil =>
    rw [List.append_nil]
    rfl
  | cons a as ih => cases a <;> simp only [List.cons_append, judged, ih, List.append_assoc,
      List.nil_append]

/-- What is judged of an event is judged from the acts before it. -/
theorem judged_eq_append {judge : List Act → Nat → Event → Except Fault Unit} {past as : List Act}
    {vs ws : List (Act × Except Fault Unit)} {tree : Nat} {e : Event} {verdict : Except Fault Unit}
    (h : judged judge past as = vs ++ (call tree e, verdict) :: ws) :
    verdict = judge (past ++ vs.map Prod.fst) tree e := by
  induction as generalizing past vs with
  | nil => cases vs <;> cases h
  | cons a as ih =>
    cases vs with
    | nil =>
      rw [List.map_nil, List.append_nil]
      cases a with
      | note d => cases (List.cons.inj h).1
      | call t e' =>
        cases (List.cons.inj h).1
        rfl
    | cons v vs =>
      rw [List.map_cons, List.append_cons]
      cases a with
      | note d =>
        cases (List.cons.inj h).1
        exact ih (List.cons.inj h).2
      | call t e' =>
        cases (List.cons.inj h).1
        exact ih (List.cons.inj h).2

end Act

/-- Whether a variable is missing and cannot be created. -/
def Store.bars (s : Store) (name : String) : Bool := (s.get? name).isNone && s.isLocked name

/-- A variable is not barred if it exists or may be created. -/
theorem Store.bars_eq_false_iff {s : Store} {name : String} :
    s.bars name = false ↔ s.get? name ≠ none ∨ s.isLocked name = false := by
  unfold bars
  cases s.get? name <;> simp

namespace Menu

variable {settings : Settings} {tree : Nat} {e : Event}

/-! ## What must hold of an option

`Asking` keeps of an option what its acceptance can depend on. The conditions come in two layers:
`Fits` is about the option alone and so never changes in the course of a walk, while `Accepted` adds
what depends on the moment, the ids that are used by then and the variables.
-/

/-- Whether an event is an option with a value. -/
def asks : Event → Bool
  | .numeric _ => true
  | .text o => o.kind = .varchar
  | .enter _ | .exit _ | .value .. => false

/-- What an option asks of a menu. -/
structure Asking where
  /-- the internal name -/
  name : String
  /-- ids and flags -/
  fields : CommonFields
  /-- the field with the default of a text option -/
  default : Option Field

namespace Asking

/-- What an event asks for. Only options with a value ask. -/
def ofEvent : Event → Option Asking
  | .numeric o => some ⟨o.name, o.fields, none⟩
  | .text o =>
    match o.kind, o.name, o.default with
    | .varchar, some name, some field => some ⟨name, o.fields, some field⟩
    | _, _, _ => none
  | .enter _ | .exit _ | .value .. => none

/-- A text line asks if it is an option with a name and a default. The decoder gives every such
option both, so the two conditions exclude no decoded option. -/
theorem ofEvent_text_eq_some_iff {o : TextOption} {q : Asking} :
    ofEvent (.text o) = some q ↔ o.kind = .varchar ∧ ∃ name field, o.name = some name ∧
      o.default = some field ∧ q = ⟨name, o.fields, some field⟩ := by
  simp only [ofEvent]
  split
  next name field hk hname hfield => simp [hk, hname, hfield, eq_comm]
  next h =>
    constructor
    · exact nofun
    · rintro ⟨hk, name, field, hname, hfield, -⟩
      exact absurd hfield (h name field hk hname)

/-- What asks for something is an option with a value. -/
theorem asks_of_ofEvent {q : Asking} (h : ofEvent e = some q) : asks e = true := by
  cases e with
  | enter | exit | value => cases h
  | numeric o => rfl
  | text o => exact decide_eq_true (ofEvent_text_eq_some_iff.mp h).1

/-- What must hold of an option alone. -/
structure Fits (settings : Settings) (q : Asking) : Prop where
  /-- a default of more than one byte is text up to its first NUL -/
  readable : ∀ field, q.default = some field →
    field.dataLength ≤ 1 ∨ ∃ s, field.textBytes = Utf8.encode s
  /-- the object id is in range -/
  inRange : settings.componentStart.toNat + q.fields.objectId.toNat < settings.componentEnd.toNat
  /-- the name is short -/
  short : (Utf8.encode q.name).length ≤ 104

/-- What must hold of an option after the acts `past`, when the variables are those of `store`. -/
structure Accepted (settings : Settings) (store : Store) (past : List Act) (tree : Nat)
    (q : Asking) : Prop extends Fits settings q where
  /-- no option before that fits has the object id in the same tree -/
  fresh : ∀ e p, .call tree e ∈ past → ofEvent e = some p → p.Fits settings →
    p.fields.objectId ≠ q.fields.objectId
  /-- the variable exists or is not locked -/
  writable : store.get? q.name ≠ none ∨ store.isLocked q.name = false

end Asking

/-! ## Judgement

The stages of the judgement are those of the builder: the candidate is made, its object id is put in
range, its name is measured, its id is compared with the ids that are used, and its variable is
looked at. The first stage that fails gives the fault.
-/

namespace Candidate

/-- A candidate with the id of its question. The object id must lie in range, and the name must be
short enough. -/
def fit (settings : Settings) (c : Candidate) : Except Fault (Candidate × UInt16) := do
  let id ← questionId settings c.fields.objectId
  requireName c.name
  return (c, id)

/-- The candidate of an event with the id of its question, or why it does not fit. Only options with
a value are candidates. -/
def ofEvent (settings : Settings) : Event → Option (Except Fault (Candidate × UInt16))
  | .numeric o => some (fit settings (.ofNumeric o))
  | .text o =>
    match o.kind with
    | .varchar => some (ofText settings o >>= fit settings)
    | .comment => none
  | .enter _ | .exit _ | .value .. => none

/-- The candidate of an event with the id of its question, if it fits. -/
def fitting? (settings : Settings) (e : Event) : Option (Candidate × UInt16) :=
  (ofEvent settings e).bind Except.toOption

end Candidate

/-- The object id that an act uses in a tree, if it calls back with an option that fits. -/
def used? (settings : Settings) (tree : Nat) : Act → Option UInt64
  | .call t e =>
    if t = tree then (Candidate.fitting? settings e).map (·.1.fields.objectId) else none
  | .note _ => none

/-- The object ids that options have used in a tree. -/
def usedIds (settings : Settings) (past : List Act) (tree : Nat) : List UInt64 :=
  past.filterMap (used? settings tree)

/-- Refuses an object id that is used in the tree. -/
def requireFresh (settings : Settings) (past : List Act) (tree : Nat) (c : Candidate) :
    Except Fault Unit :=
  if c.fields.objectId ∈ usedIds settings past tree then
    .error (.duplicateObjectId c.fields.objectId c.name)
  else
    .ok ()

/-- Refuses a variable that is missing and cannot be created. -/
def requireWritable (store : Store) (c : Candidate) : Except Fault Unit :=
  if store.bars c.name then .error (.writeProtected c.name) else .ok ()

/-- Whether a menu takes an event after the acts `past`, or why it does not. -/
def judge (settings : Settings) (store : Store) (past : List Act) (tree : Nat) (e : Event) :
    Except Fault Unit :=
  match Candidate.ofEvent settings e with
  | none => .ok ()
  | some fitted => do
    let (c, _) ← fitted
    requireFresh settings past tree c
    requireWritable store c

/-- What a menu shows of an act that it takes. -/
def shown (settings : Settings) : Act → List Element
  | .note _ => []
  | .call _ e =>
    match e with
    | .enter form => [.subtitle form.name form.fields.flags.visibility]
    | .exit form => if form.depth = 0 ∧ settings.treeSeparator then [.subtitle "" {}] else []
    | .value .. => []
    | .numeric _ => ((Candidate.fitting? settings e).map question).toList
    | .text o =>
      match o.kind with
      | .comment => [.note o.label o.help o.fields.flags.visibility]
      | .varchar => ((Candidate.fitting? settings e).map question).toList
where
  /-- The element of a candidate. -/
  question : Candidate × UInt16 → Element
    | (c, id) => .question (c.question settings id) c.widget

/-- The candidate that an act with its verdict brings into the menu. -/
def taken? (settings : Settings) : Act × Except Fault Unit → Option Candidate
  | (.call _ e, .ok ()) => (Candidate.fitting? settings e).map Prod.fst
  | (.call _ _, .error _) | (.note _, _) => none

/-- The candidates that are taken, in the order of the acts. -/
def takenIn (settings : Settings) (vs : List (Act × Except Fault Unit)) : List Candidate :=
  vs.filterMap (taken? settings)

/-- The lines that are shown of acts with their verdicts. Nothing is shown of what is refused. -/
def shownIn (settings : Settings) (vs : List (Act × Except Fault Unit)) : List Element :=
  vs.flatMap fun
    | (a, .ok ()) => shown settings a
    | (_, .error _) => []

/-! ## Judgement decides

Each stage succeeds under one of the conditions, so that the chain of stages succeeds under all of
them. The only detour is the object id: the judgement looks for it among the ids of fitting
candidates (`usedIds`), the condition among the acts that fit, and a fitting candidate is just that
(`asking_of_fitting`, `exists_fitting`).
-/

namespace Candidate

variable {c : Candidate} {id : UInt16}

/-- An object id has a question id if it lies in the range of the menu, and then it is the start of
the range plus the object id. -/
theorem questionId_eq_ok_iff {objectId : UInt64} :
    questionId settings objectId = .ok id ↔
      settings.componentStart.toNat + objectId.toNat < settings.componentEnd.toNat ∧
        id = UInt16.ofNat (settings.componentStart.toNat + objectId.toNat) := by
  simp only [questionId]
  split
  next h => rw [Except.ok.injEq, and_iff_right h, eq_comm]
  next h => exact ⟨nofun, fun hid => absurd hid.1 h⟩

/-- Object ids in range have question ids of their own. -/
theorem questionId_injective {a b : UInt64} (ha : questionId settings a = .ok id)
    (hb : questionId settings b = .ok id) : a = b := by
  obtain ⟨hlt, rfl⟩ := questionId_eq_ok_iff.mp ha
  obtain ⟨hlt', heq⟩ := questionId_eq_ok_iff.mp hb
  -- both sums lie below the end of the range, which is a 16-bit number, so neither of them wraps
  have hend := settings.componentEnd.toNat_lt
  have hnat := congrArg UInt16.toNat heq
  rw [UInt16.toNat_ofNat_of_lt' (Nat.lt_trans hlt hend),
    UInt16.toNat_ofNat_of_lt' (Nat.lt_trans hlt' hend)] at hnat
  exact UInt64.toNat_inj.mp (Nat.add_left_cancel hnat)

/-- A name is short enough if it leaves room for the fixed part of a variable store. -/
theorem requireName_eq_ok_iff {name : String} :
    requireName name = .ok () ↔ (Utf8.encode name).length ≤ 104 := by
  have hmax : varStoreMaxLength < varStoreFixedLength + (Utf8.encode name).length ↔
      ¬(Utf8.encode name).length ≤ 104 := by
    simp only [varStoreMaxLength, varStoreFixedLength]
    omega
  simp only [requireName, hmax]
  split
  next h => exact ⟨nofun, fun hle => absurd hle h⟩
  next h => exact ⟨fun _ => Decidable.not_not.mp h, fun _ => rfl⟩

/-- A candidate fits if its object id has a question id and its name is short. It is not changed. -/
theorem fit_eq_ok_iff {r : Candidate × UInt16} :
    fit settings c = .ok r ↔
      questionId settings c.fields.objectId = .ok r.2 ∧ (Utf8.encode c.name).length ≤ 104 ∧
        r.1 = c := by
  rw [fit, bind_eq_ok_iff]
  constructor
  · rintro ⟨id, hid, h⟩
    obtain ⟨hname, h⟩ := guard_eq_ok_iff.mp h
    obtain rfl := pure_eq_ok_iff.mp h
    exact ⟨hid, requireName_eq_ok_iff.mp hname, rfl⟩
  · rintro ⟨hid, hlen, rfl⟩
    exact ⟨r.2, hid, guard_eq_ok_iff.mpr ⟨requireName_eq_ok_iff.mpr hlen, rfl⟩⟩

/-- A default is at most a byte long, or it must be text. -/
theorem exists_textDefault_iff (settings : Settings) (field : Field) :
    (∃ r, textDefault settings field = .ok r) ↔
      field.dataLength ≤ 1 ∨ ∃ s, field.textBytes = Utf8.encode s := by
  unfold textDefault
  split
  next h => exact ⟨fun _ => .inl h, fun _ => ⟨_, rfl⟩⟩
  next h =>
    simp only [map_eq_ok_iff, Field.text_eq_ok_iff, h, false_or]
    exact ⟨fun ⟨_, s, hs, _⟩ => ⟨s, hs⟩, fun ⟨s, hs⟩ => ⟨_, s, hs, rfl⟩⟩

/-- A text option is a candidate if it has a name and a default that can be read. The candidate
stores the default and asks for it, with room for all of the variable but a terminator. -/
theorem ofText_eq_ok {o : TextOption} (h : ofText settings o = .ok c) :
    ∃ name field s units, o.name = some name ∧ o.default = some field ∧
      textDefault settings field = .ok (s, units) ∧
      c = ⟨name, o.fields, o.label, o.help, storedText s units, .text s 0 (units - 1)⟩ := by
  unfold ofText at h
  split at h
  next name field hname hfield =>
    obtain ⟨⟨s, units⟩, htext, rfl⟩ := map_eq_ok_iff.mp h
    exact ⟨name, field, s, units, hname, hfield, htext, rfl⟩
  next => cases h

/-- An event has a fitting candidate if it has a candidate and nothing refuses it. -/
theorem fitting?_eq_some_iff {r : Candidate × UInt16} :
    fitting? settings e = some r ↔ ofEvent settings e = some (.ok r) := by
  unfold fitting?
  cases ofEvent settings e with
  | none => simp
  | some x => simp [toOption_eq_some_iff]

/-- A fitting candidate comes from a number or from a text. -/
theorem exists_of_fitting {r : Candidate × UInt16} (h : fitting? settings e = some r) :
    (∃ o, e = .numeric o ∧ fit settings (.ofNumeric o) = .ok r) ∨
      ∃ o c, e = .text o ∧ o.kind = .varchar ∧ ofText settings o = .ok c ∧
        fit settings c = .ok r := by
  rw [fitting?_eq_some_iff] at h
  cases e with
  | enter | exit | value => cases h
  | numeric o => exact .inl ⟨o, rfl, Option.some.inj h⟩
  | text o =>
    cases hk : o.kind with
    | comment =>
      rw [ofEvent, hk] at h
      cases h
    | varchar =>
      rw [ofEvent, hk] at h
      obtain ⟨c, hc, hfit⟩ := bind_eq_ok_iff.mp (Option.some.inj h)
      exact .inr ⟨o, c, rfl, hk, hc, hfit⟩

/-- A fitting candidate asks, fits and has its own question id. -/
theorem asking_of_fitting (h : fitting? settings e = some (c, id)) :
    ∃ q, Asking.ofEvent e = some q ∧ q.Fits settings ∧ c.name = q.name ∧ c.fields = q.fields ∧
      questionId settings c.fields.objectId = .ok id := by
  rcases exists_of_fitting h with ⟨o, rfl, hfit⟩ | ⟨o, c', rfl, hk, hc, hfit⟩
  · obtain ⟨hid, hlen, rfl⟩ := fit_eq_ok_iff.mp hfit
    exact ⟨_, rfl, ⟨nofun, (questionId_eq_ok_iff.mp hid).1, hlen⟩, rfl, rfl, hid⟩
  · obtain ⟨hid, hlen, rfl⟩ := fit_eq_ok_iff.mp hfit
    obtain ⟨name, field, s, units, hname, hfield, htext, rfl⟩ := ofText_eq_ok hc
    refine ⟨⟨name, o.fields, some field⟩,
      Asking.ofEvent_text_eq_some_iff.mpr ⟨hk, name, field, hname, hfield, rfl⟩,
      ⟨?_, (questionId_eq_ok_iff.mp hid).1, hlen⟩, rfl, rfl, hid⟩
    rintro _ ⟨⟩
    exact (exists_textDefault_iff settings field).mp ⟨_, htext⟩

/-- The question id of a fitting candidate is that of its object id. -/
theorem questionId_of_ofEvent (h : ofEvent settings e = some (.ok (c, id))) :
    questionId settings c.fields.objectId = .ok id :=
  let ⟨_, _, _, _, _, hid⟩ := asking_of_fitting (fitting?_eq_some_iff.mpr h)
  hid

/-- What asks and fits is a fitting candidate. -/
theorem exists_fitting {q : Asking} (hq : Asking.ofEvent e = some q) (hfits : q.Fits settings) :
    ∃ r, fitting? settings e = some r := by
  obtain ⟨id, hid⟩ : ∃ id, questionId settings q.fields.objectId = .ok id :=
    ⟨_, questionId_eq_ok_iff.mpr ⟨hfits.inRange, rfl⟩⟩
  cases e with
  | enter | exit | value => cases hq
  | numeric o =>
    cases hq
    have hfit := (fit_eq_ok_iff (r := (.ofNumeric o, id))).mpr ⟨hid, hfits.short, rfl⟩
    exact ⟨_, fitting?_eq_some_iff.mpr (congrArg some hfit)⟩
  | text o =>
    obtain ⟨hk, name, field, hname, hfield, rfl⟩ := Asking.ofEvent_text_eq_some_iff.mp hq
    obtain ⟨r, hr⟩ := (exists_textDefault_iff settings field).mpr (hfits.readable field rfl)
    obtain ⟨c, hc, hcname, hcfields⟩ :
        ∃ c, ofText settings o = .ok c ∧ c.name = name ∧ c.fields = o.fields := by
      rw [ofText, hname, hfield]
      exact ⟨_, map_eq_ok_iff.mpr ⟨r, hr, rfl⟩, rfl, rfl⟩
    have hfit := (fit_eq_ok_iff (r := (c, id))).mpr ⟨hcfields ▸ hid, hcname ▸ hfits.short, rfl⟩
    refine ⟨(c, id), fitting?_eq_some_iff.mpr ?_⟩
    rw [ofEvent, hk]
    exact congrArg some (bind_eq_ok_iff.mpr ⟨c, hc, hfit⟩)

/-- Options with a value are tried, and no other events. -/
theorem ofEvent_eq_none_iff : ofEvent settings e = none ↔ asks e = false := by
  cases e with
  | enter | exit | value => exact ⟨fun _ => rfl, fun _ => rfl⟩
  | numeric o => exact ⟨nofun, nofun⟩
  | text o => cases hk : o.kind <;> simp [ofEvent, asks, hk]

end Candidate

/-- A fitting candidate is shown as its question. -/
theorem shown_of_fitting {r : Candidate × UInt16} (h : Candidate.fitting? settings e = some r) :
    shown settings (.call tree e) = [.question (r.1.question settings r.2) r.1.widget] := by
  rcases Candidate.exists_of_fitting h with ⟨o, rfl, -⟩ | ⟨o, c, rfl, hk, -, -⟩
  · simp only [shown, h]
    rfl
  · simp only [shown, hk, h]
    rfl

/-- What is taken is the fitting candidate of one of the acts. -/
theorem exists_of_mem_takenIn {vs : List (Act × Except Fault Unit)} {c : Candidate}
    (h : c ∈ takenIn settings vs) :
    ∃ tree e id, .call tree e ∈ vs.map Prod.fst ∧ Candidate.fitting? settings e = some (c, id) := by
  obtain ⟨⟨a, v⟩, hmem, hc⟩ := List.mem_filterMap.mp h
  cases a with
  | note d => cases hc
  | call tree e =>
    cases v with
    | error f => cases hc
    | ok u =>
      obtain ⟨⟨c', id⟩, hfit, rfl⟩ := Option.map_eq_some_iff.mp hc
      exact ⟨tree, e, id, List.mem_map.mpr ⟨_, hmem, rfl⟩, hfit⟩

@[simp] theorem shownIn_append (vs ws : List (Act × Except Fault Unit)) :
    shownIn settings (vs ++ ws) = shownIn settings vs ++ shownIn settings ws :=
  List.flatMap_append

@[simp] theorem takenIn_append (vs ws : List (Act × Except Fault Unit)) :
    takenIn settings (vs ++ ws) = takenIn settings vs ++ takenIn settings ws :=
  List.filterMap_append

/-- Of an act that is taken everything is shown. -/
theorem shownIn_ok (a : Act) : shownIn settings [(a, .ok ())] = shown settings a :=
  List.append_nil _

/-- Nothing is taken from an act that is refused. -/
theorem takenIn_error (a : Act) (fault : Fault) : takenIn settings [(a, .error fault)] = [] := by
  cases a <;> rfl

/-- A fitting candidate is taken with its act. -/
theorem takenIn_of_fitting {r : Candidate × UInt16} (h : Candidate.fitting? settings e = some r) :
    takenIn settings [(.call tree e, .ok ())] = [r.1] := by
  simp [takenIn, taken?, h]

/-- An event without a candidate brings nothing into the menu. -/
theorem takenIn_of_none (h : Candidate.ofEvent settings e = none) :
    takenIn settings [(.call tree e, .ok ())] = [] := by
  simp [takenIn, taken?, Candidate.fitting?, h]

/-- The used ids are the object ids of fitting candidates of the same tree. -/
theorem mem_usedIds_iff {past : List Act} {objectId : UInt64} :
    objectId ∈ usedIds settings past tree ↔
      ∃ e r, .call tree e ∈ past ∧ Candidate.fitting? settings e = some r ∧
        r.1.fields.objectId = objectId := by
  rw [usedIds, List.mem_filterMap]
  constructor
  · rintro ⟨a, ha, h⟩
    cases a with
    | note d => cases h
    | call t e =>
      rw [used?] at h
      obtain ⟨rfl, hmap⟩ := Option.ite_none_right_eq_some.mp h
      obtain ⟨r, hr, rfl⟩ := Option.map_eq_some_iff.mp hmap
      exact ⟨e, r, ha, hr, rfl⟩
  · rintro ⟨e, r, ha, hr, rfl⟩
    refine ⟨_, ha, ?_⟩
    rw [used?, if_pos rfl, hr]
    rfl

/-- An object id is fresh if it is not among the used ones. -/
theorem requireFresh_eq_ok_iff {past : List Act} {c : Candidate} :
    requireFresh settings past tree c = .ok () ↔
      c.fields.objectId ∉ usedIds settings past tree := by
  unfold requireFresh
  split
  next h => exact ⟨nofun, fun hn => absurd h hn⟩
  next h => exact ⟨fun _ => h, fun _ => rfl⟩

/-- A variable can be had if it is not barred. -/
theorem requireWritable_eq_ok_iff {store : Store} {c : Candidate} :
    requireWritable store c = .ok () ↔ store.bars c.name = false := by
  unfold requireWritable
  split
  next h => exact ⟨nofun, fun hn => absurd h (hn ▸ Bool.false_ne_true)⟩
  next h => exact ⟨fun _ => eq_false_of_ne_true h, fun _ => rfl⟩

/-- Of a fitting candidate the last two stages are left. -/
theorem judge_of_fitting {store : Store} {past : List Act} {c : Candidate} {id : UInt16}
    (hx : Candidate.ofEvent settings e = some (.ok (c, id))) :
    judge settings store past tree e =
      (requireFresh settings past tree c >>= fun _ => requireWritable store c) := by
  rw [judge, hx]
  rfl

/-- A candidate is taken if it fits, its object id is new in its tree and its variable is not
barred. -/
theorem judge_eq_ok_iff_fitting {store : Store} {past : List Act} (h : asks e = true) :
    judge settings store past tree e = .ok () ↔
      ∃ r, Candidate.fitting? settings e = some r ∧
        r.1.fields.objectId ∉ usedIds settings past tree ∧ store.bars r.1.name = false := by
  obtain ⟨x, hx⟩ : ∃ x, Candidate.ofEvent settings e = some x := by
    refine Option.ne_none_iff_exists'.mp fun hnone => ?_
    cases h.symm.trans (Candidate.ofEvent_eq_none_iff.mp hnone)
  simp only [judge, hx, Candidate.fitting?_eq_some_iff, Option.some.injEq]
  rw [bind_eq_ok_iff]
  constructor
  · rintro ⟨r, rfl, h⟩
    obtain ⟨hfresh, hwritable⟩ := guard_eq_ok_iff.mp h
    exact ⟨r, rfl, requireFresh_eq_ok_iff.mp hfresh, requireWritable_eq_ok_iff.mp hwritable⟩
  · rintro ⟨r, rfl, hfresh, hwritable⟩
    exact ⟨r, rfl, guard_eq_ok_iff.mpr
      ⟨requireFresh_eq_ok_iff.mpr hfresh, requireWritable_eq_ok_iff.mpr hwritable⟩⟩

/-- Nothing but options with a value is judged. -/
theorem judge_of_not_asks {store : Store} {past : List Act} (h : asks e = false) :
    judge settings store past tree e = .ok () := by
  rw [judge, Candidate.ofEvent_eq_none_iff.mpr h]

/-- Whether an option is accepted depends on the store only through its own variable. -/
theorem Asking.Accepted.of_bars {store store' : Store} {past : List Act} {q : Asking}
    (h : q.Accepted settings store past tree) (hb : store'.bars q.name = store.bars q.name) :
    q.Accepted settings store' past tree := by
  have hbars : store.bars q.name = false := Store.bars_eq_false_iff.mpr h.writable
  exact ⟨h.toFits, h.fresh, Store.bars_eq_false_iff.mp (hb.trans hbars)⟩

/-- **Judgement decides.** An option that asks is taken if and only if it is accepted. -/
theorem judge_eq_ok_iff {store : Store} {past : List Act} {q : Asking}
    (hq : Asking.ofEvent e = some q) :
    judge settings store past tree e = .ok () ↔ q.Accepted settings store past tree := by
  rw [judge_eq_ok_iff_fitting (Asking.asks_of_ofEvent hq)]
  constructor
  · rintro ⟨⟨c, id⟩, hr, hfresh, hbars⟩
    -- a taken option fits, and what it asks is what its candidate has
    obtain ⟨q', hq', hfits, hname, hfields, -⟩ := Candidate.asking_of_fitting hr
    obtain rfl := Option.some.inj (hq'.symm.trans hq)
    refine ⟨hfits, fun e' p hmem hp hpfits heq => hfresh ?_, ?_⟩
    · obtain ⟨r', hr'⟩ := Candidate.exists_fitting hp hpfits
      obtain ⟨p', hp', -, -, hpfields, -⟩ := Candidate.asking_of_fitting hr'
      obtain rfl := Option.some.inj (hp'.symm.trans hp)
      exact mem_usedIds_iff.mpr ⟨e', r', hmem, hr', by rw [hpfields, heq, hfields]⟩
    · exact hname ▸ Store.bars_eq_false_iff.mp hbars
  · -- an accepted option has a fitting candidate, whose id no fitting act before has used
    intro h
    obtain ⟨⟨c, id⟩, hr⟩ := Candidate.exists_fitting hq h.toFits
    obtain ⟨q', hq', -, hname, hfields, -⟩ := Candidate.asking_of_fitting hr
    obtain rfl := Option.some.inj (hq'.symm.trans hq)
    refine ⟨_, hr, fun hmem => ?_, Store.bars_eq_false_iff.mpr (hname ▸ h.writable)⟩
    obtain ⟨e', r', hmem, hr', heq⟩ := mem_usedIds_iff.mp hmem
    obtain ⟨p, hp, hpfits, -, hpfields, -⟩ := Candidate.asking_of_fitting hr'
    exact h.fresh e' p hmem hp hpfits (by rw [← hpfields, heq, hfields])

end Menu

end SetupForms
