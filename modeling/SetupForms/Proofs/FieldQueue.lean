import SetupForms.Proofs.WireBlueprint

/-!
# A row of fields is a queue

Fields that stand one behind the other are a queue (`FieldQueue`). A request for the tag of the
first one takes it out, and any other request leaves the queue as it is. The reader of fields has
only a cursor, but it answers as the queue does and its cursor stands where the queue has got to:
`FieldQueue.serve_eq` for one request and `Field.serveAll_eq_run` for any number of them. What the
payloads and the padding hold does not matter, even if it looks like a field.

The queue is the specification: it has no bytes, no sizes to be checked and no cursor that could go
astray, and yet every answer of the reader can be computed from it. The relation between the two is
`FieldQueue.StandsIn`, which says that the fields that wait are spelled in the window from the
cursor to the end. One request keeps the relation, and so any number of requests do.
-/

namespace SetupForms

open Blueprint

namespace Blueprint.FieldSpec

variable {f : FieldSpec} {offset : Nat}

/-- The length of a field with its header and its padding. -/
def length (f : FieldSpec) : Nat := 12 + f.payload.length + f.padding

/-- The length of fields together. -/
def lengthAll : List FieldSpec → Nat
  | [] => 0
  | f :: fs => f.length + lengthAll fs

/-- A field that declares its own lengths, which are 32-bit words. -/
structure Sized (f : FieldSpec) : Prop where
  /-- there is no override -/
  dataLength : f.dataLength = none
  /-- the length fits -/
  fits : f.length < 0x100000000

/-- A field is written with its header, its payload and its padding. -/
@[simp] theorem length_encode (f : FieldSpec) : f.encode.length = f.length := by
  rw [encode, length_frame, List.length_append, List.length_append, Bytes.length_ofUInt32,
    List.length_replicate, length, Header.length]
  omega

/-- Rows of fields one behind the other are as long as both together. -/
theorem lengthAll_append (fs gs : List FieldSpec) :
    lengthAll (fs ++ gs) = lengthAll fs + lengthAll gs := by
  induction fs with
  | nil => exact (Nat.zero_add _).symm
  | cons f fs ih => rw [List.cons_append, lengthAll, lengthAll, ih, Nat.add_assoc]

/-- The field that is read where it stands, with all its lengths. -/
theorem Sized.field_eq (hf : f.Sized) :
    f.field offset =
      ⟨f.tag, offset, UInt32.ofNat f.length, UInt32.ofNat f.payload.length, f.payload⟩ := by
  have hlength := hf.fits
  have hpayload : f.payload.length < 0x100000000 := by
    rw [length] at hlength
    omega
  rw [field, length_encode, wireLength, if_pos hlength, wireLength, if_pos hpayload]

/-- A sized field spells what is read where it is written. -/
theorem Sized.spells (hf : f.Sized) : (f.field offset).Spells f.encode :=
  spells_field hf.dataLength (by rw [length_encode]; exact hf.fits)

/-- A field ends behind its padding. -/
theorem Sized.stop_field (hf : f.Sized) : (f.field offset).stop = offset + f.length := by
  rw [hf.spells.stop_eq, length_encode]
  rfl

end Blueprint.FieldSpec

/-! ## The answers of the reader

At a place where a field is spelled there are two cases only, according to the tag that is asked
for. That the payload may look like a record plays no part: the reader never looks into it.
-/

namespace Field

variable {w : Window} {cursor : Nat} {f : Field} {bs : List UInt8}

/-- Where a field is spelled, a request for its tag finds it and any other request nothing. -/
theorem next?_of_spells (tag : UInt32) (hw : w.limit < Window.addressSpace) (hs : f.Spells bs)
    (hb : w.Holds f.offset bs) :
    next? w f.offset tag = .ok (if f.tag = tag then some f else none) := by
  rw [next?, tagAt?_of_spells hw hs hb, read_of_spells hw hs hb]
  by_cases htag : f.tag = tag
  · rw [if_pos htag, if_pos (congrArg some htag)]
    rfl
  · rw [if_neg htag, if_neg (by simpa using htag)]

/-- At the end there is no field. -/
theorem next?_of_limit_le (tag : UInt32) (h : w.limit ≤ cursor) :
    next? w cursor tag = .ok none := by
  have hnone : Header.tagAt? w cursor = none := by
    rw [Header.tagAt?, if_pos (by simp only [Header.length]; omega)]
  rw [next?, hnone, if_neg (by simp)]

/-- A field that is there is given out, required or not. -/
theorem serve_of_some {r : Request} (h : next? w cursor r.tag = .ok (some f)) :
    serve w cursor r = (.ok (some f), f.stop) := by
  cases hr : r.required
  · rw [serve, hr, if_neg (by decide), h]
    rfl
  · rw [serve, hr, if_pos rfl, require_eq_ok_iff.mpr h]
    rfl

/-- The absence of a field is a fault only if it is required, and moves nothing. -/
theorem serve_of_none {r : Request} (h : next? w cursor r.tag = .ok none) :
    serve w cursor r =
      (if r.required then .error (.missingField cursor r.tag) else .ok none, cursor) := by
  cases hr : r.required
  · rw [serve, hr, if_neg (by decide), h]
    rfl
  · have hmissing : require w cursor r.tag = .error (.missingField cursor r.tag) := by
      rw [require, h]
      rfl
    rw [serve, hr, if_pos rfl, hmissing]
    rfl

end Field

/-! ## The queue

A request never reorders the queue and never drops a field without giving it out. The fields that
were given out are kept, because the cursor stands behind them.
-/

/-- A row of fields that are given out one after the other. -/
structure FieldQueue where
  /-- where the first field stands -/
  start : Nat
  /-- the fields that have been given out -/
  given : List FieldSpec
  /-- the fields that have not -/
  waiting : List FieldSpec

namespace FieldQueue

variable {w : Window} {q : FieldQueue} {r : Field.Request}

/-- How far the queue has got: behind all that has been given out. -/
def cursor (q : FieldQueue) : Nat := q.start + FieldSpec.lengthAll q.given

/-- The first field if it bears a tag. -/
def head? (q : FieldQueue) (tag : UInt32) : Option FieldSpec :=
  q.waiting.head?.filter (·.tag = tag)

/-- The answer to a request: the first field if it bears the tag, and otherwise that there is
none. -/
def answer (q : FieldQueue) (r : Field.Request) : Except Fault (Option Field) :=
  match q.head? r.tag with
  | some f =>
    .ok (some ⟨f.tag, q.cursor, UInt32.ofNat f.length, UInt32.ofNat f.payload.length, f.payload⟩)
  | none => if r.required then .error (.missingField q.cursor r.tag) else .ok none

/-- The queue behind a request: without its first field if that bears the tag. -/
def next (q : FieldQueue) (r : Field.Request) : FieldQueue :=
  match q.head? r.tag with
  | some f => { q with given := q.given ++ [f], waiting := q.waiting.tail }
  | none => q

/-- Answers requests one after the other, with the queue behind each. -/
def run (q : FieldQueue) : List Field.Request → List (Except Fault (Option Field) × FieldQueue)
  | [] => []
  | r :: rs => (q.answer r, q.next r) :: (q.next r).run rs

/-- What waits stands in the window from the cursor to the end. -/
structure StandsIn (q : FieldQueue) (w : Window) : Prop where
  /-- the fields declare their own lengths -/
  sized : ∀ f ∈ q.waiting, f.Sized
  /-- they stand one behind the other -/
  holds : w.Holds q.cursor (q.waiting.flatMap FieldSpec.encode)
  /-- nothing stands behind them -/
  ends : q.cursor + (q.waiting.flatMap FieldSpec.encode).length = w.limit

/-- The first field is given out to those who ask for its tag. -/
theorem head?_cons (start : Nat) (given fs : List FieldSpec) (f : FieldSpec) (tag : UInt32) :
    head? ⟨start, given, f :: fs⟩ tag = if f.tag = tag then some f else none := by
  rw [head?, List.head?_cons, Option.filter_some]
  simp only [decide_eq_true_eq]

/-- A field that is given out moves the cursor by its length. -/
theorem cursor_given (start : Nat) (given fs : List FieldSpec) (f : FieldSpec) :
    cursor ⟨start, given ++ [f], fs⟩ = cursor ⟨start, given, f :: fs⟩ + f.length := by
  simp only [cursor, FieldSpec.lengthAll_append, FieldSpec.lengthAll]
  omega

/-- **The reader answers as the queue does**, and goes on where the queue has got to. -/
theorem serve_eq (hw : w.limit < Window.addressSpace) (hq : q.StandsIn w) :
    Field.serve w q.cursor r = (q.answer r, (q.next r).cursor) ∧ (q.next r).StandsIn w := by
  have hstands := hq
  obtain ⟨start, given, waiting⟩ := q
  obtain ⟨hsized, hholds, hends⟩ := hq
  cases waiting with
  | nil =>
    have hnone := Field.next?_of_limit_le r.tag (Nat.le_of_eq hends.symm)
    exact ⟨Field.serve_of_none hnone, hstands⟩
  | cons f fs =>
    obtain ⟨hf, hfs⟩ := List.forall_mem_cons.mp hsized
    rw [List.flatMap_cons, Window.holds_append, FieldSpec.length_encode] at hholds
    rw [List.flatMap_cons, List.length_append, FieldSpec.length_encode, ← Nat.add_assoc] at hends
    -- the first field is spelled at the cursor, so the reader decides by its tag as the queue does
    have hserve := Field.next?_of_spells r.tag hw hf.spells hholds.1
    by_cases htag : f.tag = r.tag
    · -- the field is given out, and the others stand behind it
      have hnext : next ⟨start, given, f :: fs⟩ r = ⟨start, given ++ [f], fs⟩ := by
        rw [next, head?_cons, if_pos htag]
        rfl
      rw [hnext]
      refine ⟨?_, hfs, ?_, ?_⟩
      · rw [answer, head?_cons, if_pos htag]
        dsimp only
        rw [cursor_given, ← hf.field_eq, ← hf.stop_field]
        exact Field.serve_of_some (hserve.trans (congrArg Except.ok (if_pos htag)))
      · rw [cursor_given]
        exact hholds.2
      · rw [cursor_given]
        exact hends
    · have hnext : next ⟨start, given, f :: fs⟩ r = ⟨start, given, f :: fs⟩ := by
        rw [next, head?_cons, if_neg htag]
      rw [hnext]
      refine ⟨?_, hstands⟩
      rw [answer, head?_cons, if_neg htag]
      exact Field.serve_of_none (hserve.trans (congrArg Except.ok (if_neg htag)))

/-- Requests only move fields from those that wait to those that were given out. -/
theorem given_append_waiting (q : FieldQueue) (r : Field.Request) :
    (q.next r).start = q.start ∧ (q.next r).given ++ (q.next r).waiting = q.given ++ q.waiting := by
  obtain ⟨start, given, waiting⟩ := q
  cases waiting with
  | nil => exact ⟨rfl, rfl⟩
  | cons f fs =>
    rw [next, head?_cons]
    by_cases htag : f.tag = r.tag
    · rw [if_pos htag]
      exact ⟨rfl, List.append_assoc ..⟩
    · rw [if_neg htag]
      exact ⟨rfl, rfl⟩

/-- All through a run the fields that were given out and those that wait are the same row. -/
theorem given_append_waiting_run (q : FieldQueue) (requests : List Field.Request) :
    ∀ step ∈ q.run requests,
      step.2.start = q.start ∧ step.2.given ++ step.2.waiting = q.given ++ q.waiting := by
  induction requests generalizing q with
  | nil => exact fun _ hstep => absurd hstep List.not_mem_nil
  | cons r rs ih =>
    have hfirst := given_append_waiting q r
    refine List.forall_mem_cons.mpr ⟨hfirst, fun step hstep => ?_⟩
    obtain ⟨hstart, hrow⟩ := ih (q.next r) step hstep
    exact ⟨hstart.trans hfirst.1, hrow.trans hfirst.2⟩

/-- Any requests one after the other are answered as the queue answers them. -/
theorem serveAll_eq (hw : w.limit < Window.addressSpace) (hq : q.StandsIn w)
    (requests : List Field.Request) :
    Field.serveAll w q.cursor requests =
      (q.run requests).map fun step => (step.1, step.2.cursor) := by
  induction requests generalizing q with
  | nil => rfl
  | cons r rs ih =>
    obtain ⟨hserve, hnext⟩ := serve_eq (r := r) hw hq
    rw [Field.serveAll, run, List.map_cons, ← ih hnext, hserve]

end FieldQueue

/-- **Fields are read as a queue is emptied.** Let any fields that declare their own lengths stand
one behind the other up to the end, behind any bytes. Then whatever is asked for, one request after
the other, each is answered as the queue of the fields answers it, and the cursor stands behind the
bytes in front and all the fields that have been given out. -/
theorem Field.serveAll_eq_run (front : List UInt8) (fields : List FieldSpec)
    (hfields : ∀ f ∈ fields, f.Sized)
    (hsize : (front ++ fields.flatMap FieldSpec.encode).length < Window.addressSpace)
    (requests : List Request) :
    let answers := FieldQueue.run ⟨front.length, [], fields⟩ requests
    serveAll (.ofBytes (front ++ fields.flatMap FieldSpec.encode).toArray) front.length requests =
        (answers.map fun step => (step.1, front.length + FieldSpec.lengthAll step.2.given)) ∧
      ∀ step ∈ answers, step.2.given ++ step.2.waiting = fields := by
  intro answers
  have hlimit : (Window.ofBytes (front ++ fields.flatMap FieldSpec.encode).toArray).limit =
      (front ++ fields.flatMap FieldSpec.encode).length := Window.limit_ofBytes _
  have hall := Window.holds_ofBytes_iff.mpr
    (List.prefix_refl (front ++ fields.flatMap FieldSpec.encode).toArray.toList)
  rw [List.toList_toArray, Window.holds_append, Nat.zero_add] at hall
  have hstands : FieldQueue.StandsIn ⟨front.length, [], fields⟩
      (.ofBytes (front ++ fields.flatMap FieldSpec.encode).toArray) :=
    ⟨hfields, hall.2, by rw [hlimit, List.length_append]; rfl⟩
  have hrow := FieldQueue.given_append_waiting_run ⟨front.length, [], fields⟩ requests
  refine ⟨?_, fun step hstep => (hrow step hstep).2⟩
  have hserve := FieldQueue.serveAll_eq (hlimit ▸ hsize) hstands requests
  refine hserve.trans (List.map_congr_left fun step hstep => ?_)
  rw [FieldQueue.cursor, (hrow step hstep).1]

/-- A name whose payload looks like a label, and an empty help text. -/
def sampleFields : List FieldSpec :=
  [⟨0x0107, (FieldSpec.text .label "A").encode, none, 3⟩, ⟨0x0109, [], none, 0⟩]

/-- A label that is only a part of a payload is never found, and an empty help text is. -/
theorem Field.serveAll_eq_run_sampleFields :
    serveAll (.ofBytes ([8, 1] ++ sampleFields.flatMap FieldSpec.encode).toArray) 2
        [⟨0x0108, false⟩, ⟨0x0107, true⟩, ⟨0x0108, true⟩, ⟨0x0109, false⟩, ⟨0x0109, false⟩] =
      [(.ok none, 2),
        (.ok (some ⟨0x0107, 2, 29, 14, [8, 1, 0, 0, 14, 0, 0, 0, 2, 0, 0, 0, 65, 0]⟩), 31),
        (.error (.missingField 31 0x0108), 31), (.ok (some ⟨0x0109, 31, 12, 0, []⟩), 43),
        (.ok none, 43)] := by
  have hfields : ∀ f ∈ sampleFields, f.Sized := by
    refine List.forall_mem_cons.mpr ⟨⟨rfl, by decide⟩, fun f hf => ?_⟩
    obtain rfl := List.mem_singleton.mp hf
    exact ⟨rfl, by decide⟩
  obtain ⟨hserve, -⟩ := serveAll_eq_run [8, 1] sampleFields hfields (by decide)
    [⟨0x0108, false⟩, ⟨0x0107, true⟩, ⟨0x0108, true⟩, ⟨0x0109, false⟩, ⟨0x0109, false⟩]
  exact hserve.trans rfl

end SetupForms
