import SetupForms.Proofs.Agreement
import SetupForms.Proofs.FieldQueue
import SetupForms.Proofs.Framing
import SetupForms.Proofs.InBounds

/-!
# Taking a field from a cursor

A machine that takes a field has a cursor, which is one word of memory, and it can come upon a fault
in any of its steps. Nothing puts the cursor back when that happens. `CursorMachine.take?` is the
reader of one field as it runs on such a machine. It takes a field whole or leaves the cursor
where it is, and what it does is decided by the bytes from the cursor to the limit
(`Field.serve_whole_or_still`).

The proof compares three readers of one field. The machine with a cursor does what a machine without
one does and then moves the cursor (`CursorMachine.run_take?`), for the cursor is set in the last
step. The machine without a cursor does what the decoder does, as long as addresses fit in a word
(`Machine.field?_eq_lift`). What is true of the decoder was said by the spelling of fields
(`Field.spells_of_next?`).
-/

namespace SetupForms

/-- A machine with a cursor. What it did to the cursor before a fault stays done. -/
abbrev CursorMachine (α : Type) : Type := ExceptT Fault (StateT Nat (Except Halt)) α

namespace CursorMachine

variable {α β : Type} {cursor : Nat}

/-- A computation that has no cursor. -/
def still (m : Machine α) : CursorMachine α := ExceptT.mk fun cursor => m.run.map (·, cursor)

/-- Takes the field at the cursor if it bears `tag`. -/
def take? (w : Window) (tag : UInt32) : CursorMachine (Option Field) := do
  let cursor ← get
  let found ← still (Machine.tagAt? w cursor)
  if found = some tag then
    let h ← still (Machine.header w cursor)
    still (Machine.lift (h.requireMin Field.headerLength))
    let stop ← still (Machine.headerStop h)
    let inner := w.upTo stop
    let lengthOffset ← still (Machine.add h.offset Header.length)
    let dataLength ← still (Machine.uint32 inner lengthOffset)
    let dataOffset ← still (Machine.add h.offset Field.headerLength)
    let data ← still (Machine.slice inner dataOffset dataLength.toNat)
    set stop
    return some ⟨h.tag, h.offset, h.size, dataLength, data⟩
  else
    return none

/-- An answer that comes with the next cursor moves the cursor there. A fault does not move it. -/
def settle (cursor : Nat) : Except Fault (α × Nat) → Except Fault α × Nat
  | .ok (a, next) => (.ok a, next)
  | .error f => (.error f, cursor)

/-- The cursor is there to be read. -/
theorem run_get_bind {f : Nat → CursorMachine β} :
    (get >>= f).run.run cursor = (f cursor).run.run cursor := rfl

/-- A step that has no cursor can be taken by a machine without one, if the rest can. -/
theorem run_still_bind {m : Machine α} {f : α → CursorMachine β} {g : α → Machine (β × Nat)}
    (hf : ∀ a, (f a).run.run cursor = (g a).run.map (settle cursor)) :
    (still m >>= f).run.run cursor = (m >>= g).run.map (settle cursor) := by
  show (m.run.map (·, cursor) >>= _) = Except.map (settle cursor) (m.run >>= _)
  cases m.run with
  | error why => rfl
  | ok answer =>
    cases answer with
    | error f => rfl
    | ok a => exact hf a

/-- The cursor moves in the last step, so a machine without one can take the others first. -/
theorem run_take? (w : Window) (tag : UInt32) :
    (take? w tag).run.run cursor = (Machine.field? w cursor tag).run.map (settle cursor) := by
  rw [take?, run_get_bind]
  refine run_still_bind fun found => ?_
  by_cases htag : found = some tag
  · rw [if_pos htag, if_pos htag]
    refine run_still_bind fun h => run_still_bind fun _ => run_still_bind fun stop => ?_
    refine run_still_bind fun lengthOffset => run_still_bind fun dataLength => ?_
    refine run_still_bind fun dataOffset => run_still_bind fun data => ?_
    rfl
  · rw [if_neg htag, if_neg htag]
    rfl

end CursorMachine

namespace Window

variable {w w' : Window} {offset : Nat}

/-- Beyond its limit a window ends for no reader. -/
theorem slice_upTo_limit (w : Window) (offset length : Nat) :
    (w.upTo w.limit).slice offset length = w.slice offset length := by
  rw [slice, slice, limit_upTo_of_le (Nat.le_refl _)]
  rfl

/-- So a word is read alike in a window that is cut off at its limit. -/
theorem uint32_upTo_limit (w : Window) (offset : Nat) :
    (w.upTo w.limit).uint32 offset = w.uint32 offset := by
  rw [uint32, uint32, slice_upTo_limit]

/-- What is held is told by the bytes between its ends. -/
theorem holds_iff_extract_eq {bs : List UInt8} (h : offset + bs.length ≤ w.limit) :
    w.Holds offset bs ↔ (w.bytes.extract offset (offset + bs.length)).toList = bs :=
  ⟨fun hb => hb.eq_extract.symm, fun hb => hb ▸ (holds_extract h).2⟩

end Window

open Blueprint

namespace Field

variable {w w' : Window} {cursor : Nat} {tag : UInt32} {f : Field}

theorem next?_upTo_limit (w : Window) (cursor : Nat) (tag : UInt32) :
    next? (w.upTo w.limit) cursor tag = next? w cursor tag := by
  have hlimit : (w.upTo w.limit).limit = w.limit := Window.limit_upTo_of_le (Nat.le_refl _)
  simp only [next?, read, Header.tagAt?, Header.parse, Window.uint32_upTo_limit, hlimit]
  rfl

/-- A field is looked for between the cursor and the limit, whatever stands elsewhere. -/
theorem next?_confined (hlimit : w'.limit = w.limit)
    (hbytes : ∀ i, cursor ≤ i → i < w.limit → w'.bytes[i]? = w.bytes[i]?) :
    next? w' cursor tag = next? w cursor tag := by
  have hw : (w.upTo w.limit).limit = w.limit := Window.limit_upTo_of_le (Nat.le_refl _)
  have hw' : (w'.upTo w'.limit).limit = w'.limit := Window.limit_upTo_of_le (Nat.le_refl _)
  -- cut off at their limit, the two windows agree from the cursor on
  have hagree : Window.AgreeFrom cursor (w'.upTo w'.limit) (w.upTo w.limit) := by
    refine ⟨hlimit, by rw [hw, hw', hlimit], fun i hlo hi => ?_⟩
    rw [hw', hlimit] at hi
    exact hbytes i hlo hi
  rw [← next?_upTo_limit w', next?_congr hagree (Nat.le_refl _), next?_upTo_limit]

/-- There is no field exactly if too little is left for a header or another tag stands there. -/
theorem next?_eq_none_iff (hw : w.limit < Window.addressSpace) :
    next? w cursor tag = .ok none ↔
      w.limit < cursor + 8 ∨
        (w.bytes.extract cursor (cursor + 4)).toList ≠ Bytes.ofUInt32 tag := by
  have hseen : next? w cursor tag = .ok none ↔ Header.tagAt? w cursor ≠ some tag := by
    unfold next?
    split
    next htag =>
      refine iff_of_false (fun hnone => ?_) (not_not_intro htag)
      obtain ⟨f, -, hf⟩ := map_eq_ok_iff.mp hnone
      cases hf
    next htag => exact iff_of_true rfl htag
  rw [hseen, ne_eq, Header.tagAt?_eq_some_iff, Header.length]
  by_cases hfits : cursor + 8 ≤ w.limit
  · have hword : w.Holds cursor (Bytes.ofUInt32 tag) ↔
        (w.bytes.extract cursor (cursor + 4)).toList = Bytes.ofUInt32 tag := by
      rw [Window.holds_iff_extract_eq (by rw [Bytes.length_ofUInt32]; omega),
        Bytes.length_ofUInt32]
    rw [hword, or_iff_right (Nat.not_lt.mpr hfits)]
    exact not_congr ⟨fun h => h.2.2, fun h => ⟨hfits, by omega, h⟩⟩
  · exact iff_of_true (fun h => hfits h.1) (.inl (Nat.lt_of_not_le hfits))

/-- The payload stands behind the three words at the front. -/
theorem Spells.holds_data {bs : List UInt8} (hs : f.Spells bs) (hb : w.Holds cursor bs) :
    w.Holds (cursor + headerLength) f.data := by
  obtain ⟨-, padding, hrec⟩ := hs
  have hstop : cursor + f.size.toNat ≤ w.limit := hrec.2 ▸ hb.1
  have hbody := ((Window.holds_upTo_iff hstop).mp (hrec.holds hb).2).2
  have hfront := (Window.holds_append.mp hbody).1
  rw [Window.holds_append, Bytes.length_ofUInt32] at hfront
  exact hfront.2

/-- A field that is given out is spelled from the cursor to its end, with the payload where that
stands. -/
theorem spells_of_next? (hn : next? w cursor tag = .ok (some f)) :
    f.Spells (w.bytes.extract cursor f.stop).toList ∧
      f.data = (w.bytes.extract (cursor + 12) (cursor + 12 + f.dataLength.toNat)).toList := by
  obtain ⟨rfl, bs, hs, hb⟩ := exists_of_read (next?_eq_some hn)
  constructor
  · rw [hs.stop_eq, ← hb.eq_extract]
    exact hs
  · rw [hs.1]
    exact (hs.holds_data hb).eq_extract

/-- An optional field is looked for, and the cursor is settled behind it. -/
theorem serve_optional (w : Window) (cursor : Nat) (tag : UInt32) :
    serve w cursor ⟨tag, false⟩ = CursorMachine.settle cursor
      ((next? w cursor tag).map fun found => (found, after cursor found)) := by
  unfold serve
  rw [if_neg Bool.false_ne_true]
  cases next? w cursor tag <;> rfl

/-- The answer is what is found at the cursor. -/
theorem answer_optional (w : Window) (cursor : Nat) (tag : UInt32) :
    (serve w cursor ⟨tag, false⟩).1 = next? w cursor tag := by
  rw [serve_optional]
  cases next? w cursor tag <;> rfl

/-- Only a field that is given out moves the cursor. -/
theorem cursor_optional (h : ∀ f, next? w cursor tag ≠ .ok (some f)) :
    (serve w cursor ⟨tag, false⟩).2 = cursor := by
  rw [serve_optional]
  cases hn : next? w cursor tag with
  | error e => rfl
  | ok found =>
    cases found with
    | none => rfl
    | some f => exact absurd hn (h f)

/-- The machine comes to its end, with what is served. -/
theorem run_take?_eq (hsize : w.bytes.size < 0x8000000000000000) :
    (CursorMachine.take? w tag).run.run cursor = .ok (serve w cursor ⟨tag, false⟩) := by
  rw [CursorMachine.run_take?, Machine.field?_eq_lift hsize, Machine.map_lift, serve_optional]
  rfl

/-- **A field is taken whole or not at all.** A machine with a cursor always comes to its end, with
the answer and the cursor that `serve` gives. If the answer is a field, the field stands from the
cursor to its end inside the window, has room for its payload, holds exactly the bytes that stand
there, and the cursor is at its end. If there is none, or a fault comes up, the cursor is where it
was. There is none exactly if too little is left for a header or another tag stands there. And all
of this is decided by the bytes from the cursor to the limit. -/
theorem serve_whole_or_still (w : Window) (hsize : w.bytes.size < 0x8000000000000000)
    (cursor : Nat) (tag : UInt32) :
    let answer := (serve w cursor ⟨tag, false⟩).1
    let next := (serve w cursor ⟨tag, false⟩).2
    (CursorMachine.take? w tag).run.run cursor = .ok (answer, next) ∧
      (∀ f, answer = .ok (some f) →
        f.offset = cursor ∧ f.tag = tag ∧
          next = cursor + f.size.toNat ∧ next ≤ min w.stop w.bytes.size ∧
          12 + f.dataLength.toNat ≤ f.size.toNat ∧
          f.data = (w.bytes.extract (cursor + 12) (cursor + 12 + f.dataLength.toNat)).toList ∧
          f.Spells (w.bytes.extract cursor next).toList) ∧
      ((∀ f, answer ≠ .ok (some f)) → next = cursor) ∧
      (answer = .ok none ↔
        min w.stop w.bytes.size < cursor + 8 ∨
          (w.bytes.extract cursor (cursor + 4)).toList ≠ Bytes.ofUInt32 tag) ∧
      ∀ w' : Window, min w'.stop w'.bytes.size = min w.stop w.bytes.size →
        (∀ i, cursor ≤ i → i < min w.stop w.bytes.size → w'.bytes[i]? = w.bytes[i]?) →
        serve w' cursor ⟨tag, false⟩ = (answer, next) := by
  intro answer next
  have hlimit : w.limit < Window.addressSpace :=
    Nat.lt_trans (Machine.limit_lt hsize) (by decide)
  have hanswer : answer = next? w cursor tag := answer_optional w cursor tag
  refine ⟨run_take?_eq hsize, fun f hf => ?_, fun hnot => ?_, ?_, fun w' hends hbytes => ?_⟩
  · have hn : next? w cursor tag = .ok (some f) := hanswer.symm.trans hf
    have hnext : next = f.stop := congrArg Prod.snd (serve_of_some (r := ⟨tag, false⟩) hn)
    have hrequire := require_eq_ok_iff.mpr hn
    obtain ⟨ho, htag, -⟩ := (require_eq_ok_iff_spells hlimit).mp hrequire
    obtain ⟨hs, hdata⟩ := spells_of_next? hn
    obtain ⟨hlength, hroom⟩ := hs.length_eq
    refine ⟨ho, htag, ?_, ?_, ?_, hdata, ?_⟩
    · rw [hnext, stop, ho]
    · rw [hnext]
      exact (require_stop hrequire).2.2
    · rw [hlength]
      exact hroom
    · rw [hnext]
      exact hs
  · exact cursor_optional (hanswer ▸ hnot)
  · rw [hanswer]
    exact next?_eq_none_iff hlimit
  · show _ = serve w cursor ⟨tag, false⟩
    rw [serve_optional, serve_optional, next?_confined hends hbytes]

/-- The empty help text of `sampleFields` with other bytes around it. -/
def sampleHelp (front : UInt8) (behind : List UInt8) : Array UInt8 :=
  (List.replicate 29 front ++ FieldSpec.encode ⟨0x0109, [], none, 0⟩ ++ behind).toArray

/-- An empty help text is taken from either of two buffers that agree on it alone. -/
theorem serve_whole_or_still_sampleHelp :
    (CursorMachine.take? ⟨sampleHelp 0 [], Window.addressSpace - 1⟩ 0x0109).run.run 29 =
        .ok (.ok (some ⟨0x0109, 29, 12, 0, []⟩), 41) ∧
      serve ⟨sampleHelp 1 [8, 1], 41⟩ 29 ⟨0x0109, false⟩ =
        (.ok (some ⟨0x0109, 29, 12, 0, []⟩), 41) := by
  obtain ⟨hrun, -, -, -, hsame⟩ :=
    serve_whole_or_still ⟨sampleHelp 0 [], Window.addressSpace - 1⟩ (by decide) 29 0x0109
  have hbytes : ∀ k < 12, (sampleHelp 1 [8, 1])[29 + k]? = (sampleHelp 0 [])[29 + k]? := by
    decide
  refine ⟨hrun.trans rfl, ?_⟩
  refine (hsame ⟨sampleHelp 1 [8, 1], 41⟩ (by decide) fun i hlo hi => ?_).trans rfl
  have hend : i < 41 := hi
  obtain ⟨k, rfl⟩ := Nat.exists_eq_add_of_le hlo
  exact hbytes k (by omega)

end Field

end SetupForms
