import SetupForms.Proofs.FaultClasses
import SetupForms.Proofs.MenuBuild
import SetupForms.Proofs.Refusals
import SetupForms.Proofs.Residue

/-!
# Only the documented faults surface

A menu refuses an option for one of five reasons (`Fault.RefusesOption`). What its report holds
beyond the notes of the walk are these refusals, one diagnostic each, and the only storage fault it
notes is a size that does not match. Together with the classes of readers, walks and lookups,
`Menu.surfacing_faults` lists all that can come up; an internal fault never does, because a text
option that was decoded has a name and a default.

The first half is about readers and was done in `FaultClasses`; here the menu is added. A step of a
draft fails only by refusing its option, and a report with refusals is the report of the walk with
one diagnostic for each refusal put in between (`Report.interleaved`).
-/

namespace SetupForms

universe u

/-- The faults with which a menu refuses an option. -/
inductive Fault.RefusesOption : Fault → Prop where
  | invalidText (offset : Nat) : RefusesOption (.invalidText offset)
  | questionIdOutOfRange (objectId : UInt64) : RefusesOption (.questionIdOutOfRange objectId)
  | nameTooLong (name : String) (length max : Nat) : RefusesOption (.nameTooLong name length max)
  | duplicateObjectId (objectId : UInt64) (name : String) :
      RefusesOption (.duplicateObjectId objectId name)
  | writeProtected (name : String) : RefusesOption (.writeProtected name)

/-! ## Refusals in a report

The diagnostics of a report come from notes and from refusals, in the order in which the walk met
them. Two rows in one order are said by `Interleaved`, which keeps the order of each.
-/

/-- The diagnostic of an act with its verdict, if it is refused. -/
def Act.refusal? : Act × Except Fault Unit → Option Diagnostic
  | (call tree e, .error fault) => some (e.refusal tree fault)
  | (call _ _, .ok ()) | (note _, _) => none

/-- A list that is made of two others, each in its own order. -/
inductive Interleaved {α : Type u} : List α → List α → List α → Prop where
  | nil : Interleaved [] [] []
  /-- the next element is of the first list -/
  | left {as bs cs : List α} (a : α) : Interleaved as bs cs → Interleaved (a :: as) bs (a :: cs)
  /-- the next element is of the second list -/
  | right {as bs cs : List α} (b : α) : Interleaved as bs cs → Interleaved as (b :: bs) (b :: cs)

/-- What is in the whole is in one of the two. -/
theorem Interleaved.mem_or_mem {α : Type u} {as bs cs : List α} {c : α}
    (h : Interleaved as bs cs) (hc : c ∈ cs) : c ∈ as ∨ c ∈ bs := by
  induction h with
  | nil => cases hc
  | left a _ ih => grind
  | right b _ ih => grind

/-- A report has the notes and the refusals, and nothing else. -/
theorem Report.interleaved (vs : List (Act × Except Fault Unit)) :
    Interleaved (Act.notes (vs.map Prod.fst)) (vs.filterMap Act.refusal?)
      (ofVerdicts vs).diagnostics := by
  induction vs with
  | nil => exact .nil
  | cons v vs ih =>
    obtain ⟨a, verdict⟩ := v
    rw [ofVerdicts, diagnostics_append]
    cases a with
    | note d => exact ih.left d
    | call tree e =>
      cases verdict with
      | ok _ => cases e <;> exact ih
      | error fault =>
        rw [Act.report, Event.rejection_eq]
        exact ih.right _

namespace Menu

variable {settings : Settings} {policy : Policy} {limits : Limits} {store : Store} {e : Event}
  {d : Draft} {trees : List Tree}

/-! ## Candidates

Each check of a candidate refuses it with a fault of its own, and each of these has a place in the
list. That a text lacks its name or its default would be an internal fault; options that were
decoded lack neither.
-/

namespace Candidate

theorem fit_failsWith {c : Candidate} : FailsWith Fault.RefusesOption (fit settings c) :=
  (FailsWith.ite (.ok _) (.error (.questionIdOutOfRange _))).bind fun _ =>
    (FailsWith.ite (.error (.nameTooLong ..)) (.ok _)).bind fun _ => .ok _

/-- A text option that has a name and a default is refused only if its default is no text. -/
theorem ofText_failsWith {o : TextOption} {q : Asking} (hq : Asking.ofEvent (.text o) = some q) :
    FailsWith Fault.RefusesOption (ofText settings o) := by
  obtain ⟨-, name, field, hname, hfield, -⟩ := Asking.ofEvent_text_eq_some_iff.mp hq
  have htext : FailsWith Fault.RefusesOption field.text := by
    unfold Field.text
    split
    · exact .ok _
    · exact .error (.invalidText _)
  rw [ofText, hname, hfield]
  exact .map (.ite (.ok _) htext.map)

/-- What asks and does not fit is refused as an option. -/
theorem refusesOption_of_unfit {q : Asking} {fault : Fault} (hq : Asking.ofEvent e = some q)
    (hx : ofEvent settings e = some (.error fault)) : fault.RefusesOption := by
  cases e with
  | enter | exit | value => cases hx
  | numeric o => exact fit_failsWith fault (Option.some.inj hx)
  | text o =>
    rw [ofEvent, (Asking.ofEvent_text_eq_some_iff.mp hq).1] at hx
    exact ((ofText_failsWith hq).bind fun _ => fit_failsWith) fault (Option.some.inj hx)

end Candidate

/-- A step refuses what asks for one of five reasons, and nothing else. -/
theorem Draft.step_failsWith (hasks : asks e = true → ∃ q, Asking.ofEvent e = some q) :
    FailsWith Fault.RefusesOption (step settings policy d e).1 := by
  have hs := stepped settings policy d 0 e
  generalize step settings policy d e = r at hs
  cases hs with
  | plain | taken => exact .ok _
  | used => exact .error (.duplicateObjectId ..)
  | barred hx hid hv => exact .error (createVariable_eq_error hv ▸ .writeProtected _)
  | unfit hx =>
    cases ha : asks e with
    | false => cases hx.symm.trans (Candidate.ofEvent_eq_none_iff.mpr ha)
    | true =>
      obtain ⟨q, hq⟩ := hasks ha
      exact .error (Candidate.refusesOption_of_unfit hq hx)

/-! ## The build of trees

A build is a walk with refusals, so its report is interleaved; and its storage faults come from
sizes alone, because a locked name refuses the option instead.
-/

/-- **What a build adds.** The report of a build has the notes of a walk in which nothing is
refused, in their order, and besides them an error for each option that is refused. -/
theorem build_adds {σ : Type u} {f : Callback σ} (hf : f.Willing) (s : σ)
    (settings : Settings) (limits : Limits) (policy : Policy) (store : Store)
    (hts : ∀ t ∈ trees, Tree.ofBytes t.bytes = .ok t) :
    let walk := (Walk.trees f limits 0 trees s).1
    let menu := (build settings limits policy trees store).1
    ∃ added, Interleaved walk.diagnostics added menu.report.diagnostics ∧
      ∀ d ∈ added, d.severity = .error ∧ d.fault.RefusesOption := by
  intro walk menu
  let vs := verdicts settings limits policy trees store
  have hacts : vs.map Prod.fst = Walk.acts limits 0 trees := Callback.map_fst_verdicts _ _ _
  have hwalk : walk.diagnostics = Act.notes (vs.map Prod.fst) := by
    rw [hacts, ← Report.diagnostics_ofActs]
    exact congrArg (·.1.diagnostics) (Walk.trees_of_willing_acts hf limits 0 trees s)
  have hmenu : menu.report = .ofVerdicts vs :=
    congrArg (·.1.report) (build_eq_lastDraft settings limits policy trees store)
  rw [hwalk, hmenu]
  refine ⟨_, Report.interleaved vs, fun d hd => ?_⟩
  obtain ⟨⟨a, verdict⟩, hmem, hd⟩ := List.mem_filterMap.mp hd
  cases a with
  | note n => cases hd
  | call tree e =>
    cases verdict with
    | ok _ => cases hd
    | error fault =>
      obtain rfl := Option.some.inj hd
      -- the verdict is that of a step, for an event of the walk, whose option was decoded
      obtain ⟨d, hverdict⟩ := Callback.exists_of_mem_verdicts hmem
      have hact : .call tree e ∈ vs.map Prod.fst := List.mem_map_of_mem hmem
      rw [hacts] at hact
      have hrefuses : fault.RefusesOption :=
        Draft.step_failsWith (exists_asking_of_mem_acts hts hact) fault hverdict.symm
      cases e <;> exact ⟨rfl, hrefuses⟩

/-- Of a variable a build notes only that it has another size. -/
theorem storageFaults_build {fault : Fault}
    (hf : fault ∈ (build settings limits policy trees store).1.storageFaults) :
    ∃ name expected actual, fault = .storeSizeMismatch name expected actual := by
  rw [build_eq_lastDraft] at hf
  change fault ∈ (lastDraft settings limits policy trees store).storageFaults at hf
  rw [(provides_lastDraft settings limits policy trees store).storageFaults_eq] at hf
  obtain ⟨c, -, hc⟩ := List.mem_filterMap.mp hf
  obtain ⟨v, -, hv⟩ := Option.bind_eq_some_iff.mp hc
  rw [Candidate.sizeFault?] at hv
  split at hv
  · cases hv
  · exact ⟨_, _, _, (Option.some.inj hv).symm⟩

/-- **Only the documented faults surface.** No tree is refused but for malformed bytes. A walk in
which nothing is refused warns of records of no known kind, exactly, and its errors are malformed
bytes and texts that are too long. A lookup ends with malformed bytes or a miss. A build adds errors
to the notes of the walk, each of which refuses an option, and of its variables it notes nothing but
other sizes. No internal fault comes up in any of these. -/
theorem surfacing_faults {σ : Type u} {f : Callback σ} (hf : f.Willing) (s : σ)
    (settings : Settings) (limits : Limits) (policy : Policy) (store : Store) (bytes : Array UInt8)
    (form? : Option String) (name : String) (hts : ∀ t ∈ trees, Tree.ofBytes t.bytes = .ok t) :
    let walk := (Walk.trees f limits 0 trees s).1
    let menu := (build settings limits policy trees store).1
    (∀ fault, Tree.ofBytes bytes = .error fault → fault.isStructural = true) ∧
      (∀ d ∈ walk.diagnostics,
        (d.severity = .warning ↔ ∃ offset tag, d.fault = .unknownRecord offset tag) ∧
          (d.severity = .error → d.fault.Undecodable)) ∧
      (∀ fault, Lookup.find limits form? name trees = .error fault →
        Lookup.Unanswered name fault) ∧
      (∃ added, Interleaved walk.diagnostics added menu.report.diagnostics ∧
        ∀ d ∈ added, d.severity = .error ∧ d.fault.RefusesOption) ∧
      (∀ fault ∈ menu.storageFaults,
        ∃ name expected actual, fault = .storeSizeMismatch name expected actual) ∧
      ∀ text, Tree.ofBytes bytes ≠ .error (.internal text) ∧
        (∀ d ∈ walk.diagnostics ++ menu.report.diagnostics, d.fault ≠ .internal text) ∧
        Lookup.find limits form? name trees ≠ .error (.internal text) ∧
        .internal text ∉ menu.storageFaults := by
  intro walk menu
  have hnoted : ∀ d ∈ walk.diagnostics, d.Noted := Walk.noted_of_willing hf limits 0 trees s
  obtain ⟨added, hmade, hadded⟩ := build_adds hf s settings limits policy store hts
  refine ⟨Tree.ofBytes_failsOnBytes, fun d hd => ⟨(hnoted d hd).warning_iff,
    (hnoted d hd).undecodable_of_error⟩, Lookup.find_failsWith form? trees,
    ⟨added, hmade, hadded⟩, fun _ => storageFaults_build, fun text => ⟨fun h => ?_, ?_,
    fun h => ?_, fun h => ?_⟩⟩
  · cases Tree.ofBytes_failsOnBytes _ h
  · have hwalk : ∀ d ∈ walk.diagnostics, d.fault ≠ .internal text :=
      fun d hd => (hnoted d hd).fault_ne_internal text
    refine List.forall_mem_append.mpr ⟨hwalk, fun d hd => ?_⟩
    rcases hmade.mem_or_mem hd with hd | hd
    · exact hwalk d hd
    · exact fun h => nomatch h ▸ (hadded d hd).2
  · cases Lookup.find_failsWith form? trees _ h with
    | malformed hs => cases hs
  · obtain ⟨_, _, _, h⟩ := storageFaults_build h
    cases h

/-- Of four options one asks for the question of another and one for a locked variable: both are
refused, and the walk by itself notes nothing. -/
theorem surfacing_faults_clashes :
    let store : Store := { locked := ["c"] }
    let menu := (build {} {} .store [clashes] store).1
    (∃ added, Interleaved [] added menu.report.diagnostics ∧
      ∀ d ∈ added, d.severity = .error ∧ d.fault.RefusesOption) ∧
      menu.report.diagnostics.map (·.fault) =
        [.duplicateObjectId 2 "b", .writeProtected "c"] := by
  have hwalk : (Walk.trees .silent {} 0 [clashes] ()).1.diagnostics = [] := by decide +kernel
  have h := surfacing_faults Callback.willing_silent () {} {} .store { locked := ["c"] } #[] none
    "a" ofBytes_clashes
  refine ⟨hwalk ▸ h.2.2.2.1, by decide +kernel⟩

end Menu

end SetupForms
