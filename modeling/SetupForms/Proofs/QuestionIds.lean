import Mathlib.Data.List.DropRight
import SetupForms.Proofs.Backing
import SetupForms.Proofs.Residue

/-!
# Question ids

A question bears the number of its object id in the component's range, and so does the variable
behind it (`Question.Numbers`). Whatever a draft is called back with, in whatever order, each
question is that of an option of its own, and its id was not in use and is from then on
(`Draft.Emission`). Since only the root of a tree lets go of the ids in use, no two questions behind
the last root have one id (`Draft.questionIds_nodup`).

Distinctness is not kept by arbitrary steps, since the root of the next tree may reuse any id. What
every step inside a tree keeps is that the questions since the root have distinct ids and that all
of these are in use (`Draft.Distinct`); the second half is what makes a new question differ from the
older ones.
-/

namespace SetupForms.Menu

variable {settings : Settings} {policy : Policy} {e : Event} {d : Draft} {lines : List Element}

/-- The questions among lines. -/
def questionsOf (lines : List Element) : List Question := lines.filterMap Element.question?

/-- The questions of lines are those of the first and those of the later lines. -/
theorem questionsOf_append (as bs : List Element) :
    questionsOf (as ++ bs) = questionsOf as ++ questionsOf bs :=
  List.filterMap_append

/-- A question is that of an option, and bears its number. -/
structure Question.Numbers (settings : Settings) (e : Event) (q : Question) : Prop where
  /-- the id is the object id of the option, counted from the start of the range; it is named after
  the option -/
  exists_asking : ∃ a, Asking.ofEvent e = some a ∧ q.varStore.name = a.name ∧
    q.id.toNat = settings.componentStart.toNat + a.fields.objectId.toNat
  /-- the id is not below the range -/
  start_le : settings.componentStart ≤ q.id
  /-- the id is below the end of the range -/
  lt_end : q.id < settings.componentEnd
  /-- the variable has the same id -/
  varStore_id : q.varStore.id = q.id
  /-- the variable's name is short -/
  name_length : (Text.Utf8.encode q.varStore.name).length ≤ 104

/-- The question of a fitting candidate has the number of its option. -/
theorem Candidate.numbers_of_fitting {c : Candidate} {id : UInt16}
    (h : fitting? settings e = some (c, id)) : (c.question settings id).Numbers settings e := by
  obtain ⟨a, ha, hfits, hname, hfields, hid⟩ := asking_of_fitting h
  obtain ⟨hlt, rfl⟩ := questionId_eq_ok_iff.mp hid
  -- ids below the end of the range do not wrap
  have htoNat := UInt16.toNat_ofNat_of_lt' (Nat.lt_trans hlt settings.componentEnd.toNat_lt)
  exact {
    exists_asking := ⟨a, ha, hname, hfields ▸ htoNat⟩
    start_le := UInt16.le_iff_toNat_le.mpr ((Nat.le_add_right ..).trans_eq htoNat.symm)
    lt_end := UInt16.lt_iff_toNat_lt.mpr (htoNat.trans_lt hlt)
    varStore_id := rfl
    name_length := show (Text.Utf8.encode c.name).length ≤ 104 from hname ▸ hfits.short }

namespace Draft

/-! ## One step

`Emission` is what a step adds seen from its questions: none, or one, which is that of the event and
whose id was free and no longer is.
-/

/-- The questions that an event brings: none, or that of its option, under an id that was not in use
and is from now on. -/
inductive Emission (settings : Settings) (d d' : Draft) (e : Event) : List Question → Prop where
  | none : Emission settings d d' e []
  | question {q : Question} :
      q.Numbers settings e → q.id ∉ d.issued → q.id ∈ d'.issued → Emission settings d d' e [q]

/-- A step adds lines to those that are there, and at most one question. -/
theorem emission_step (settings : Settings) (policy : Policy) (d : Draft) (e : Event) :
    ∃ added, (step settings policy d e).2.elements = d.elements ++ added ∧
      Emission settings d (step settings policy d e).2 e (questionsOf added) := by
  refine ⟨_, elements_step settings policy d 0 e, ?_⟩
  have hissued (i : UInt16) : i ∈ (step settings policy d e).2.issued ↔ e.opensTree = false ∧
      (i ∈ d.issued ∨ ∃ c, Candidate.fitting? settings e = some (c, i)) := mem_issued_step
  have hs := stepped settings policy d 0 e
  -- the questions among the lines of a step are those of what it takes
  rw [questionsOf, questions_shownIn]
  generalize step settings policy d e = r at hs hissued
  cases hs with
  | plain hx =>
    have hfit : Candidate.fitting? settings e = Option.none := by rw [Candidate.fitting?, hx]; rfl
    rw [List.filterMap_cons, numbered?, hfit]
    exact .none
  | unfit | used | barred => exact .none
  | taken hx hid hv =>
    have hfit := Candidate.fitting?_eq_some_iff.mpr hx
    rw [List.filterMap_cons, numbered?, hfit]
    exact .question (Candidate.numbers_of_fitting hfit) hid
      ((hissued _).mpr ⟨Candidate.opensTree_of_ofEvent hx, .inr ⟨_, hfit⟩⟩)

/-! ## Runs

Two runs are looked at. In any run the questions follow the options in their order, and in a run
that enters no root they are distinct.
-/

/-- A run adds lines, and its questions are those of some of its options, in their order. -/
theorem numbers_feed (settings : Settings) (policy : Policy) (d : Draft) (es : List Event) :
    ∃ added options, ((step settings policy).feed d es).elements = d.elements ++ added ∧
      options.Sublist es ∧
      List.Forall₂ (fun e q => q.Numbers settings e) options (questionsOf added) := by
  -- The induction is on the events, so that what the first step adds stands in front.
  induction es generalizing d with
  | nil => exact ⟨[], [], (List.append_nil _).symm, .slnil, .nil⟩
  | cons e es ih =>
    obtain ⟨added, hlines, hadds⟩ := emission_step settings policy d e
    obtain ⟨later, options, hlater, hsub, hnumbers⟩ := ih (step settings policy d e).2
    have hrun : ((step settings policy).feed d (e :: es)).elements =
        d.elements ++ (added ++ later) := by
      rw [Callback.feed_cons, hlater, hlines, List.append_assoc]
    generalize hq : questionsOf added = qs at hadds
    cases hadds with
    | none =>
      refine ⟨_, options, hrun, hsub.cons e, ?_⟩
      rwa [questionsOf_append, hq]
    | question hnum =>
      refine ⟨_, e :: options, hrun, hsub.cons_cons e, ?_⟩
      rw [questionsOf_append, hq]
      exact .cons hnum hnumbers

/-- The lines that were added ask questions with ids of their own, all of which are in use. -/
structure Distinct (first : List Element) (d : Draft) (added : List Element) : Prop where
  /-- the lines are the first ones and those that were added -/
  elements_eq : d.elements = first ++ added
  /-- no two questions have one id -/
  nodup : ((questionsOf added).map (·.id)).Nodup
  /-- the ids are in use -/
  issued : ∀ q ∈ questionsOf added, q.id ∈ d.issued

/-- Inside a tree ids stay in use, so that a question gets another one. -/
theorem Distinct.step {added : List Element} (h : d.Distinct lines added) (settings : Settings)
    (policy : Policy) (hopen : e.opensTree = false) :
    ∃ added, (step settings policy d e).2.Distinct lines added := by
  obtain ⟨new, hlines, hadds⟩ := emission_step settings policy d e
  have hkept (q : Question) (hq : q ∈ questionsOf added) :
      q.id ∈ (Draft.step settings policy d e).2.issued :=
    mem_issued_step.mpr ⟨hopen, .inl (h.issued q hq)⟩
  refine ⟨added ++ new, by rw [hlines, h.elements_eq, List.append_assoc], ?_, ?_⟩ <;>
    rw [questionsOf_append] <;> generalize questionsOf new = qs at hadds
  · cases hadds with
    | none => simpa using h.nodup
    | @question q hnum hfresh hid =>
      -- an id of an earlier question is still in use, so it is not the new one
      have hnew : q.id ∉ (questionsOf added).map (·.id) := fun hmem => by
        obtain ⟨q', hq', hsame⟩ := List.mem_map.mp hmem
        exact hfresh (hsame ▸ h.issued q' hq')
      rw [List.map_append, List.nodup_append]
      refine ⟨h.nodup, List.pairwise_singleton .., fun i hi j hj hij => hnew ?_⟩
      obtain rfl : j = q.id := List.mem_singleton.mp hj
      exact hij ▸ hi
  · cases hadds with
    | none => simpa using hkept
    | question hnum hfresh hid =>
      exact List.forall_mem_append.mpr ⟨hkept, List.forall_mem_singleton.mpr hid⟩

/-- A run inside a tree keeps ids distinct. -/
theorem Distinct.feed {added : List Element} (h : d.Distinct lines added) (settings : Settings)
    (policy : Policy) {es : List Event} (hopen : ∀ e ∈ es, e.opensTree = false) :
    ∃ added, ((Draft.step settings policy).feed d es).Distinct lines added := by
  induction es generalizing d added with
  | nil => exact ⟨added, h⟩
  | cons e es ih =>
    obtain ⟨hfirst, hrest⟩ := List.forall_mem_cons.mp hopen
    obtain ⟨added', h'⟩ := h.step settings policy hfirst
    exact ih h' hrest

/-- **Question ids.** Take any calls over any store, in any order. The questions are those of some
of the options that were called with, in their order, and each bears the number of its option, which
neither wraps nor leaves the range; its variable has the same id and a short name. The questions
that were added behind the last root of a tree have ids of their own. -/
theorem questionIds_nodup (settings : Settings) (policy : Policy) (store : Store)
    (es : List Event) :
    let run := (step settings policy).feed { store }
    (∃ options, options.Sublist es ∧
        List.Forall₂ (fun e q => q.Numbers settings e) options
          (questionsOf (run es).elements)) ∧
      ∃ added, (run es).elements = (run (es.rdropWhile (!·.opensTree))).elements ++ added ∧
        ((questionsOf added).map (·.id)).Nodup := by
  intro run
  constructor
  · obtain ⟨added, options, hlines, hsub, hnumbers⟩ := numbers_feed settings policy { store } es
    exact ⟨options, hsub, hlines ▸ hnumbers⟩
  · have hinside : ∀ e ∈ es.rtakeWhile (!·.opensTree), e.opensTree = false := fun e he => by
      simpa using List.mem_rtakeWhile_imp he
    have hfirst : (run (es.rdropWhile (!·.opensTree))).Distinct
        (run (es.rdropWhile (!·.opensTree))).elements [] := ⟨(List.append_nil _).symm, .nil, nofun⟩
    obtain ⟨added, hadded⟩ := hfirst.feed settings policy hinside
    rw [← Callback.feed_append, List.rdropWhile_append_rtakeWhile] at hadded
    exact ⟨added, hadded.elements_eq, hadded.nodup⟩

/-- A nested form keeps the ids in use, so that the second option gets no question; the root of the
next tree lets go of them. -/
example :
    let enter (depth : Nat) : Event := .enter ⟨0, 60, ⟨1, 0, ⟨0⟩⟩, "Boot", depth, 45, 60⟩
    let calls := [enter 0, askNumber "A" 5, enter 1, askNumber "B" 5, enter 0, askNumber "C" 5]
    (questionsOf ((step {} .store).feed { store := {} } calls).elements).map (·.varStore) =
      [⟨0x1005, "A", 4⟩, ⟨0x1005, "C", 4⟩] := by
  decide +kernel

end Draft

end SetupForms.Menu
