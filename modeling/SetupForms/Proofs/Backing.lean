import SetupForms.Proofs.MenuBuild

/-!
# What stands behind questions

Each question of a menu names the variable behind it and the size that it should have. When a build
is done the variable is there, and the build has noted a fault for just those questions whose
variable is of another size (`build_backed`): nothing that a build does later changes what it has
found before.

The difficulty is one of time. The fault is noted when the option is met, against the store as it
was then, and the claim about the variable is made of the store after the whole build. The bridge is
`provided?`: it says what the store answers for a name in terms of the candidates that are taken,
and for a name that is among them the answer does not change afterwards.
-/

namespace SetupForms.Menu

variable {settings : Settings}

/-- The fault of a question whose variable has another size than it should. -/
def Question.misfit? (store : Store) (q : Question) : Option Fault :=
  (store.size? q.varStore.name).bind fun size =>
    if size = q.varStore.size then none
    else some (.storeSizeMismatch q.varStore.name q.varStore.size size)

/-- A question whose variable is there has no fault if and only if the variable can be read in its
size. -/
theorem Question.misfit?_eq_none_iff {store : Store} {q : Question}
    (hthere : store.get? q.varStore.name ≠ none) :
    q.misfit? store = none ↔
      ∃ bytes, store.getExact q.varStore.name q.varStore.size = .ok bytes := by
  obtain ⟨v, hv⟩ := Option.ne_none_iff_exists'.mp hthere
  simp only [misfit?, Store.size?, Store.getExact_eq_ok_iff, hv, Option.map_some, Option.bind_some,
    Option.some.injEq, exists_eq_left']
  split
  next h => exact ⟨fun _ => ⟨v.data, h, rfl⟩, fun _ => rfl⟩
  next h =>
    constructor
    · intro hfault
      cases hfault
    · rintro ⟨bytes, hlen, -⟩
      exact absurd hlen h

/-! ## Questions and candidates

Questions stand in the menu in the order in which their candidates are taken, and each candidate
brings just one. So the questions of a menu can be read off the verdicts.
-/

/-- The candidate that an act with its verdict brings into the menu, with the id of its question. -/
def numbered? (settings : Settings) : Act × Except Fault Unit → Option (Candidate × UInt16)
  | (.call _ e, .ok ()) => Candidate.fitting? settings e
  | (.call _ _, .error _) | (.note _, _) => none

/-- What is taken are the numbered candidates without their numbers. -/
theorem takenIn_eq_map (vs : List (Act × Except Fault Unit)) :
    takenIn settings vs = (vs.filterMap (numbered? settings)).map Prod.fst := by
  rw [takenIn, List.map_filterMap]
  refine List.filterMap_congr fun v _ => ?_
  obtain ⟨a, verdict⟩ := v
  cases a with
  | note d => rfl
  | call tree e => cases verdict <;> rfl

/-- What is shown of an act asks the question of the candidate that it brings, if it brings one. -/
theorem questions_shown (a : Act) :
    (shown settings a).filterMap Element.question? =
      ((numbered? settings (a, .ok ())).map fun r => r.1.question settings r.2).toList := by
  cases a with
  | note d => rfl
  | call tree e =>
    cases hr : Candidate.fitting? settings e with
    | some r =>
      rw [shown_of_fitting hr, numbered?, hr]
      rfl
    | none =>
      rw [numbered?, hr]
      cases e with
      | enter form => rfl
      | exit form =>
        rw [shown]
        split <;> rfl
      | value o v => rfl
      | numeric o =>
        rw [shown, hr]
        rfl
      | text o =>
        rw [shown, hr]
        cases o.kind <;> rfl

/-- The questions that are shown are those of the candidates, in their order. -/
theorem questions_shownIn (vs : List (Act × Except Fault Unit)) :
    (shownIn settings vs).filterMap Element.question? =
      (vs.filterMap (numbered? settings)).map fun r => r.1.question settings r.2 := by
  induction vs with
  | nil => rfl
  | cons v vs ih =>
    obtain ⟨a, verdict⟩ := v
    rw [← List.singleton_append, shownIn_append, List.filterMap_append, ih, List.filterMap_append,
      List.map_append]
    congr 1
    cases verdict with
    | ok _ =>
      rw [shownIn_ok, questions_shown, List.filterMap_cons]
      cases numbered? settings (a, .ok ()) <;> rfl
    | error fault => cases a <;> rfl

/-! ## The build of trees

What holds of every step of a draft holds of the build, whose draft is fed by a walk.
-/

/-- **Questions are backed.** Behind each question stands a variable of its own id and name. The
faults that are noted are those of the questions, in their order, whose variable has another size
when the build is done, so that all variables can be read in the sizes of their questions if and
only if no fault is noted. -/
theorem build_backed (settings : Settings) (limits : Limits) (policy : Policy) (trees : List Tree)
    (store : Store) :
    let menu := (build settings limits policy trees store).1
    let after := (build settings limits policy trees store).2
    let questions := menu.elements.filterMap Element.question?
    (∀ q ∈ questions, q.varStore.id = q.id ∧ after.get? q.varStore.name ≠ none) ∧
      menu.storageFaults = questions.filterMap (Question.misfit? after) ∧
      ((∀ q ∈ questions, ∃ bytes, after.getExact q.varStore.name q.varStore.size = .ok bytes) ↔
        menu.storageFaults = []) := by
  intro menu after questions
  let vs := verdicts settings limits policy trees store
  have hprov := provides_lastDraft settings limits policy trees store
  have hbuild := build_eq_lastDraft settings limits policy trees store
  have hget : ∀ name, after.get? name = provided? store (takenIn settings vs) name := fun name =>
    (congrArg (·.2.get? name) hbuild).trans (hprov.get?_eq name)
  have hquestions :
      questions = (vs.filterMap (numbered? settings)).map fun r => r.1.question settings r.2 := by
    rw [← questions_shownIn, ← elements_lastDraft]
    exact congrArg (·.1.elements.filterMap Element.question?) hbuild
  -- the candidate behind a question is among those that are taken, and for these a variable is
  -- provided
  have hbacked : ∀ q ∈ questions, q.varStore.id = q.id ∧ after.get? q.varStore.name ≠ none := by
    intro q hq
    rw [hquestions] at hq
    obtain ⟨r, hr, rfl⟩ := List.mem_map.mp hq
    refine ⟨rfl, fun hnone => ?_⟩
    have hmem : r.1 ∈ takenIn settings vs := takenIn_eq_map vs ▸ List.mem_map_of_mem hr
    exact (provided?_eq_none_iff.mp (hget _ ▸ hnone)).2 r.1 hmem rfl
  -- both sides ask the same of each candidate: whether the size of its variable is the one it
  -- stores
  have hfaults : menu.storageFaults = questions.filterMap (Question.misfit? after) := by
    have hnoted : menu.storageFaults =
        (takenIn settings vs).filterMap (mismatch? store (takenIn settings vs)) :=
      (congrArg (·.1.storageFaults) hbuild).trans hprov.storageFaults_eq
    rw [hnoted, hquestions, takenIn_eq_map, List.filterMap_map, List.filterMap_map]
    refine List.filterMap_congr fun r _ => ?_
    simp only [Function.comp, mismatch?, Question.misfit?, Store.size?, ← takenIn_eq_map, ← hget,
      Option.bind_map]
    rfl
  refine ⟨hbacked, hfaults, ?_⟩
  rw [hfaults, List.filterMap_eq_nil_iff]
  exact forall₂_congr fun q hq => (Question.misfit?_eq_none_iff (hbacked q hq).2).symm

end SetupForms.Menu
