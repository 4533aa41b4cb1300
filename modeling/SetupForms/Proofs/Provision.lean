import Mathlib.Data.List.Basic
import SetupForms.Proofs.Acceptance

/-!
# What a menu does to the store

A menu provides a variable for each candidate that it takes. What comes of it depends just on the
store as it was and on the candidates in their order: a variable that existed stays as it is, and
else the first candidate of a name makes it (`provided?`). `Draft.Provides` says so of a draft, and
`Draft.Provides.add` that one more candidate keeps it so.

The property has to hold of drafts that are in the middle of a build, so that it speaks of the
candidates taken so far. It says what each variable is, which names are locked, what has been
created and which misfits have been noted, all in terms of the first store and of the list of
candidates. A step adds at most one candidate to the list (`Draft.Stepped`), and a run the
candidates of its steps (`Provides.feed`).
-/

namespace SetupForms.Menu

variable {settings : Settings} {policy : Policy} {store : Store} {taken : List Candidate}
  {c : Candidate} {d : Draft} {name : String} {tree : Nat} {e : Event}

/-- The variable that a candidate makes. -/
def Candidate.variable (c : Candidate) : Variable := ⟨c.stored, c.fields.flags.attributes⟩

/-- The variable of a name after candidates are provided for. -/
def provided? (store : Store) (taken : List Candidate) (name : String) : Option Variable :=
  (store.get? name).or ((taken.find? (·.name = name)).map Candidate.variable)

/-- The names of the variables that candidates make, in the order in which they do. -/
def created (store : Store) (taken : List Candidate) : List String :=
  ((taken.map (·.name)).filter fun n => (store.get? n).isNone).eraseDups

/-- The fault that is noted of a candidate if its variable has another size. -/
def Candidate.sizeFault? (c : Candidate) (v : Variable) : Option Fault :=
  if v.data.length = c.stored.length then none
  else some (.storeSizeMismatch c.name c.stored.length v.data.length)

/-- The fault that is noted of one of the candidates that are provided for. -/
def mismatch? (store : Store) (taken : List Candidate) (c : Candidate) : Option Fault :=
  (provided? store taken c.name).bind c.sizeFault?

namespace Draft

/-- The draft has provided for the candidates over a store in which none of them was barred. -/
structure Provides (policy : Policy) (store : Store) (taken : List Candidate) (d : Draft) :
    Prop where
  /-- every candidate could be provided for -/
  unbarred : ∀ c ∈ taken, store.bars c.name = false
  /-- what existed is kept, and the rest made -/
  get?_eq : ∀ name, d.store.get? name = provided? store taken name
  /-- read-only candidates are locked if the policy is to do so -/
  isLocked_iff : ∀ name, d.store.isLocked name = true ↔
    store.isLocked name = true ∨
      policy = .store ∧ ∃ c ∈ taken, c.fields.flags.isReadOnly = true ∧ c.name = name
  /-- what was made is listed -/
  provisioned_eq : d.provisioned = created store taken
  /-- nothing is listed twice -/
  nodup : d.provisioned.Nodup
  /-- what does not fit is noted -/
  storageFaults_eq : d.storageFaults = taken.filterMap (mismatch? store taken)

end Draft

/-! ## One more candidate

A candidate more changes `provided?` for its own name only, and only if nothing was provided there.
From this the parts of `Provides` follow one by one: what a name has, what has been created, and
what has been noted.
-/

theorem provided?_append (store : Store) (taken : List Candidate) (c : Candidate) (name : String) :
    provided? store (taken ++ [c]) name =
      (provided? store taken name).or (if c.name = name then some c.variable else none) := by
  unfold provided?
  rw [List.find?_append, Option.or_assoc]
  congr 1
  cases taken.find? (·.name = name) with
  | some _ => rfl
  | none => by_cases hn : c.name = name <;> simp [hn]

/-- Each candidate that was taken has a variable. -/
theorem provided?_of_mem (store : Store) (hc : c ∈ taken) :
    ∃ v, provided? store taken c.name = some v := by
  unfold provided?
  cases hs : store.get? c.name with
  | some v => exact ⟨v, rfl⟩
  | none =>
    cases hf : taken.find? (·.name = c.name) with
    | some c' => exact ⟨c'.variable, rfl⟩
    | none => exact absurd (decide_eq_true rfl) (List.find?_eq_none.mp hf c hc)

/-- Nothing is provided for a name that neither the store nor a candidate has. -/
theorem provided?_eq_none_iff :
    provided? store taken name = none ↔ store.get? name = none ∧ ∀ c ∈ taken, c.name ≠ name := by
  simp [provided?]

/-- What the store has not got is made by a candidate. -/
theorem exists_of_provided? {v : Variable} (h : provided? store taken name = some v)
    (hs : store.get? name = none) : ∃ c ∈ taken, c.name = name := by
  by_contra hn
  rw [provided?_eq_none_iff.mpr ⟨hs, fun c hc he => hn ⟨c, hc, he⟩⟩] at h
  cases h

theorem created_append_of_none (h : provided? store taken c.name = none) :
    created store (taken ++ [c]) = created store taken ++ [c.name] := by
  obtain ⟨hs, hnone⟩ := provided?_eq_none_iff.mp h
  unfold created
  rw [List.map_append, List.filter_append, List.eraseDups_append]
  have hm : ¬∃ c' ∈ taken, c'.name = c.name := fun ⟨c', hc', hn⟩ => hnone c' hc' hn
  simp [List.removeAll, hs, hm, List.eraseDups_cons]

theorem created_append_of_some {v : Variable} (h : provided? store taken c.name = some v) :
    created store (taken ++ [c]) = created store taken := by
  unfold created
  rw [List.map_append, List.filter_append, List.eraseDups_append]
  cases hs : store.get? c.name with
  | some u => simp [hs]
  | none =>
    have hm := exists_of_provided? h hs
    simp [List.removeAll, hs, hm]

/-- What is made has not been there, and a candidate has its name. -/
theorem mem_created_iff :
    name ∈ created store taken ↔ store.get? name = none ∧ ∃ c ∈ taken, c.name = name := by
  simp [created, and_comm]

/-- What is made is what the store has not got and then has. -/
theorem mem_created_iff_provided? :
    name ∈ created store taken ↔ store.get? name = none ∧ provided? store taken name ≠ none := by
  rw [mem_created_iff]
  refine and_congr_right fun hs => ⟨?_, fun hsome => ?_⟩
  · rintro ⟨c, hc, hn⟩ hnone
    exact (provided?_eq_none_iff.mp hnone).2 c hc hn
  · obtain ⟨v, hv⟩ := Option.ne_none_iff_exists'.mp hsome
    exact exists_of_provided? hv hs

/-- A candidate more does not change what is noted of those before it. -/
theorem filterMap_mismatch?_append (store : Store) (taken : List Candidate) (c : Candidate) :
    (taken ++ [c]).filterMap (mismatch? store (taken ++ [c])) =
      taken.filterMap (mismatch? store taken) ++ (mismatch? store (taken ++ [c]) c).toList := by
  have hbefore : taken.filterMap (mismatch? store (taken ++ [c])) =
      taken.filterMap (mismatch? store taken) := by
    refine List.filterMap_congr fun c' hc' => ?_
    obtain ⟨v, hv⟩ := provided?_of_mem store hc'
    rw [mismatch?, mismatch?, provided?_append, hv, Option.some_or]
  rw [List.filterMap_append, hbefore, List.filterMap_cons]
  cases mismatch? store (taken ++ [c]) c <;> rfl

namespace Draft

/-- Only the store and what is noted of it matter. -/
theorem Provides.of_eq {d' : Draft} (h : d.Provides policy store taken) (hs : d'.store = d.store)
    (hp : d'.provisioned = d.provisioned) (hf : d'.storageFaults = d.storageFaults) :
    d'.Provides policy store taken where
  unbarred := h.unbarred
  get?_eq := hs ▸ h.get?_eq
  isLocked_iff := hs ▸ h.isLocked_iff
  provisioned_eq := hp ▸ h.provisioned_eq
  nodup := hp ▸ h.nodup
  storageFaults_eq := hf ▸ h.storageFaults_eq

/-- Providing for candidates bars no other name, and lifts no bar. -/
theorem Provides.bars_eq (h : d.Provides policy store taken) (name : String) :
    d.store.bars name = store.bars name := by
  unfold Store.bars
  rw [h.get?_eq]
  cases hp : provided? store taken name with
  | some v =>
    cases hs : store.get? name with
    | some u => rfl
    | none =>
      -- a candidate has made it, and was not barred
      obtain ⟨c, hc, rfl⟩ := exists_of_provided? hp hs
      have hbars := h.unbarred c hc
      rw [Store.bars, hs] at hbars
      exact hbars.symm
  | none =>
    obtain ⟨hs, hnone⟩ := provided?_eq_none_iff.mp hp
    rw [hs]
    refine congrArg _ (Bool.eq_iff_iff.mpr ((h.isLocked_iff name).trans ⟨?_, .inl⟩))
    rintro (hl | ⟨-, c, hc, -, hn⟩)
    · exact hl
    · exact absurd hn (hnone c hc)

/-- The variable of a candidate that is barred is not created. -/
theorem Provides.createVariable_of_bars (h : d.Provides policy store taken)
    (hc : store.bars c.name = true) :
    d.createVariable c = .error (.writeProtected c.name) := by
  rw [← h.bars_eq, Store.bars, Bool.and_eq_true, Option.isNone_iff_eq_none] at hc
  rw [createVariable, Store.size?, hc.1, Store.set, if_pos hc.2]
  rfl

/-- A variable that is made was not barred. -/
theorem Provides.bars_of_createVariable {d' : Draft} (h : d.Provides policy store taken)
    (hv : d.createVariable c = .ok d') : store.bars c.name = false := by
  cases hc : store.bars c.name with
  | false => rfl
  | true =>
    rw [h.createVariable_of_bars hc] at hv
    cases hv

/-- A policy changes no variable. -/
theorem get?_applyPolicy (policy : Policy) (d : Draft) (c : Candidate) (name : String) :
    (applyPolicy policy d c).store.get? name = d.store.get? name := by
  unfold applyPolicy
  split
  · exact Store.get?_lock ..
  · rfl

/-- It locks the name of a candidate that is read-only, if it is meant to. -/
theorem isLocked_applyPolicy (policy : Policy) (d : Draft) (c : Candidate) (name : String) :
    (applyPolicy policy d c).store.isLocked name = true ↔
      d.store.isLocked name = true ∨
        policy = .store ∧ c.fields.flags.isReadOnly = true ∧ c.name = name := by
  unfold applyPolicy
  split
  next h =>
    rw [Store.isLocked_lock, Bool.or_eq_true, decide_eq_true_iff, and_iff_right h.2,
      and_iff_right h.1, or_comm]
  next h => exact ⟨.inl, fun hl => hl.resolve_right fun ⟨hp, hr, _⟩ => h ⟨hr, hp⟩⟩

/-- Creating a variable leaves lines and ids alone. -/
theorem createVariable_frame {d' : Draft} (h : d.createVariable c = .ok d') :
    d'.elements = d.elements ∧ d'.issued = d.issued := by
  unfold createVariable at h
  split at h
  · obtain ⟨s, -, rfl⟩ := map_eq_ok_iff.mp h
    exact ⟨rfl, rfl⟩
  · split at h <;> obtain rfl := Except.ok.inj h <;> exact ⟨rfl, rfl⟩

/-- The policy does nothing but lock. -/
theorem applyPolicy_frame (policy : Policy) (d : Draft) (c : Candidate) :
    (applyPolicy policy d c).elements = d.elements ∧
      (applyPolicy policy d c).issued = d.issued ∧
      (applyPolicy policy d c).provisioned = d.provisioned ∧
      (applyPolicy policy d c).storageFaults = d.storageFaults := by
  unfold applyPolicy
  split <;> exact ⟨rfl, rfl, rfl, rfl⟩

/-- Once its variable is there and noted, a candidate is provided for when the policy is applied. -/
theorem Provides.applyPolicy {d' : Draft} (h : d.Provides policy store taken)
    (hc : store.bars c.name = false)
    (hget : ∀ name, d'.store.get? name = provided? store (taken ++ [c]) name)
    (hlock : ∀ name, d'.store.isLocked name = d.store.isLocked name)
    (hprov : d'.provisioned = created store (taken ++ [c])) (hnodup : d'.provisioned.Nodup)
    (hfaults : d'.storageFaults = (taken ++ [c]).filterMap (mismatch? store (taken ++ [c]))) :
    (applyPolicy policy d' c).Provides policy store (taken ++ [c]) := by
  obtain ⟨-, -, hpp, hpf⟩ := applyPolicy_frame policy d' c
  refine ⟨fun c' hc' => ?_, fun name => ?_, fun name => ?_, hpp.trans hprov, hpp ▸ hnodup,
    hpf.trans hfaults⟩
  · rcases List.mem_append.mp hc' with hc' | hc'
    · exact h.unbarred c' hc'
    · exact List.mem_singleton.mp hc' ▸ hc
  · exact (get?_applyPolicy ..).trans (hget name)
  · rw [isLocked_applyPolicy, hlock, h.isLocked_iff, or_assoc, ← and_or_left]
    simp only [List.mem_append, List.mem_singleton, or_and_right, exists_or, exists_eq_left]

theorem createVariable_of_missing {t : Store} (hv : d.store.get? c.name = none)
    (hs : d.store.set c.name c.fields.flags.attributes c.stored = .ok t) :
    d.createVariable c =
      .ok { d with store := t, provisioned := d.provisioned ++ [c.name] } := by
  rw [createVariable, Store.size?, hv, hs]
  rfl

theorem createVariable_of_present {v : Variable} (hv : d.store.get? c.name = some v) :
    d.createVariable c =
      .ok { d with storageFaults := d.storageFaults ++ (c.sizeFault? v).toList } := by
  rw [createVariable, Store.size?, hv, Candidate.sizeFault?]
  by_cases hlen : v.data.length = c.stored.length <;> simp [hlen]

/-- Otherwise it is there, and the new draft has provided for the candidate as well. -/
theorem Provides.add (h : d.Provides policy store taken) (hc : store.bars c.name = false) :
    ∃ d', d.createVariable c = .ok d' ∧
      (Draft.applyPolicy policy d' c).Provides policy store (taken ++ [c]) := by
  have hget : d.store.get? c.name = provided? store taken c.name := h.get?_eq c.name
  cases hp : provided? store taken c.name with
  | none =>
    -- the candidate is the first of its name, and its variable is created
    have hunlocked : d.store.isLocked c.name = false := by
      have hbars := (h.bars_eq c.name).trans hc
      rw [Store.bars, hget, hp] at hbars
      exact hbars
    obtain ⟨s, hs⟩ : ∃ s, d.store.set c.name c.fields.flags.attributes c.stored = .ok s :=
      ⟨_, Store.set_eq_ok_iff.mpr ⟨hunlocked, rfl⟩⟩
    have hfault : mismatch? store (taken ++ [c]) c = none := by
      rw [mismatch?, provided?_append, hp, if_pos rfl, Option.none_or]
      exact if_pos rfl
    refine ⟨_, createVariable_of_missing (hget.trans hp) hs,
      h.applyPolicy hc (fun name => ?_) (Store.isLocked_set hs) ?_ ?_ ?_⟩
    · rw [Store.get?_set hs, provided?_append, h.get?_eq]
      split
      next hn => rw [← hn, hp, Option.none_or, Candidate.variable]
      next hn => rw [Option.or_none]
    · rw [created_append_of_none hp, ← h.provisioned_eq]
    · refine List.nodup_append.mpr ⟨h.nodup, List.pairwise_singleton _ _, fun n hn n' hn' heq => ?_⟩
      obtain rfl := List.mem_singleton.mp hn'
      obtain ⟨-, c', hc', hname⟩ := mem_created_iff.mp (h.provisioned_eq ▸ hn)
      exact (provided?_eq_none_iff.mp hp).2 c' hc' (hname.trans heq)
    · rw [filterMap_mismatch?_append, hfault, h.storageFaults_eq]
      exact (List.append_nil _).symm
  | some v =>
    -- the variable stays as it is, and it is noted if it does not fit
    have hold : ∀ name, provided? store (taken ++ [c]) name = provided? store taken name := by
      intro name
      rw [provided?_append]
      split
      next hn => rw [← hn, hp, Option.some_or]
      next hn => rw [Option.or_none]
    refine ⟨_, createVariable_of_present (hget.trans hp),
      h.applyPolicy hc (fun name => (h.get?_eq name).trans (hold name).symm) (fun _ => rfl)
        ?_ h.nodup ?_⟩
    · rw [created_append_of_some hp, h.provisioned_eq]
    · rw [filterMap_mismatch?_append, mismatch?, hold, hp, h.storageFaults_eq]
      rfl

/-- The draft of nothing. -/
theorem provides_nil (policy : Policy) (store : Store) : Provides policy store [] { store } where
  unbarred _ hc := absurd hc List.not_mem_nil
  get?_eq name := by simp [provided?]
  isLocked_iff name := by simp
  provisioned_eq := rfl
  nodup := .nil
  storageFaults_eq := rfl

/-! ## One step

A step does one of five things. Which one it is depends on the event, on the ids in use and on the
store; from here on the cases of a step are those of `Stepped`, and its definition is not opened
again.
-/

/-- What becomes of a draft when an event is called back. -/
inductive Stepped (settings : Settings) (policy : Policy) (d : Draft) (tree : Nat) (e : Event) :
    Except Fault Unit × Draft → Prop where
  /-- the event is no candidate and is shown; no id is used yet in a tree that it opens -/
  | plain :
      Candidate.ofEvent settings e = none →
      Stepped settings policy d tree e
        (.ok (), { d with
          issued := if e.opensTree then [] else d.issued
          elements := d.elements ++ shown settings (.call tree e) })
  /-- the candidate does not fit -/
  | unfit {fault : Fault} :
      Candidate.ofEvent settings e = some (.error fault) →
      Stepped settings policy d tree e (.error fault, d)
  /-- its id is used -/
  | used {c : Candidate} {id : UInt16} :
      Candidate.ofEvent settings e = some (.ok (c, id)) → id ∈ d.issued →
      Stepped settings policy d tree e (.error (.duplicateObjectId c.fields.objectId c.name), d)
  /-- its variable cannot be created -/
  | barred {c : Candidate} {id : UInt16} {fault : Fault} :
      Candidate.ofEvent settings e = some (.ok (c, id)) → id ∉ d.issued →
      createVariable { d with issued := id :: d.issued } c = .error fault →
      Stepped settings policy d tree e (.error fault, { d with issued := id :: d.issued })
  /-- it is taken -/
  | taken {c : Candidate} {id : UInt16} {d' : Draft} :
      Candidate.ofEvent settings e = some (.ok (c, id)) → id ∉ d.issued →
      createVariable { d with issued := id :: d.issued } c = .ok d' →
      Stepped settings policy d tree e
        (.ok (), (applyPolicy policy d' c).emit (.question (c.question settings id) c.widget))

/-- An id is issued if the candidate fits and the id is new. -/
theorem issue_eq (settings : Settings) (d : Draft) (c : Candidate) :
    issue settings d c = (c.fit settings >>= fun r => (requireNew d c r.2).map fun _ => r.2) := by
  unfold issue Candidate.fit
  cases Candidate.questionId settings c.fields.objectId with
  | error fault => rfl
  | ok id =>
    cases Candidate.requireName c.name with
    | error fault => rfl
    | ok _ =>
      show (requireNew d c id >>= fun _ => .ok id) = (requireNew d c id).map fun _ => id
      cases requireNew d c id <;> rfl

theorem add_of_unissued {fault : Fault} (hi : issue settings d c = .error fault) :
    add settings policy d c = (.error fault, d) := by
  rw [add, hi]

theorem add_of_uncreated (policy : Policy) {id : UInt16} {fault : Fault}
    (hi : issue settings d c = .ok id)
    (hv : createVariable { d with issued := id :: d.issued } c = .error fault) :
    add settings policy d c = (.error fault, { d with issued := id :: d.issued }) := by
  rw [add, hi]
  simp only [hv]

theorem add_of_created (policy : Policy) {id : UInt16} {d' : Draft}
    (hi : issue settings d c = .ok id)
    (hv : createVariable { d with issued := id :: d.issued } c = .ok d') :
    add settings policy d c =
      (.ok (), (applyPolicy policy d' c).emit (.question (c.question settings id) c.widget)) := by
  rw [add, hi]
  simp only [hv]

theorem stepped_add (hx : Candidate.ofEvent settings e = some (c.fit settings)) :
    Stepped settings policy d tree e (add settings policy d c) := by
  have hissue := issue_eq settings d c
  cases hf : c.fit settings with
  | error fault =>
    rw [hf] at hx hissue
    rw [add_of_unissued hissue]
    exact .unfit hx
  | ok r =>
    obtain ⟨c', id⟩ := r
    obtain ⟨-, -, rfl⟩ := Candidate.fit_eq_ok_iff.mp hf
    rw [hf] at hx hissue
    by_cases hid : id ∈ d.issued
    · -- refused before anything is changed
      have hnew : requireNew d c' id = .error (.duplicateObjectId c'.fields.objectId c'.name) :=
        if_pos hid
      rw [add_of_unissued (hissue.trans (congrArg (Except.map _) hnew))]
      exact .used hx hid
    · have hnew : requireNew d c' id = .ok () := if_neg hid
      have hid' := hissue.trans (congrArg (Except.map _) hnew)
      -- from here on the id is in use, whatever becomes of the variable
      cases hv : createVariable { d with issued := id :: d.issued } c' with
      | error fault =>
        rw [add_of_uncreated policy hid' hv]
        exact .barred hx hid hv
      | ok d' =>
        rw [add_of_created policy hid' hv]
        exact .taken hx hid hv

/-- **What a step does.** -/
theorem stepped (settings : Settings) (policy : Policy) (d : Draft) (tree : Nat) (e : Event) :
    Stepped settings policy d tree e (step settings policy d e) := by
  -- Four of the events ask for no question. Each of them may add a line, and the entry of a root
  -- lets go of the ids.
  have plain : Candidate.ofEvent settings e = none →
      step settings policy d e = (.ok (), { d with
        issued := if e.opensTree then [] else d.issued
        elements := d.elements ++ shown settings (.call tree e) }) →
      Stepped settings policy d tree e (step settings policy d e) := fun hn hs => hs ▸ .plain hn
  cases e with
  | enter form =>
    refine plain rfl ?_
    by_cases hdepth : form.depth = 0 <;> simp [step, Event.opensTree, hdepth, emit, shown]
  | exit form =>
    refine plain rfl ?_
    by_cases hsep : form.depth = 0 ∧ settings.treeSeparator = true <;>
      simp [step, Event.opensTree, hsep, emit, shown]
  | value o v =>
    refine plain rfl ?_
    simp [step, Event.opensTree, shown]
  | numeric o => exact stepped_add rfl
  | text o =>
    cases hk : o.kind with
    | comment =>
      refine plain (by simp [Candidate.ofEvent, hk]) ?_
      simp [step, Event.opensTree, hk, emit, shown]
    | varchar =>
      have hx : Candidate.ofEvent settings (.text o) =
          some (Candidate.ofText settings o >>= Candidate.fit settings) := by
        simp [Candidate.ofEvent, hk]
      simp only [step, hk]
      cases hc : Candidate.ofText settings o with
      | error fault => exact .unfit (hx.trans (by rw [hc]; rfl))
      | ok c => exact stepped_add (hx.trans (by rw [hc]; rfl))

/-! ## Runs

The candidates taken by a run are collected from its verdicts, and so are its lines.
-/

/-- A step adds the lines of what it takes. -/
theorem elements_step (settings : Settings) (policy : Policy) (d : Draft) (tree : Nat) (e : Event) :
    (step settings policy d e).2.elements =
      d.elements ++ shownIn settings [(.call tree e, (step settings policy d e).1)] := by
  have hs := stepped settings policy d tree e
  generalize step settings policy d e = r at hs
  cases hs with
  | plain => exact congrArg _ (shownIn_ok _).symm
  | unfit | used | barred => exact (List.append_nil _).symm
  | @taken c id d' hx hid hv =>
    have hfit := Candidate.fitting?_eq_some_iff.mpr hx
    simp only [shownIn_ok, shown_of_fitting hfit, emit, (applyPolicy_frame policy d' c).1,
      (createVariable_frame hv).1]

/-- A step provides for the candidate that it takes. -/
theorem Provides.step (h : d.Provides policy store taken) (settings : Settings) (tree : Nat)
    (e : Event) :
    (step settings policy d e).2.Provides policy store
      (taken ++ takenIn settings [(.call tree e, (Draft.step settings policy d e).1)]) := by
  have hs := stepped settings policy d tree e
  generalize Draft.step settings policy d e = r at hs
  cases hs with
  | plain hx =>
    rw [takenIn_of_none hx, List.append_nil]
    exact h.of_eq rfl rfl rfl
  | unfit | used | barred =>
    rw [takenIn_error, List.append_nil]
    exact h.of_eq rfl rfl rfl
  | @taken c id d' hx hid hv =>
    have h' : Provides policy store taken { d with issued := id :: d.issued } :=
      h.of_eq rfl rfl rfl
    rw [takenIn_of_fitting (Candidate.fitting?_eq_some_iff.mpr hx)]
    obtain ⟨d'', hv', hprov⟩ := h'.add (h'.bars_of_createVariable hv)
    obtain rfl := Except.ok.inj (hv'.symm.trans hv)
    exact hprov.of_eq rfl rfl rfl

/-- **What a build provides.** After acts the draft has provided for the candidates that were taken
among them. -/
theorem Provides.feed (h : d.Provides policy store taken) (settings : Settings) (as : List Act) :
    ((Draft.step settings policy).feed d (Act.events as)).Provides policy store
      (taken ++ takenIn settings ((Draft.step settings policy).verdicts d as)) := by
  induction as generalizing d taken with
  | nil => exact (List.append_nil taken).symm ▸ h
  | cons a as ih =>
    cases a with
    | note _ => exact ih h
    | call tree e =>
      have hrun := ih (h.step settings tree e)
      rw [List.append_assoc, ← takenIn_append] at hrun
      exact hrun

/-- **What a build shows.** -/
theorem elements_feed (settings : Settings) (policy : Policy) (d : Draft) (as : List Act) :
    ((step settings policy).feed d (Act.events as)).elements =
      d.elements ++ shownIn settings ((step settings policy).verdicts d as) := by
  induction as generalizing d with
  | nil => exact (List.append_nil _).symm
  | cons a as ih =>
    cases a with
    | note _ => exact ih d
    | call tree e =>
      have hrun := ih (step settings policy d e).2
      rw [elements_step settings policy d tree, List.append_assoc, ← shownIn_append] at hrun
      exact hrun

/-- A build enters every form and takes every value. -/
theorem lenient_step (settings : Settings) (policy : Policy) : (step settings policy).Lenient where
  enter _ _ := rfl
  value _ _ _ := rfl

end Draft

end SetupForms.Menu
