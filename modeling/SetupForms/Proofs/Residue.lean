import SetupForms.Proofs.Provision

/-!
# What a refused option leaves behind

A refused option changes nothing of a draft but the question ids in use, and only if it is refused
because its variable is locked: its id then stays in use until the next tree is opened. Drafts that
differ in such an id alone (`Draft.Reserves`) answer alike until an option asks for the id again,
which is refused by the one and not by the other. `Draft.refusal_traceless_iff` puts this together.
-/

namespace SetupForms

universe u

/-- The answers of a callback to events one after the other. -/
def Callback.answers {σ : Type u} (f : Callback σ) : σ → List Event → List (Except Fault Unit)
  | _, [] => []
  | s, e :: es => (f s e).1 :: answers f (f s e).2 es

namespace Menu

variable {settings : Settings} {policy : Policy} {c : Candidate} {d d' : Draft} {id : UInt16}
  {ids : List UInt16} {objectId : UInt64} {tree : Nat} {e : Event} {fault : Fault}

/-- An option that fits has the object id before the next tree is opened. -/
inductive Recurs (settings : Settings) (objectId : UInt64) : List Event → Prop where
  /-- the first event is such an option -/
  | head {e : Event} {es : List Event} {q : Asking} :
      Asking.ofEvent e = some q → q.Fits settings → q.fields.objectId = objectId →
      Recurs settings objectId (e :: es)
  /-- there is one behind an event in the same tree -/
  | tail {e : Event} {es : List Event} :
      e.opensTree = false → Recurs settings objectId es → Recurs settings objectId (e :: es)

theorem recurs_cons_iff {es : List Event} :
    Recurs settings objectId (e :: es) ↔
      (∃ q, Asking.ofEvent e = some q ∧ q.Fits settings ∧ q.fields.objectId = objectId) ∨
        e.opensTree = false ∧ Recurs settings objectId es := by
  constructor
  · rintro (⟨hq, hfits, hobject⟩ | ⟨hopen, hes⟩)
    · exact .inl ⟨_, hq, hfits, hobject⟩
    · exact .inr ⟨hopen, hes⟩
  · rintro (⟨q, hq, hfits, hobject⟩ | ⟨hopen, hes⟩)
    · exact .head hq hfits hobject
    · exact .tail hopen hes

namespace Candidate

/-- An option that fits has an object id just if its question has the id that belongs to it. -/
theorem exists_asking_iff_fitting (hid : questionId settings objectId = .ok id) :
    (∃ q, Asking.ofEvent e = some q ∧ q.Fits settings ∧ q.fields.objectId = objectId) ↔
      ∃ c, fitting? settings e = some (c, id) := by
  constructor
  · rintro ⟨q, hq, hfits, rfl⟩
    obtain ⟨⟨c, i⟩, hfit⟩ := exists_fitting hq hfits
    obtain ⟨q', hq', -, -, hfields, hi⟩ := asking_of_fitting hfit
    obtain rfl := Option.some.inj (hq'.symm.trans hq)
    rw [hfields] at hi
    obtain rfl := Except.ok.inj (hi.symm.trans hid)
    exact ⟨c, hfit⟩
  · rintro ⟨c, hfit⟩
    obtain ⟨q, hq, hfits, -, hfields, hi⟩ := asking_of_fitting hfit
    exact ⟨q, hq, hfits, hfields ▸ questionId_injective hi hid⟩

/-- Candidates are no roots of trees. -/
theorem opensTree_of_ofEvent {x : Except Fault (Candidate × UInt16)}
    (hx : ofEvent settings e = some x) : e.opensTree = false := by
  cases e with
  | enter => cases hx
  | exit | value | numeric | text => rfl

/-- Whether a candidate fits does not depend on locks. -/
theorem fit_ne_writeProtected (settings : Settings) (c : Candidate) (name : String) :
    fit settings c ≠ .error (.writeProtected name) := by
  intro h
  simp only [fit, questionId, requireName] at h
  split at h
  · split at h <;> cases h
  · cases h

theorem ofText_ne_writeProtected (settings : Settings) (o : TextOption) (name : String) :
    ofText settings o ≠ .error (.writeProtected name) := by
  unfold ofText textDefault Field.text
  split
  · split
    · nofun
    · split <;> nofun
  · nofun

/-- No candidate is unfit because of its variable. -/
theorem ne_writeProtected_of_unfit (hx : ofEvent settings e = some (.error fault)) (name : String) :
    fault ≠ .writeProtected name := by
  rintro rfl
  cases e with
  | enter | exit | value => cases hx
  | numeric o => exact fit_ne_writeProtected _ _ _ (Option.some.inj hx)
  | text o =>
    cases hk : o.kind with
    | comment => simp [ofEvent, hk] at hx
    | varchar =>
      simp only [ofEvent, hk, Option.some.injEq] at hx
      cases hc : ofText settings o with
      | ok c => exact fit_ne_writeProtected settings c name (by rwa [hc] at hx)
      | error f =>
        rw [hc] at hx
        obtain rfl := Except.error.inj hx
        exact ofText_ne_writeProtected _ _ _ hc

end Candidate

namespace Draft

/-! ## Drafts that differ in the ids in use

The ids in use are looked at in one place only, when an option asks for one. Everything else in a
step commutes with replacing them.
-/

/-- The draft with other ids in use. -/
def withIssued (d : Draft) (ids : List UInt16) : Draft := { d with issued := ids }

/-- Two drafts make the same menu over the same store. They may differ in the ids in use. -/
structure Alike (d d' : Draft) : Prop where
  /-- the variables and the locks are the same -/
  store_eq : d'.store = d.store
  /-- the lines are the same -/
  elements_eq : d'.elements = d.elements
  /-- the same variables were created -/
  provisioned_eq : d'.provisioned = d.provisioned
  /-- the same variables do not fit -/
  storageFaults_eq : d'.storageFaults = d.storageFaults

theorem Alike.refl (d : Draft) : d.Alike d := ⟨rfl, rfl, rfl, rfl⟩

theorem Alike.eq_withIssued (h : d.Alike d') : d' = d.withIssued d'.issued := by
  obtain ⟨store, issued, elements, provisioned, storageFaults⟩ := d'
  obtain ⟨rfl, rfl, rfl, rfl⟩ := h
  rfl

/-- The ids in use are nothing to a variable. -/
theorem createVariable_withIssued (d : Draft) (ids : List UInt16) (c : Candidate) :
    (d.withIssued ids).createVariable c = (d.createVariable c).map (·.withIssued ids) := by
  unfold createVariable
  simp only [withIssued]
  cases d.store.size? c.name with
  | none =>
    show Except.map _ (d.store.set ..) = Except.map _ (Except.map _ (d.store.set ..))
    cases d.store.set c.name c.fields.flags.attributes c.stored <;> rfl
  | some size =>
    simp only
    split <;> rfl

theorem applyPolicy_withIssued (policy : Policy) (d : Draft) (ids : List UInt16) (c : Candidate) :
    applyPolicy policy (d.withIssued ids) c = (applyPolicy policy d c).withIssued ids := by
  unfold applyPolicy
  split <;> rfl

/-- A variable that cannot be created is locked. -/
theorem createVariable_eq_error (h : d.createVariable c = .error fault) :
    fault = .writeProtected c.name := by
  unfold createVariable Store.set at h
  split at h
  · split at h
    · exact (Except.error.inj h).symm
    · cases h
  · split at h <;> cases h

/-! ## One step

A step is determined by the five cases of `Stepped`, so that two drafts that are in the same case
step alike. The cases differ by the id of the option and by nothing else.
-/

/-- A step has one outcome. -/
theorem Stepped.eq {r : Except Fault Unit × Draft} (h : Stepped settings policy d tree e r) :
    step settings policy d e = r := by
  have hs := stepped settings policy d tree e
  generalize step settings policy d e = s at hs
  -- the candidate, its id and its variable leave one case on both sides
  cases h <;> cases hs <;> grind

/-- Drafts that agree on the id of a candidate step alike. -/
theorem Stepped.withIssued {r : Except Fault Unit × Draft}
    (h : Stepped settings policy d tree e r)
    (hids : ∀ c id, Candidate.fitting? settings e = some (c, id) → (id ∈ ids ↔ id ∈ d.issued)) :
    ∃ ids', Stepped settings policy (d.withIssued ids) tree e (r.1, r.2.withIssued ids') := by
  -- the drafts agree on the only id that the step asks for
  have hagree {c : Candidate} {id : UInt16}
      (hx : Candidate.ofEvent settings e = some (.ok (c, id))) : id ∈ ids ↔ id ∈ d.issued :=
    hids c id (Candidate.fitting?_eq_some_iff.mpr hx)
  have hcreate (c : Candidate) (id : UInt16) :
      createVariable ((d.withIssued ids).withIssued (id :: ids)) c =
        (createVariable { d with issued := id :: d.issued } c).map (·.withIssued (id :: ids)) :=
    createVariable_withIssued { d with issued := id :: d.issued } (id :: ids) c
  cases h with
  | plain hx => exact ⟨_, .plain hx⟩
  | unfit hx => exact ⟨_, .unfit hx⟩
  | used hx hid => exact ⟨_, .used hx ((hagree hx).mpr hid)⟩
  | @barred c id fault hx hid hv =>
    refine ⟨id :: ids, .barred hx (mt (hagree hx).mp hid) ?_⟩
    exact (hcreate c id).trans (by rw [hv]; rfl)
  | @taken c id d' hx hid hv =>
    have htaken : Stepped settings policy (d.withIssued ids) tree e _ :=
      .taken hx (mt (hagree hx).mp hid) ((hcreate c id).trans (congrArg _ hv))
    rw [applyPolicy_withIssued] at htaken
    exact ⟨id :: ids, htaken⟩

/-- An id is in use after a step if the step opens no tree, and the id was in use before or an
option that fits has it. -/
theorem mem_issued_step {i : UInt16} :
    i ∈ (step settings policy d e).2.issued ↔
      e.opensTree = false ∧
        (i ∈ d.issued ∨ ∃ c, Candidate.fitting? settings e = some (c, i)) := by
  have hs := stepped settings policy d 0 e
  generalize step settings policy d e = r at hs
  simp only [Candidate.fitting?_eq_some_iff]
  have hfitting {c : Candidate} {id : UInt16} :
      (∃ c', (some (.ok (c, id)) : Option (Except Fault _)) = some (.ok (c', i))) ↔ i = id := by
    simp [eq_comm]
  cases hs with
  | plain hx => cases e.opensTree <;> simp [hx]
  | unfit hx => simp [hx, Candidate.opensTree_of_ofEvent hx]
  | used hx hid =>
    rw [hx, hfitting, and_iff_right (Candidate.opensTree_of_ofEvent hx)]
    exact (or_iff_left_of_imp (· ▸ hid)).symm
  | barred hx hid hv =>
    rw [hx, hfitting, and_iff_right (Candidate.opensTree_of_ofEvent hx)]
    exact List.mem_cons.trans or_comm
  | @taken c id d' hx hid hv =>
    rw [hx, hfitting, and_iff_right (Candidate.opensTree_of_ofEvent hx)]
    show i ∈ (applyPolicy policy d' c).issued ↔ _
    rw [(applyPolicy_frame policy d' c).2.1, (createVariable_frame hv).2]
    exact List.mem_cons.trans or_comm

/-! ## An id held back

The two drafts go side by side until an option asks for the id, which the one still has, or until
the root of the next tree makes both let go of all ids. The induction is on the events.
-/

/-- The second draft is like the first, but has one more id in use. -/
structure Reserves (id : UInt16) (d d' : Draft) : Prop extends Alike d d' where
  /-- the first draft has not used the id -/
  fresh : id ∉ d.issued
  /-- the second uses it, and else the same ids -/
  mem_issued_iff : ∀ i, i ∈ d'.issued ↔ i = id ∨ i ∈ d.issued

/-- The two drafts go on alike when an option asks for another id, or none. -/
theorem Reserves.next (policy : Policy) (h : Reserves id d d') (hopen : e.opensTree = false)
    (hother : ¬∃ c, Candidate.fitting? settings e = some (c, id)) :
    (step settings policy d' e).1 = (step settings policy d e).1 ∧
      Reserves id (step settings policy d e).2 (step settings policy d' e).2 := by
  have hagree (c : Candidate) (i : UInt16)
      (hfit : Candidate.fitting? settings e = some (c, i)) : i ∈ d'.issued ↔ i ∈ d.issued :=
    (h.mem_issued_iff i).trans (or_iff_right fun hi => hother ⟨c, hi ▸ hfit⟩)
  obtain ⟨ids, hstep⟩ := (stepped settings policy d 0 e).withIssued hagree
  have hmem (i : UInt16) : i ∈ (step settings policy d' e).2.issued ↔
      i = id ∨ i ∈ (step settings policy d e).2.issued := by
    rw [mem_issued_step, mem_issued_step, h.mem_issued_iff, and_iff_right hopen,
      and_iff_right hopen, or_assoc]
  have hnew : id ∉ (step settings policy d e).2.issued := fun hi =>
    (mem_issued_step.mp hi).2.elim h.fresh hother
  rw [← h.eq_withIssued] at hstep
  rw [hstep.eq] at hmem ⊢
  exact ⟨rfl, ⟨rfl, rfl, rfl, rfl⟩, hnew, hmem⟩

/-- When a tree is opened, the ids in use are forgotten. -/
theorem Alike.step_of_opensTree (h : d.Alike d') (hopen : e.opensTree = true) :
    step settings policy d' e = step settings policy d e := by
  obtain ⟨form, rfl, hdepth⟩ : ∃ form, e = .enter form ∧ form.depth = 0 := by
    cases e with
    | enter form => exact ⟨form, rfl, of_decide_eq_true hopen⟩
    | exit | value | numeric | text => cases hopen
  rw [h.eq_withIssued]
  simp only [Draft.step, if_pos hdepth]
  rfl

/-- An option that asks for the id is a duplicate to the second draft only. -/
theorem Reserves.step_ne (policy : Policy) (h : Reserves id d d')
    (hfit : Candidate.fitting? settings e = some (c, id)) :
    (step settings policy d' e).1 = .error (.duplicateObjectId c.fields.objectId c.name) ∧
      (step settings policy d e).1 ≠ .error (.duplicateObjectId c.fields.objectId c.name) := by
  have hx := Candidate.fitting?_eq_some_iff.mp hfit
  have hused : Stepped settings policy d' 0 e _ := .used hx ((h.mem_issued_iff id).mpr (.inl rfl))
  refine ⟨by rw [hused.eq], ?_⟩
  cases hv : createVariable { d with issued := id :: d.issued } c with
  | error fault =>
    have hbarred : Stepped settings policy d 0 e _ := .barred hx h.fresh hv
    rw [hbarred.eq, createVariable_eq_error hv]
    nofun
  | ok d'' =>
    have htaken : Stepped settings policy d 0 e _ := .taken hx h.fresh hv
    rw [htaken.eq]
    nofun

/-- **An id held back.** The two drafts answer alike and make the same menu, unless an option asks
for the id before the next tree is opened. -/
theorem Reserves.answers_eq_iff (h : Reserves id d d')
    (hid : Candidate.questionId settings objectId = .ok id) (es : List Event) :
    ((step settings policy).answers d' es = (step settings policy).answers d es ∧
        Alike ((step settings policy).feed d es) ((step settings policy).feed d' es)) ↔
      ¬Recurs settings objectId es := by
  induction es generalizing d d' with
  | nil => exact ⟨fun _ => nofun, fun _ => ⟨rfl, h.toAlike⟩⟩
  | cons e es ih =>
    rw [recurs_cons_iff, Candidate.exists_asking_iff_fitting hid]
    simp only [Callback.answers, List.cons.injEq, Callback.feed_cons]
    by_cases hfit : ∃ c, Candidate.fitting? settings e = some (c, id)
    · -- the drafts part here
      obtain ⟨c, hc⟩ := hfit
      obtain ⟨hdup, hnot⟩ := h.step_ne policy hc
      exact ⟨fun hsame => absurd (hsame.1.1.symm.trans hdup) hnot,
        fun hnone => absurd (.inl ⟨c, hc⟩) hnone⟩
    · cases hopen : e.opensTree with
      | true =>
        -- from here on they are one
        rw [h.step_of_opensTree hopen]
        exact ⟨fun _ => by simp [hfit], fun _ => ⟨⟨rfl, rfl⟩, .refl _⟩⟩
      | false =>
        obtain ⟨hanswer, hnext⟩ := h.next policy hopen hfit
        rw [and_iff_right hanswer, ih hnext, or_iff_right hfit, and_iff_right rfl]

/-! ## Refusals

A refused option leaves its id in use only if the id was found free and the variable could not be
made. That is the one case in which a refusal is not without a trace.
-/

/-- A refusal leaves a draft as it was, or its option fits and the variable is locked. Then the id
of the option is in use. -/
theorem step_of_refused (hrefused : (step settings policy d e).1 = .error fault) :
    ((step settings policy d e).2 = d ∧ ∀ name, fault ≠ .writeProtected name) ∨
      ∃ c id, Candidate.fitting? settings e = some (c, id) ∧ fault = .writeProtected c.name ∧
        Reserves id d (step settings policy d e).2 := by
  have hs := stepped settings policy d 0 e
  generalize step settings policy d e = r at hs hrefused
  cases hs with
  | plain | taken => cases hrefused
  | unfit hx =>
    obtain rfl := Except.error.inj hrefused
    exact .inl ⟨rfl, Candidate.ne_writeProtected_of_unfit hx⟩
  | used =>
    obtain rfl := Except.error.inj hrefused
    exact .inl ⟨rfl, nofun⟩
  | @barred c id fault' hx hid hv =>
    obtain rfl := Except.error.inj hrefused
    exact .inr ⟨c, id, Candidate.fitting?_eq_some_iff.mpr hx, createVariable_eq_error hv,
      ⟨rfl, rfl, rfl, rfl⟩, hid, fun _ => List.mem_cons⟩

/-- **A refusal leaves no trace but an id.** Take any calls over any store, and one of them that is
refused. All calls behind it are answered as they are without it, and the menu and the store come
out the same, just if this holds: when the option is refused because its variable is locked, no
option that fits has its object id before the next tree is opened. -/
theorem refusal_traceless_iff (settings : Settings) (policy : Policy) (store : Store)
    (before : List Event) (e : Event) (later : List Event) {fault : Fault}
    (hrefused : (step settings policy ((step settings policy).feed { store } before) e).1 =
      .error fault) :
    let f := step settings policy
    (f.answers (f.feed { store } (before ++ [e])) later =
          f.answers (f.feed { store } before) later ∧
        Alike (f.feed { store } (before ++ later)) (f.feed { store } (before ++ e :: later))) ↔
      ∀ q, Asking.ofEvent e = some q → fault = .writeProtected q.name →
        ¬Recurs settings q.fields.objectId later := by
  intro f
  simp only [Callback.feed_append, Callback.feed_cons, Callback.feed_nil]
  generalize f.feed { store } before = d at hrefused
  rcases step_of_refused hrefused with ⟨hsame, hfault⟩ | ⟨c, id, hfit, hfault, hreserves⟩
  · rw [hsame]
    exact ⟨fun _ q _ hname => absurd hname (hfault _), fun _ => ⟨rfl, .refl _⟩⟩
  · obtain ⟨q, hq, -, hname, hfields, hid⟩ := Candidate.asking_of_fitting hfit
    rw [hreserves.answers_eq_iff hid, hfields]
    constructor
    · intro hnone q' hq' _
      obtain rfl := Option.some.inj (hq.symm.trans hq')
      exact hnone
    · exact fun hnone => hnone q hq (hname ▸ hfault)

/-- The call of a number option. -/
def askNumber (name : String) (objectId : UInt64) : Event :=
  .numeric ⟨0, 60, .number, ⟨objectId, 0, ⟨0⟩⟩, 1, name, name, none, []⟩

/-- An option behind one that is locked away is answered as if that one were not there. -/
theorem refusal_traceless_otherId :
    let f := step {} .store
    let store : Store := { locked := ["A"] }
    f.answers (f.feed { store } ([] ++ [askNumber "A" 5])) [askNumber "B" 6] =
        f.answers (f.feed { store } []) [askNumber "B" 6] ∧
      Alike (f.feed { store } ([] ++ [askNumber "B" 6]))
        (f.feed { store } ([] ++ askNumber "A" 5 :: [askNumber "B" 6])) := by
  have hrefused : (step {} .store ((step {} .store).feed { store := { locked := ["A"] } } [])
      (askNumber "A" 5)).1 = .error (.writeProtected "A") := by decide +kernel
  refine (refusal_traceless_iff {} .store { locked := ["A"] } [] (askNumber "A" 5)
    [askNumber "B" 6] hrefused).mpr ?_
  rintro _ ⟨⟩ - hrecurs
  rcases recurs_cons_iff.mp hrecurs with ⟨_, ⟨⟩, -, hid⟩ | ⟨-, hnil⟩
  · cases hid
  · cases hnil

/-- With the same object id it is a duplicate, though no question has the id. -/
theorem refusal_leaves_duplicate :
    let f := step {} .store
    let store : Store := { locked := ["A"] }
    (f { store } (askNumber "A" 5)).1 = .error (.writeProtected "A") ∧
      f.answers (f.feed { store } [askNumber "A" 5]) [askNumber "B" 5] =
        [.error (.duplicateObjectId 5 "B")] ∧
      f.answers { store } [askNumber "B" 5] = [.ok ()] := by
  decide +kernel

end Draft

end Menu

end SetupForms
