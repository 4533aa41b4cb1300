import SetupForms.Proofs.Accounting
import SetupForms.Proofs.Provision
import SetupForms.Proofs.Showing

/-!
# What a build makes of trees

A build is led through the same acts as a walk in which nothing is refused, and it takes and refuses
just what `judge` says of them (`Draft.verdicts_acts`). Hence its lines and its report are those of
the acts with these verdicts (`build_eq_judged`), and the store gets the variables of the options
that were taken (`build_store`).

The draft of a build knows less than the acts do: of the acts before it keeps the elements, the
store and the ids in use. `Provides` (from `Provision`) says what the store then is, and `IssuedIn`
says which ids are in use, both in terms of the acts. Each step keeps both, and from both it follows
what the step does (`step_eq_judge`). The acts of a tree start with its root, where the ids are
forgotten, and that is why judgement looks at the acts of one tree only.
-/

namespace SetupForms

/-! ## The acts of a tree

An option that is called for has been decoded whole, so whatever is asked of it can be asked.
-/

/-- A walk enters the root and stays inside the tree until the next. -/
theorem Tree.acts_eq_enter {t : Tree} (ht : Tree.ofBytes t.bytes = .ok t) (limits : Limits)
    (index : Nat) :
    ∃ as, (Node.ofTree limits t).acts index = .call index (.enter t.root) :: as ∧
      ∀ a ∈ as, a.Inside index := by
  refine ⟨_, rfl, fun a ha => ?_⟩
  rcases List.mem_append.mp ha with ha | ha
  · exact (Tree.accounts_root ht limits index).inside a ha
  · obtain rfl := List.mem_singleton.mp ha
    exact ⟨rfl, rfl, nofun⟩

namespace Menu

variable {settings : Settings} {policy : Policy} {store : Store} {limits : Limits}
  {taken : List Candidate} {past : List Act} {tree : Nat} {e : Event} {d : Draft}

/-- A complete option asks for a question. -/
theorem exists_asking_of_complete (hasks : asks e = true)
    (hc : ∀ o, e = .text o → o.Complete) : ∃ q, Asking.ofEvent e = some q := by
  cases e with
  | enter | exit | value => cases hasks
  | numeric o => exact ⟨_, rfl⟩
  | text o =>
    have hk : o.kind = .varchar := of_decide_eq_true hasks
    have hcomplete := hc o rfl
    rw [TextOption.Complete, hk] at hcomplete
    obtain ⟨⟨name, hname⟩, field, hfield⟩ := hcomplete
    exact ⟨_, Asking.ofEvent_text_eq_some_iff.mpr ⟨hk, name, field, hname, hfield, rfl⟩⟩

/-- Whatever an option with a value asks is known. -/
theorem exists_asking_of_mem_acts {trees : List Tree}
    (hts : ∀ t ∈ trees, Tree.ofBytes t.bytes = .ok t) {first : Nat}
    (he : .call tree e ∈ Walk.acts limits first trees) (hasks : asks e = true) :
    ∃ q, Asking.ofEvent e = some q := by
  induction trees generalizing first with
  | nil => cases he
  | cons t ts ih =>
    obtain ⟨ht, hrest⟩ := List.forall_mem_cons.mp hts
    obtain ⟨as, hacts, hinside⟩ := Tree.acts_eq_enter ht limits first
    rw [Walk.acts, hacts] at he
    rcases List.mem_append.mp he with he | he
    · rcases List.mem_cons.mp he with heq | he
      · cases heq
        cases hasks
      · exact exists_asking_of_complete hasks (hinside _ he).2.2
    · exact ih hrest he

namespace Draft

/-! ## Ids

The ids in use are those of the options of the same tree that had a fitting question, taken or
refused.
-/

/-- The ids that are issued are those that options have used in the tree. -/
def IssuedIn (settings : Settings) (past : List Act) (tree : Nat) (d : Draft) : Prop :=
  ∀ objectId id, Candidate.questionId settings objectId = .ok id →
    (id ∈ d.issued ↔ objectId ∈ usedIds settings past tree)

/-- A call adds the id of its option, if that is fit for a question. -/
theorem mem_usedIds_call {objectId : UInt64} :
    objectId ∈ usedIds settings (past ++ [.call tree e]) tree ↔
      objectId ∈ usedIds settings past tree ∨
        ∃ r, Candidate.fitting? settings e = some r ∧ r.1.fields.objectId = objectId := by
  rw [usedIds, List.filterMap_append, List.mem_append, ← usedIds]
  refine or_congr_right ?_
  rw [List.mem_filterMap]
  constructor
  · rintro ⟨a, ha, hused⟩
    obtain rfl := List.mem_singleton.mp ha
    rw [used?, if_pos rfl] at hused
    exact Option.map_eq_some_iff.mp hused
  · intro h
    refine ⟨_, List.mem_singleton_self _, ?_⟩
    rw [used?, if_pos rfl]
    exact Option.map_eq_some_iff.mpr h

theorem IssuedIn.note (h : d.IssuedIn settings past tree) (n : Diagnostic) :
    d.IssuedIn settings (past ++ [.note n]) tree := by
  intro objectId id hid
  rw [h objectId id hid, usedIds, usedIds, List.filterMap_append]
  exact (List.append_nil _).symm ▸ Iff.rfl

theorem IssuedIn.call_of_not_fitting (h : d.IssuedIn settings past tree)
    (hx : ∀ r, Candidate.ofEvent settings e ≠ some (.ok r)) {d' : Draft}
    (hd : d'.issued = d.issued) : d'.IssuedIn settings (past ++ [.call tree e]) tree := by
  intro objectId id hid
  rw [hd, h objectId id hid, mem_usedIds_call]
  exact ⟨.inl, fun hm => hm.resolve_right fun ⟨r, hr, _⟩ =>
    hx r (Candidate.fitting?_eq_some_iff.mp hr)⟩

/-- A call whose option has one uses its id. -/
theorem IssuedIn.call_of_fitting {c : Candidate} {id : UInt16} (h : d.IssuedIn settings past tree)
    (hx : Candidate.ofEvent settings e = some (.ok (c, id))) {d' : Draft}
    (hd : ∀ i, i ∈ d'.issued ↔ i = id ∨ i ∈ d.issued) :
    d'.IssuedIn settings (past ++ [.call tree e]) tree := by
  have hfit := Candidate.fitting?_eq_some_iff.mpr hx
  have hid := Candidate.questionId_of_ofEvent hx
  intro objectId i hi
  rw [hd, h objectId i hi, mem_usedIds_call, or_comm]
  refine or_congr_right ?_
  constructor
  · rintro rfl
    exact ⟨_, hfit, Candidate.questionId_injective hid hi⟩
  · rintro ⟨r, hr, rfl⟩
    obtain rfl := Option.some.inj (hfit.symm.trans hr)
    exact Except.ok.inj (hi.symm.trans hid)

/-- **One step judges.** Inside a tree a step takes and refuses what is judged so. -/
theorem step_eq_judge (hprov : d.Provides policy store taken) (h : d.IssuedIn settings past tree)
    (he : e.opensTree = false) :
    (step settings policy d e).1 = judge settings store past tree e ∧
      (step settings policy d e).2.IssuedIn settings (past ++ [.call tree e]) tree := by
  have hissue (id : UInt16) : Provides policy store taken { d with issued := id :: d.issued } :=
    hprov.of_eq rfl rfl rfl
  have hs := stepped settings policy d tree e
  -- The cases are those of what a step can do. The first two ask for nothing that could be refused
  -- later, and use no id.
  generalize step settings policy d e = r at hs
  cases hs with
  | plain hx =>
    refine ⟨by rw [judge, hx], h.call_of_not_fitting (fun r hr => ?_) (if_neg (he ▸ nofun))⟩
    cases hx.symm.trans hr
  | unfit hx =>
    refine ⟨by rw [judge, hx]; rfl, h.call_of_not_fitting (fun r hr => ?_) rfl⟩
    cases hx.symm.trans hr
  | @used c id hx hid =>
    -- the id was in use before, so its use once more changes nothing
    have hmem : c.fields.objectId ∈ usedIds settings past tree :=
      (h _ _ (Candidate.questionId_of_ofEvent hx)).mp hid
    refine ⟨?_, h.call_of_fitting hx fun i => ⟨.inr, fun hi => hi.elim (· ▸ hid) (·)⟩⟩
    rw [judge_of_fitting hx, requireFresh, if_pos hmem]
    rfl
  | @barred c id fault hx hid hv =>
    refine ⟨?_, h.call_of_fitting hx fun i => List.mem_cons⟩
    have hmem := mt (h _ _ (Candidate.questionId_of_ofEvent hx)).mpr hid
    -- the id is new, and it is in use from here on although the variable is refused
    cases hbars : store.bars c.name with
    | true =>
      rw [judge_of_fitting hx, requireFresh, if_neg hmem, requireWritable, if_pos hbars]
      obtain rfl := Except.error.inj (((hissue id).createVariable_of_bars hbars).symm.trans hv)
      rfl
    | false =>
      obtain ⟨d', hd', -⟩ := (hissue id).add hbars
      cases hd'.symm.trans hv
  | @taken c id d' hx hid hv =>
    have hmem := mt (h _ _ (Candidate.questionId_of_ofEvent hx)).mpr hid
    -- the variable was made, so nothing barred it
    have hbars := (hissue id).bars_of_createVariable hv
    refine ⟨?_, h.call_of_fitting hx fun i => ?_⟩
    · rw [judge_of_fitting hx, requireFresh, if_neg hmem, requireWritable, hbars]
      rfl
    · show i ∈ (applyPolicy policy d' c).issued ↔ _
      rw [(applyPolicy_frame policy d' c).2.1, (createVariable_frame hv).2]
      exact List.mem_cons

/-- **A tree is judged.** Inside a tree a build takes and refuses what is judged so. -/
theorem verdicts_inside (hprov : d.Provides policy store taken) (h : d.IssuedIn settings past tree)
    {as : List Act} (has : ∀ a ∈ as, a.Inside tree) :
    (step settings policy).verdicts d as = Act.judged (judge settings store) past as := by
  induction as generalizing d taken past with
  | nil => rfl
  | cons a as ih =>
    obtain ⟨ha, hall⟩ := List.forall_mem_cons.mp has
    cases a with
    | note n => exact congrArg _ (ih hprov (h.note n) hall)
    | call t e =>
      obtain ⟨rfl, he, -⟩ := ha
      obtain ⟨hverdict, hissued⟩ := step_eq_judge hprov h he
      rw [Callback.verdicts, Act.judged, hverdict, ih (hprov.step settings t e) hissued hall]

/-- **A build is judged.** It takes and refuses what is judged of its acts, provided that the acts
before were in other trees. -/
theorem verdicts_acts (hprov : d.Provides policy store taken) {ts : List Tree}
    (hts : ∀ t ∈ ts, Tree.ofBytes t.bytes = .ok t) {first : Nat}
    (hpast : ∀ tree e, .call tree e ∈ past → tree < first) :
    (step settings policy).verdicts d (Walk.acts limits first ts) =
      Act.judged (judge settings store) past (Walk.acts limits first ts) := by
  induction ts generalizing first d taken past with
  | nil => rfl
  | cons t ts ih =>
    obtain ⟨ht, hrest⟩ := List.forall_mem_cons.mp hts
    obtain ⟨as, hacts, hinside⟩ := Tree.acts_eq_enter ht limits first
    have hdepth : t.root.depth = 0 := (Form.decode_eq_ok (Tree.ofBytes_eq_ok_iff.mp ht).2).2.1
    -- when the root is entered, no id is used in its tree yet
    have hissued : (step settings policy d (.enter t.root)).2.IssuedIn settings
        (past ++ [.call first (.enter t.root)]) first := by
      intro objectId id _
      have hused : objectId ∉ usedIds settings (past ++ [.call first (.enter t.root)]) first := by
        rw [mem_usedIds_call, mem_usedIds_iff]
        rintro (⟨e, r, hmem, -⟩ | ⟨r, hr, -⟩)
        · exact Nat.lt_irrefl _ (hpast first e hmem)
        · cases hr
      simp [step, hdepth, emit, hused]
    rw [Walk.acts, hacts, Callback.verdicts_append, Act.judged_append, Callback.verdicts,
      Act.judged, verdicts_inside (hprov.step settings first _) hissued hinside,
      ih (hprov.feed settings _) hrest fun tree e hmem => ?_]
    · rfl
    · rcases List.mem_append.mp hmem with hmem | hmem
      · exact Nat.lt_succ_of_lt (hpast tree e hmem)
      · rcases List.mem_cons.mp hmem with heq | hmem
        · exact (Act.call.inj heq).1 ▸ Nat.lt_succ_self first
        · exact (hinside _ hmem).1 ▸ Nat.lt_succ_self first

end Draft

/-- What a build takes of the options with a value fits. -/
theorem takenFit_verdicts (settings : Settings) (policy : Policy) (d : Draft) (as : List Act) :
    TakenFit settings ((Draft.step settings policy).verdicts d as) := by
  intro tree e hmem hasks
  obtain ⟨d', hverdict⟩ := Callback.exists_of_mem_verdicts hmem
  have hs := Draft.stepped settings policy d' tree e
  generalize Draft.step settings policy d' e = r at hs hverdict
  cases hs with
  | plain hx => cases hasks.symm.trans (Candidate.ofEvent_eq_none_iff.mp hx)
  | unfit | used | barred => cases hverdict
  | taken hx => exact ⟨_, Candidate.fitting?_eq_some_iff.mpr hx⟩

/-- Judgement by the store that a build starts with is acceptance by the store that it has got to:
what it has created since bars no name and lifts no bar. -/
theorem judge_eq_ok_iff_accepted {q : Asking} (hq : Asking.ofEvent e = some q) (policy : Policy) :
    judge settings store past tree e = .ok () ↔
      q.Accepted settings
        ((Draft.step settings policy).feed { store } (Act.events past)).store past tree :=
  have hprov := (Draft.provides_nil policy store).feed settings past
  have hbars := hprov.bars_eq q.name
  (judge_eq_ok_iff hq).trans ⟨(·.of_bars hbars), (·.of_bars hbars.symm)⟩

/-! ## The build of trees

A build is a walk whose callback is the step of a draft. What the walk notes and what the draft
collects are put together in the menu, and both come from the same verdicts.
-/

variable {trees : List Tree}

/-- The acts of a build with the verdicts that it comes to. -/
def verdicts (settings : Settings) (limits : Limits) (policy : Policy) (trees : List Tree)
    (store : Store) : List (Act × Except Fault Unit) :=
  (Draft.step settings policy).verdicts { store } (Walk.acts limits 0 trees)

/-- The draft that a build ends with. -/
def lastDraft (settings : Settings) (limits : Limits) (policy : Policy) (trees : List Tree)
    (store : Store) : Draft :=
  (Draft.step settings policy).feed { store } (Act.events (Walk.acts limits 0 trees))

/-- A build is made of its last draft. -/
theorem build_eq_lastDraft (settings : Settings) (limits : Limits) (policy : Policy)
    (trees : List Tree) (store : Store) :
    build settings limits policy trees store =
      (ofDraft (lastDraft settings limits policy trees store)
          (.ofVerdicts (verdicts settings limits policy trees store)),
        (lastDraft settings limits policy trees store).store) := by
  rw [build, Walk.trees_of_lenient (Draft.lenient_step settings policy)]
  rfl

/-- Its store is that of the candidates it has taken. -/
theorem provides_lastDraft (settings : Settings) (limits : Limits) (policy : Policy)
    (trees : List Tree) (store : Store) :
    (lastDraft settings limits policy trees store).Provides policy store
      (takenIn settings (verdicts settings limits policy trees store)) :=
  (Draft.provides_nil policy store).feed settings _

/-- Its elements are those of what it has taken. -/
theorem elements_lastDraft (settings : Settings) (limits : Limits) (policy : Policy)
    (trees : List Tree) (store : Store) :
    (lastDraft settings limits policy trees store).elements =
      shownIn settings (verdicts settings limits policy trees store) :=
  Draft.elements_feed settings policy { store } _

/-- Its verdicts are those of judgement. -/
theorem verdicts_eq_judged (settings : Settings) (limits : Limits) (policy : Policy)
    (store : Store) (hts : ∀ t ∈ trees, Tree.ofBytes t.bytes = .ok t) :
    verdicts settings limits policy trees store =
      Act.judged (judge settings store) [] (Walk.acts limits 0 trees) :=
  Draft.verdicts_acts (Draft.provides_nil policy store) hts fun _ _ h => absurd h List.not_mem_nil

/-- **A build refines judgement.** Let a walk in which nothing is refused do the acts. A build takes
and refuses what is judged of them, shows what it takes in their order, and reports the acts with
these verdicts, so that a refusal costs one diagnostic in its place. The lines are those that the
fields of the events call for, and no others. An option with a value is taken if and only if it is
accepted with the store that the build has at that moment; nothing else is refused. -/
theorem build_eq_judged (settings : Settings) (limits : Limits) (policy : Policy) (store : Store)
    (hts : ∀ t ∈ trees, Tree.ofBytes t.bytes = .ok t) :
    let acts := Walk.acts limits 0 trees
    let vs := Act.judged (judge settings store) [] acts
    let menu := (build settings limits policy trees store).1
    Walk.trees (Callback.recorder fun _ => none) limits 0 trees #[] =
        (.ofActs acts, (Act.events acts).toArray) ∧
      verdicts settings limits policy trees store = vs ∧
      (∀ lines, ShowsAll settings vs lines ↔ lines = menu.elements) ∧
      menu.report = .ofVerdicts vs ∧
      ∀ past tree e rest, acts = past ++ .call tree e :: rest →
        (asks e = true → ∃ q, Asking.ofEvent e = some q ∧
          (judge settings store past tree e = .ok () ↔
            q.Accepted settings
              ((Draft.step settings policy).feed { store } (Act.events past)).store past tree)) ∧
        (asks e = false → judge settings store past tree e = .ok ()) := by
  intro acts vs menu
  have hvs : verdicts settings limits policy trees store = vs :=
    verdicts_eq_judged settings limits policy store hts
  have hmenu : menu = ofDraft (lastDraft settings limits policy trees store) (.ofVerdicts vs) :=
    hvs ▸ congrArg Prod.fst (build_eq_lastDraft settings limits policy trees store)
  -- the lines of the menu show the acts, and at most one menu can
  have hshows : ShowsAll settings vs menu.elements := by
    have hlines : menu.elements = shownIn settings vs :=
      hvs ▸ hmenu ▸ elements_lastDraft settings limits policy trees store
    exact hlines ▸ showsAll_shownIn (hvs ▸ takenFit_verdicts settings policy { store } acts)
  refine ⟨?_, hvs, fun lines => ⟨(·.unique hshows), fun hl => hl ▸ hshows⟩,
    congrArg Menu.report hmenu, fun past tree e rest hsplit => ⟨?_, judge_of_not_asks⟩⟩
  · rw [Walk.trees_of_willing_acts Callback.willing_recorder, Callback.feed_recorder,
      Array.empty_append]
  · intro hasks
    have hmem : .call tree e ∈ acts := hsplit ▸ List.mem_append_right past List.mem_cons_self
    obtain ⟨q, hq⟩ := exists_asking_of_mem_acts hts hmem hasks
    exact ⟨q, hq, judge_eq_ok_iff_accepted hq policy⟩

/-- A tree of a number, of another one with the same object id, of a text under the name of the
first, and of a switch. -/
def clashes : Tree :=
  let number := Blueprint.OptionSpec.numeric .number ⟨2, 0, ⟨0⟩⟩ "a" "A" 7
  let bytes := Blueprint.encode <| .form ⟨1, 0, ⟨0⟩⟩ (some (.text .label "Boot"))
    [.option number, .option { number with name := some (.text .optionName "b") },
      .option (.varchar ⟨3, 0, ⟨0⟩⟩ "a" "S" "off"),
      .option (.numeric .bool ⟨4, 0, ⟨0⟩⟩ "c" "C" 1)] none
  ⟨bytes.toArray, ⟨0, 297, ⟨1, 0, ⟨0⟩⟩, "Boot", 0, 45, 297⟩⟩

theorem ofBytes_clashes : ∀ t ∈ [clashes], Tree.ofBytes t.bytes = .ok t := by
  refine List.forall_mem_singleton.mpr (Tree.ofBytes_eq_ok_iff.mpr ⟨rfl, ?_⟩)
  exact toOption_eq_some_iff.mp (by decide +kernel)

/-- In a store in which the name of the switch is locked, the second number is refused for its id
and the switch for the lock. -/
theorem build_eq_judged_clashes :
    let store : Store := { locked := ["c"] }
    let vs := Act.judged (judge {} store) [] (Walk.acts {} 0 [clashes])
    let menu := (build {} {} .store [clashes] store).1
    (∀ lines, ShowsAll {} vs lines ↔ lines = menu.elements) ∧ menu.report = .ofVerdicts vs :=
  have h := build_eq_judged {} {} .store { locked := ["c"] } ofBytes_clashes
  ⟨h.2.2.1, h.2.2.2.1⟩

/-- A variable that is made has the bytes and the attributes of the first option of its name. -/
theorem exists_holds_of_mem_created {settings : Settings} {store : Store}
    {options : List (Event × Asking)} {taken : List Candidate} {name : String}
    (hstands : List.Forall₂ (Candidate.StandsFor settings) options taken)
    (hname : name ∈ created store taken) :
    ∃ e q bytes, options.find? (·.2.name = name) = some (e, q) ∧ Holds settings e bytes ∧
      provided? store taken name = some ⟨bytes, q.fields.flags.attributes⟩ := by
  obtain ⟨hs, c, hc, hn⟩ := mem_created_iff.mp hname
  cases hf : taken.find? (·.name = name) with
  | none => exact absurd (decide_eq_true hn) (List.find?_eq_none.mp hf c hc)
  | some first =>
    obtain ⟨⟨e, q⟩, hfirst, hfor⟩ := exists_find?_of_standsFor hstands hf
    refine ⟨e, q, first.stored, hfirst, hfor.holds, ?_⟩
    rw [provided?, hs, hf, ← hfor.fields]
    rfl

/-- Candidates and the options that they stand for are read-only under the same names. -/
theorem exists_readOnly_iff_of_standsFor {settings : Settings} {options : List (Event × Asking)}
    {taken : List Candidate} {name : String}
    (hstands : List.Forall₂ (Candidate.StandsFor settings) options taken) :
    (∃ c ∈ taken, c.fields.flags.isReadOnly = true ∧ c.name = name) ↔
      ∃ x ∈ options, x.2.fields.flags.isReadOnly = true ∧ x.2.name = name := by
  have hmap := congrArg (fun l => ∃ x ∈ l, x.2.flags.isReadOnly = true ∧ x.1 = name)
    (map_eq_of_standsFor hstands)
  simpa only [List.mem_map, exists_exists_and_eq_and] using hmap.to_iff

/-- **What a build does to the store.** What existed is as it was. What the build has created is
listed once, in the order of the first options of each name that were taken, and holds the defaults
of these options under their attributes. The names of read-only options that were taken get locked
if the policy is to do so, and no others. An option of trees is taken if and only if it is accepted
with the store that the build has at that moment. -/
theorem build_store (settings : Settings) (limits : Limits) (policy : Policy) (trees : List Tree)
    (store : Store) :
    let vs := verdicts settings limits policy trees store
    let options := optionsIn vs
    let menu := (build settings limits policy trees store).1
    let after := (build settings limits policy trees store).2
    (∀ name v, store.get? name = some v → after.get? name = some v) ∧
      (∀ name, name ∈ menu.provisioned ↔ store.get? name = none ∧ after.get? name ≠ none) ∧
      menu.provisioned.Nodup ∧
      menu.provisioned =
        ((options.map (·.2.name)).filter fun name => (store.get? name).isNone).eraseDups ∧
      (∀ name ∈ menu.provisioned, ∃ e q bytes, options.find? (·.2.name = name) = some (e, q) ∧
        Holds settings e bytes ∧ after.get? name = some ⟨bytes, q.fields.flags.attributes⟩) ∧
      (∀ name, after.isLocked name = true ↔ store.isLocked name = true ∨
        policy = .store ∧
          ∃ x ∈ options, x.2.fields.flags.isReadOnly = true ∧ x.2.name = name) ∧
      ((∀ t ∈ trees, Tree.ofBytes t.bytes = .ok t) →
        ∀ past tree e verdict rest q, vs = past ++ (.call tree e, verdict) :: rest →
          Asking.ofEvent e = some q →
          let before := past.map Prod.fst
          (verdict = .ok () ↔ q.Accepted settings
            ((Draft.step settings policy).feed { store } (Act.events before)).store before
            tree)) := by
  intro vs options menu after
  let taken := takenIn settings vs
  have hprov := provides_lastDraft settings limits policy trees store
  have hbuild := build_eq_lastDraft settings limits policy trees store
  have hget : ∀ name, after.get? name = provided? store taken name := fun name =>
    (congrArg (·.2.get? name) hbuild).trans (hprov.get?_eq name)
  have hcreated : menu.provisioned = created store taken :=
    (congrArg (·.1.provisioned) hbuild).trans hprov.provisioned_eq
  -- the candidates that were taken stand one by one for the options
  have hstands : List.Forall₂ (Candidate.StandsFor settings) options taken :=
    forall₂_standsFor (takenFit_verdicts settings policy { store } (Walk.acts limits 0 trees))
  refine ⟨fun name v hv => ?_, fun name => ?_, ?_, ?_, fun name hname => ?_, fun name => ?_,
    fun hts past tree e verdict rest q hsplit hq => ?_⟩
  · rw [hget, provided?, hv, Option.some_or]
  · rw [hcreated, mem_created_iff_provided?, hget]
  · exact (congrArg (·.1.provisioned) hbuild) ▸ hprov.nodup
  · have hnames : taken.map (·.name) = options.map (·.2.name) := by
      simpa only [List.map_map, Function.comp_def] using
        congrArg (List.map Prod.fst) (map_eq_of_standsFor hstands)
    rw [hcreated, created, hnames]
  · obtain ⟨e, q, bytes, hfirst, hholds, hprovided⟩ :=
      exists_holds_of_mem_created hstands (hcreated ▸ hname)
    exact ⟨e, q, bytes, hfirst, hholds, (hget name).trans hprovided⟩
  · rw [congrArg (·.2.isLocked name = true) hbuild, hprov.isLocked_iff]
    exact or_congr_right (and_congr_right fun _ => exists_readOnly_iff_of_standsFor hstands)
  · have hvs : vs = Act.judged (judge settings store) [] (Walk.acts limits 0 trees) :=
      verdicts_eq_judged settings limits policy store hts
    rw [Act.judged_eq_append (hvs.symm.trans hsplit), List.nil_append]
    exact judge_eq_ok_iff_accepted hq policy

end Menu

end SetupForms
