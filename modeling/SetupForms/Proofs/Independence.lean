import Mathlib.Data.List.Lattice
import SetupForms.Proofs.Passes
import SetupForms.Proofs.StoredDefaults

/-!
# Trees that share no option name

A build looks up, creates and locks only variables of the options that its walk decodes, which are
named by `Walk.optionNames`. Over stores that agree on these names it makes the same menu, and they
go on agreeing (`Menu.build_of_agree`); all other names are left as they are (`Menu.build_frame`).
Hence two lists of trees that share no option name may be built in either order
(`Menu.build_append_comm`).

The proof has the shape of a separation argument. A frame property says what a build does not
change, an agreement property says what it does not look at, and both are about the same set of
names. For two builds with disjoint names the first does not change what the second looks at, so
that the second has the same effect before it as behind it.
-/

namespace SetupForms

open Menu

variable {settings : Menu.Settings} {limits : Limits} {policy : Policy} {trees : List Tree}
  {taken : List Candidate} {s t : Store} {names : List String} {name : String} {e : Event}

/-! ## Names of options

A name belongs to a walk if some option that the walk decodes bears it, whether the menu takes the
option or not. That is more than is created or locked, and it can be read off the trees.
-/

/-- The internal name of an option with a value. -/
def Event.optionName? : Event → Option String
  | numeric o => some o.name
  | text o =>
    match o.kind with
    | .varchar => o.name
    | .comment => none
  | enter _ | exit _ | value .. => none

namespace Walk

/-- The internal names of the options with a value that a walk through trees decodes. -/
def optionNames (limits : Limits) (trees : List Tree) : List String :=
  (calls limits 0 trees).filterMap fun c => c.2.optionName?

/-- The name of an option that is called back is one of the names. -/
theorem mem_optionNames_of_act {tree : Nat} (ha : .call tree e ∈ acts limits 0 trees)
    (hn : e.optionName? = some name) : name ∈ optionNames limits trees := by
  rw [optionNames, ← calls_acts]
  exact List.mem_filterMap.mpr ⟨(tree, e), Act.mem_calls_iff.mpr ha, hn⟩

end Walk

/-- Acts are judged alike if each of their calls is. -/
theorem Act.judged_congr {judge judge' : List Act → Nat → Event → Except Fault Unit}
    {past as : List Act}
    (h : ∀ past tree e, .call tree e ∈ as → judge' past tree e = judge past tree e) :
    judged judge' past as = judged judge past as := by
  induction as generalizing past with
  | nil => rfl
  | cons a as ih =>
    -- the judgement of the rest starts from other acts, but it is about calls of the list all the
    -- same
    have hrest := fun past => @ih past fun past tree e he =>
      h past tree e (List.mem_cons_of_mem a he)
    cases a with
    | note d => exact congrArg _ (hrest _)
    | call tree e => rw [judged, judged, hrest, h past tree e List.mem_cons_self]

/-- The stores have the same variables under the names, and the same of these names are locked. -/
structure Store.AgreeOn (names : List String) (s t : Store) : Prop where
  /-- the variables are the same -/
  get?_eq : ∀ name ∈ names, t.get? name = s.get? name
  /-- the locks are the same -/
  isLocked_eq : ∀ name ∈ names, t.isLocked name = s.isLocked name

namespace Menu

/-- A candidate bears the name of its option. -/
theorem Candidate.optionName_of_fitting {r : Candidate × UInt16}
    (h : fitting? settings e = some r) : e.optionName? = some r.1.name := by
  rcases exists_of_fitting h with ⟨o, rfl, hfit⟩ | ⟨o, c, rfl, hk, hc, hfit⟩
  · obtain ⟨-, -, hr⟩ := fit_eq_ok_iff.mp hfit
    rw [hr]
    rfl
  · obtain ⟨-, -, hr⟩ := fit_eq_ok_iff.mp hfit
    obtain ⟨name, field, text, units, hname, -, -, rfl⟩ := ofText_eq_ok hc
    simp only [Event.optionName?, hk, hname, hr]

/-! ## What a build leaves alone

Only the candidates that were taken touch the store, and each of them touches its own name.
-/

/-- A candidate that was taken has one of the names. -/
theorem name_mem_of_taken {c : Candidate}
    (hc : c ∈ takenIn settings (verdicts settings limits policy trees s)) :
    c.name ∈ Walk.optionNames limits trees := by
  obtain ⟨tree, e, id, hmem, hfit⟩ := exists_of_mem_takenIn hc
  rw [verdicts, Callback.map_fst_verdicts] at hmem
  exact Walk.mem_optionNames_of_act hmem (Candidate.optionName_of_fitting hfit)

/-- **Frame.** Names that no option of the trees bears keep their variables and locks. -/
theorem build_frame (settings : Settings) (policy : Policy) (s : Store)
    (hn : name ∉ Walk.optionNames limits trees) :
    let after := (build settings limits policy trees s).2
    after.get? name = s.get? name ∧ after.isLocked name = s.isLocked name := by
  have hprov := provides_lastDraft settings limits policy trees s
  have hne {c : Candidate}
      (hc : c ∈ takenIn settings (verdicts settings limits policy trees s)) : c.name ≠ name :=
    fun hname => hn (hname ▸ name_mem_of_taken hc)
  rw [build_eq_lastDraft]
  constructor
  · rw [hprov.get?_eq, provided?, List.find?_eq_none.mpr fun c hc h => hne hc (of_decide_eq_true h)]
    exact Option.or_none
  · refine Bool.eq_iff_iff.mpr ((hprov.isLocked_iff name).trans (or_iff_left ?_))
    rintro ⟨-, c, hc, -, hname⟩
    exact hne hc hname

/-! ## What a build looks at

The judgement asks the store only whether a variable is barred, and provisioning asks only for the
variable of the candidate. So each part of the result is computed from the store at the names alone.
-/

/-- An option is judged with a store that knows of its name alone. -/
theorem judge_of_agree (h : s.AgreeOn names t)
    (hn : ∀ name, e.optionName? = some name → name ∈ names) (past : List Act) (tree : Nat) :
    judge settings t past tree e = judge settings s past tree e := by
  unfold judge
  cases hx : Candidate.ofEvent settings e with
  | none => rfl
  | some fitted =>
    cases fitted with
    | error fault => rfl
    | ok r =>
      have hmem := hn _ (Candidate.optionName_of_fitting (Candidate.fitting?_eq_some_iff.mpr hx))
      have hbars : t.bars r.1.name = s.bars r.1.name := by
        rw [Store.bars, Store.bars, h.get?_eq _ hmem, h.isLocked_eq _ hmem]
      show (_ >>= fun _ => requireWritable t r.1) = _ >>= fun _ => requireWritable s r.1
      rw [requireWritable, requireWritable, hbars]

/-- Over stores that agree on the names the verdicts are the same. -/
theorem verdicts_of_agree (settings : Settings) (policy : Policy)
    (hts : ∀ t ∈ trees, Tree.ofBytes t.bytes = .ok t)
    (h : s.AgreeOn (Walk.optionNames limits trees) t) :
    verdicts settings limits policy trees t = verdicts settings limits policy trees s := by
  rw [verdicts_eq_judged settings limits policy t hts,
    verdicts_eq_judged settings limits policy s hts]
  exact Act.judged_congr fun past tree e he =>
    judge_of_agree h (fun name hn => Walk.mem_optionNames_of_act he hn) past tree

/-- What is provided under a name depends on that name. -/
theorem provided?_congr (h : t.get? name = s.get? name) :
    provided? t taken name = provided? s taken name := by
  rw [provided?, provided?, h]

/-- What is created depends on the names of the candidates. -/
theorem created_congr (h : ∀ c ∈ taken, t.get? c.name = s.get? c.name) :
    created t taken = created s taken := by
  unfold created
  congr 1
  refine List.filter_congr fun n hn => ?_
  obtain ⟨c, hc, rfl⟩ := List.mem_map.mp hn
  rw [h c hc]

theorem filterMap_mismatch?_congr (h : ∀ c ∈ taken, t.get? c.name = s.get? c.name) :
    taken.filterMap (mismatch? t taken) = taken.filterMap (mismatch? s taken) :=
  List.filterMap_congr fun c hc => by rw [mismatch?, mismatch?, provided?_congr (h c hc)]

/-- **Noninterference.** Over stores that agree on the names of the options a build makes the same
menu, and the stores go on agreeing. -/
theorem build_of_agree (settings : Settings) (policy : Policy)
    (hts : ∀ t ∈ trees, Tree.ofBytes t.bytes = .ok t)
    (h : s.AgreeOn (Walk.optionNames limits trees) t) :
    (build settings limits policy trees t).1 = (build settings limits policy trees s).1 ∧
      (build settings limits policy trees s).2.AgreeOn (Walk.optionNames limits trees)
        (build settings limits policy trees t).2 := by
  have hs := provides_lastDraft settings limits policy trees s
  have ht := provides_lastDraft settings limits policy trees t
  have hvs := verdicts_of_agree settings policy hts h
  rw [hvs] at ht
  have hget : ∀ c ∈ takenIn settings (verdicts settings limits policy trees s),
      t.get? c.name = s.get? c.name :=
    fun c hc => h.get?_eq _ (name_mem_of_taken hc)
  rw [build_eq_lastDraft, build_eq_lastDraft, ofDraft, ofDraft, elements_lastDraft,
    elements_lastDraft, hvs, hs.provisioned_eq, ht.provisioned_eq, hs.storageFaults_eq,
    ht.storageFaults_eq, created_congr hget, filterMap_mismatch?_congr hget]
  refine ⟨rfl, fun name hn => ?_, fun name hn => ?_⟩
  · rw [hs.get?_eq, ht.get?_eq, provided?_congr (h.get?_eq name hn)]
  · refine Bool.eq_iff_iff.mpr ?_
    rw [hs.isLocked_iff, ht.isLocked_iff, h.isLocked_eq name hn]

/-! ## Either order

The build of two lists together is the build of the first and then of the second, with the store
that the first leaves. For the second this store is as good as the original one.
-/

variable {first second : List Tree}

/-- What one build does to a store is nothing to another that shares no option name. -/
theorem agreeOn_build (settings : Settings) (policy : Policy) (s : Store)
    (hnames : (Walk.optionNames limits first).Disjoint (Walk.optionNames limits second)) :
    s.AgreeOn (Walk.optionNames limits second) (build settings limits policy first s).2 where
  get?_eq _ hn := (build_frame settings policy s fun hf => hnames hf hn).1
  isLocked_eq _ hn := (build_frame settings policy s fun hf => hnames hf hn).2

/-- Behind both builds a name of the first trees is as the first build alone leaves it, in either
order. -/
theorem build_build_of_mem (settings : Settings) (policy : Policy) (s : Store)
    (hfirst : ∀ t ∈ first, Tree.ofBytes t.bytes = .ok t)
    (hnames : (Walk.optionNames limits first).Disjoint (Walk.optionNames limits second))
    (hn : name ∈ Walk.optionNames limits first) :
    let a := (build settings limits policy first s).2
    let b := (build settings limits policy second s).2
    let ab := (build settings limits policy second a).2
    let ba := (build settings limits policy first b).2
    ba.get? name = ab.get? name ∧ ba.isLocked name = ab.isLocked name := by
  intro a b ab ba
  obtain ⟨hget, hlocked⟩ := build_frame settings policy a (hnames hn)
  have hagree := (build_of_agree settings policy hfirst
    (agreeOn_build settings policy s (List.Disjoint.symm hnames))).2
  exact ⟨(hagree.get?_eq name hn).trans hget.symm, (hagree.isLocked_eq name hn).trans hlocked.symm⟩

/-- In front of trees whose option names it does not share, a list of trees does not matter to their
menu. -/
theorem build_append_of_disjoint (settings : Settings) (policy : Policy) (s : Store)
    (hsecond : ∀ t ∈ second, Tree.ofBytes t.bytes = .ok t)
    (hnames : (Walk.optionNames limits first).Disjoint (Walk.optionNames limits second)) :
    let a := build settings limits policy first s
    let b := build settings limits policy second s
    let ab := build settings limits policy (first ++ second) s
    ab.1 = a.1.followedBy first.length b.1 ∧
      ab.2 = (build settings limits policy second a.2).2 := by
  intro a b ab
  obtain ⟨hreport, halike⟩ :=
    Draft.trees_append_following settings policy limits s first hsecond
  have hsame : (build settings limits policy second a.2).1 = b.1 :=
    (build_of_agree settings policy hsecond (agreeOn_build settings policy s hnames)).1
  rw [← hsame]
  simp only [ab, build, hreport, halike.ofDraft_eq]
  exact ⟨rfl, halike.store_eq⟩

/-- **Independent trees commute.** Let two lists of trees share no option name. Building them in one
order and in the other ends with the same variables and locks. Either menu consists of the two menus
that the lists have alone over the store as it was, one behind the other. So the counts of the
reports are the same, and the diagnostics too up to their order and the indices of their trees. -/
theorem build_append_comm (settings : Settings) (limits : Limits) (policy : Policy) (store : Store)
    (hfirst : ∀ t ∈ first, Tree.ofBytes t.bytes = .ok t)
    (hsecond : ∀ t ∈ second, Tree.ofBytes t.bytes = .ok t)
    (hnames : (Walk.optionNames limits first).Disjoint (Walk.optionNames limits second)) :
    let a := (build settings limits policy first store).1
    let b := (build settings limits policy second store).1
    let ab := build settings limits policy (first ++ second) store
    let ba := build settings limits policy (second ++ first) store
    ab.1 = a.followedBy first.length b ∧ ba.1 = b.followedBy second.length a ∧
      { ba.1.report with diagnostics := [] } = { ab.1.report with diagnostics := [] } ∧
      ∀ name, ba.2.get? name = ab.2.get? name ∧ ba.2.isLocked name = ab.2.isLocked name := by
  intro a b ab ba
  have hnames' := List.Disjoint.symm hnames
  obtain ⟨hmenu, hstore⟩ := build_append_of_disjoint settings policy store hsecond hnames
  obtain ⟨hmenu', hstore'⟩ := build_append_of_disjoint settings policy store hfirst hnames'
  refine ⟨hmenu, hmenu', ?_, fun name => ?_⟩
  · rw [hmenu, hmenu']
    simp [followedBy, Report.later, Nat.add_comm]
  · rw [hstore, hstore']
    -- a name is that of an option in the first trees, or in the second, or in none
    by_cases hn : name ∈ Walk.optionNames limits first
    · exact build_build_of_mem settings policy store hfirst hnames hn
    by_cases hn' : name ∈ Walk.optionNames limits second
    · obtain ⟨hget, hlocked⟩ := build_build_of_mem settings policy store hsecond hnames' hn'
      exact ⟨hget.symm, hlocked.symm⟩
    -- no option bears the name, so that nobody touches it
    · simp only [build_frame settings policy _ hn, build_frame settings policy _ hn', and_self]

theorem ofBytes_threeDefaults : ∀ t ∈ threeDefaults, Tree.ofBytes t.bytes = .ok t := by
  intro t ht
  simp only [threeDefaults, Option.mem_toList] at ht
  have hok := toOption_eq_some_iff.mp ht
  rwa [(Tree.ofBytes_eq_ok_iff.mp hok).1]

/-- The first tree offers a number, its name again, and a switch whose name is locked. -/
theorem build_append_comm_clashes :
    let store : Store := { locked := ["c"] }
    let a := (build {} {} .store [clashes] store).1
    let b := (build {} {} .store threeDefaults store).1
    let ab := build {} {} .store ([clashes] ++ threeDefaults) store
    let ba := build {} {} .store (threeDefaults ++ [clashes]) store
    ab.1 = a.followedBy [clashes].length b ∧ ba.1 = b.followedBy threeDefaults.length a ∧
      { ba.1.report with diagnostics := [] } = { ab.1.report with diagnostics := [] } ∧
      ∀ name, ba.2.get? name = ab.2.get? name ∧ ba.2.isLocked name = ab.2.isLocked name := by
  have hnames : Walk.optionNames {} [clashes] = ["a", "b", "a", "c"] ∧
      Walk.optionNames {} threeDefaults = ["n", "s", "e"] := by decide +kernel
  refine build_append_comm {} {} .store { locked := ["c"] } ofBytes_clashes
    ofBytes_threeDefaults (List.disjoint_left.mpr ?_)
  rw [hnames.1, hnames.2]
  decide

end Menu

end SetupForms
