import SetupForms.Proofs.MenuBuild
import SetupForms.Store.Request

/-!
# Building again

Between builds a front end reads variables and writes them back. None of this matters to the next
build: it is bound to find a store that continues the first one (`Store.Continues`), in which the
same names are barred and every variable has the size that the first build saw or gave it. So all
builds of a session agree (`builds_agree`), the later ones create nothing, and what was written
stays.

A build sees little of a store: which names are barred and how long the variables are. `Continues`
keeps just these, for the names that the build has to do with, and it is a preorder kept by every
action of a session. So the argument does not follow the session; each build of it is compared with
the first one directly.
-/

namespace SetupForms

open Menu

variable {settings : Menu.Settings} {limits : Limits} {trees : List Tree} {taken : List Candidate}
  {s t u : Store} {name : String}

/-! ## Sessions

Between builds variables are read and written through requests, as a front end does. Each build of a
session is recorded with the store before and after it, so that the statement can speak of all of
them.
-/

/-- What may be done with a store, the trees and settings being fixed. -/
inductive Action where
  /-- build the menu -/
  | build (policy : Policy)
  /-- read the variable of a request -/
  | extract (request : String)
  /-- write the variable of a request -/
  | route (request : String) (data : List UInt8)

/-- A build in a session. -/
structure Building where
  /-- the store that it found -/
  before : Store
  /-- the menu -/
  menu : Menu
  /-- the store that it left -/
  after : Store

namespace Session

/-- The store after one action. Reading leaves it as it is, and so does a write that fails. -/
def perform (settings : Menu.Settings) (limits : Limits) (trees : List Tree) (s : Store) :
    Action → Store
  | .build policy => (Menu.build settings limits policy trees s).2
  | .extract _ => s
  | .route request data =>
    match s.route request data with
    | .ok t => t
    | .error _ => s

/-- The store after actions. -/
def finish (settings : Menu.Settings) (limits : Limits) (trees : List Tree) (s : Store)
    (actions : List Action) : Store :=
  actions.foldl (perform settings limits trees) s

theorem finish_cons (s : Store) (a : Action) (as : List Action) :
    finish settings limits trees s (a :: as) =
      finish settings limits trees (perform settings limits trees s a) as := rfl

theorem finish_append (s : Store) (as bs : List Action) :
    finish settings limits trees s (as ++ bs) =
      finish settings limits trees (finish settings limits trees s as) bs :=
  List.foldl_append

/-- The builds among actions, in their order. -/
def builds (settings : Menu.Settings) (limits : Limits) (trees : List Tree) :
    Store → List Action → List Building
  | _, [] => []
  | s, a :: as =>
    let t := perform settings limits trees s a
    match a with
    | .build policy =>
      ⟨s, (Menu.build settings limits policy trees s).1, t⟩ :: builds settings limits trees t as
    | .extract _ | .route .. => builds settings limits trees t as

end Session

/-! ## Stores that a build cannot tell apart

Judgement asks a store whether a name is barred, and the size of a variable decides whether a misfit
is noted. Stores that continue each other agree on both.
-/

/-- A store that comes after another in a session: the same names are barred, the variables that
candidates find or make have the same sizes, and nothing is lost. -/
structure Store.Continues (taken : List Candidate) (s t : Store) : Prop where
  /-- the same names are barred -/
  bars_eq : ∀ name, t.bars name = s.bars name
  /-- variables have the same sizes -/
  size_eq : ∀ name, (provided? t taken name).map (·.data.length) =
    (provided? s taken name).map (·.data.length)
  /-- what exists is not lost -/
  kept : ∀ name, s.get? name ≠ none → t.get? name ≠ none

namespace Store.Continues

theorem refl (taken : List Candidate) (s : Store) : Continues taken s s :=
  ⟨fun _ => rfl, fun _ => rfl, fun _ => id⟩

theorem trans (h : Continues taken s t) (h' : Continues taken t u) : Continues taken s u where
  bars_eq name := (h'.bars_eq name).trans (h.bars_eq name)
  size_eq name := (h'.size_eq name).trans (h.size_eq name)
  kept name := h'.kept name ∘ h.kept name

/-- Both stores judge alike. -/
theorem judge_eq (h : Continues taken s t) (settings : Menu.Settings) :
    judge settings t = judge settings s := by
  funext past tree e
  simp only [judge, requireWritable, h.bars_eq]

/-- In both stores the same candidates are of the wrong size. -/
theorem mismatch?_eq (h : Continues taken s t) : mismatch? t taken = mismatch? s taken := by
  funext c
  have hsize := h.size_eq c.name
  unfold mismatch?
  cases hs : provided? s taken c.name with
  | none =>
    rw [hs, Option.map_none, Option.map_eq_none_iff] at hsize
    rw [hsize]
  | some v =>
    rw [hs, Option.map_some, Option.map_eq_some_iff] at hsize
    obtain ⟨u, hu, hlen⟩ := hsize
    rw [hu, Option.bind_some, Option.bind_some, Candidate.sizeFault?, Candidate.sizeFault?, hlen]

end Store.Continues

/-! ## Writing back

A write changes neither the names nor the sizes of the variables, because it is served only for data
of the same length.
-/

/-- A write that succeeds has found a variable of the same length. It is rewritten, or locked and
left as it is. -/
theorem Store.route_eq_ok {request : String} {data : List UInt8}
    (h : s.route request data = .ok t) :
    ∃ name v, Request.variableName request = .ok name ∧ s.get? name = some v ∧
      v.data.length = data.length ∧
      (s.isLocked name = true ∧ t = s ∨ s.set name v.attributes data = .ok t) := by
  obtain ⟨name, hname, h⟩ := bind_eq_ok_iff.mp h
  obtain ⟨v, hv, h⟩ := bind_eq_ok_iff.mp h
  have hget : s.get? name = some v := get_eq_ok_iff.mp hv
  split at h
  next hlen =>
    refine ⟨name, v, hname, hget, hlen, ?_⟩
    cases hl : s.isLocked name with
    | true =>
      rw [set, if_pos hl] at h
      exact .inl ⟨rfl, (pure_eq_ok_iff.mp h).symm⟩
    | false =>
      have hset : s.set name v.attributes data = .ok _ := set_eq_ok_iff.mpr ⟨hl, rfl⟩
      rw [hset] at h ⊢
      exact .inr h
  next => cases h

/-- A store continues another if its names are locked alike and its variables have the same
sizes. -/
theorem Store.Continues.of_size? (taken : List Candidate)
    (hsize : ∀ name, t.size? name = s.size? name)
    (hlock : ∀ name, t.isLocked name = s.isLocked name) :
    Continues taken s t := by
  have hnone : ∀ name, (t.get? name).isNone = (s.get? name).isNone := by
    intro name
    have h := congrArg Option.isNone (hsize name)
    rwa [size?, size?, Option.isNone_map, Option.isNone_map] at h
  refine ⟨fun name => ?_, fun name => ?_, fun name hs ht => hs ?_⟩
  · rw [bars, bars, hnone, hlock]
  · have h := hsize name
    rw [size?, size?] at h
    rw [provided?, provided?, Option.map_or, Option.map_or, h]
  · rw [← Option.isNone_iff_eq_none, ← hnone, ht]
    rfl

/-- After a write the names are locked as before, and the variables have the same sizes. -/
theorem Store.continues_route {request : String} {data : List UInt8} (taken : List Candidate)
    (h : s.route request data = .ok t) : Continues taken s t := by
  obtain ⟨n, v, -, hv, hlen, ⟨-, rfl⟩ | hset⟩ := route_eq_ok h
  · exact .refl taken _
  · refine .of_size? taken (fun name => ?_) (isLocked_set hset)
    rw [size?, size?, get?_set hset]
    split
    next hn =>
      rw [← hn, hv]
      exact congrArg some hlen.symm
    next => rfl

/-! ## Building again

A build creates what the candidates need, and only for names that nothing barred. The store that it
leaves therefore continues the one that it has found, and a second build needs nothing.
-/

/-- The candidates that a build over a store takes. -/
def candidates (settings : Menu.Settings) (limits : Limits) (trees : List Tree) (s : Store) :
    List Candidate :=
  takenIn settings (Act.judged (judge settings s) [] (Walk.acts limits 0 trees))

/-- The same options are taken over a store that continues. -/
theorem Store.Continues.candidates_eq (h : Continues taken s t) (settings : Menu.Settings)
    (limits : Limits) (trees : List Tree) :
    candidates settings limits trees t = candidates settings limits trees s := by
  rw [candidates, h.judge_eq, candidates]

/-- A build leaves what it provides. -/
theorem get?_build (settings : Menu.Settings) (limits : Limits) (policy : Policy) (s : Store)
    (hts : ∀ t ∈ trees, Tree.ofBytes t.bytes = .ok t) (name : String) :
    (Menu.build settings limits policy trees s).2.get? name =
      provided? s (candidates settings limits trees s) name := by
  rw [build_eq_lastDraft, candidates, ← verdicts_eq_judged settings limits policy s hts]
  exact (provides_lastDraft settings limits policy trees s).get?_eq name

/-- A build leaves a store that continues. -/
theorem Store.continues_build (settings : Menu.Settings) (limits : Limits) (policy : Policy)
    (s : Store) (hts : ∀ t ∈ trees, Tree.ofBytes t.bytes = .ok t) :
    Continues (candidates settings limits trees s) s
      (Menu.build settings limits policy trees s).2 := by
  have hprov := provides_lastDraft settings limits policy trees s
  have hget := get?_build settings limits policy s hts
  refine ⟨fun name => ?_, fun name => ?_, fun name hs => ?_⟩
  · rw [build_eq_lastDraft]
    exact hprov.bars_eq name
  · rw [provided?, hget, provided?, Option.or_assoc, Option.or_self]
  · rw [hget]
    exact fun hnone => hs (provided?_eq_none_iff.mp hnone).1

/-! ## Whole sessions

By induction along the session every build in it finds a store that continues the first one.
-/

namespace Session

variable {actions : List Action}

/-- Whatever is done, the store continues the one before. -/
theorem continues_perform (settings : Menu.Settings) (limits : Limits)
    (hts : ∀ t ∈ trees, Tree.ofBytes t.bytes = .ok t) (s : Store) (a : Action) :
    s.Continues (candidates settings limits trees s) (perform settings limits trees s a) := by
  cases a with
  | build policy => exact Store.continues_build settings limits policy s hts
  | extract request => exact .refl _ s
  | route request data =>
    rw [perform]
    split
    next t h => exact Store.continues_route _ h
    next => exact .refl _ s

/-- Each build of a session finds a store that continues the first one. -/
theorem exists_of_mem_builds (hts : ∀ t ∈ trees, Tree.ofBytes t.bytes = .ok t) {b : Building}
    (hb : b ∈ builds settings limits trees s actions) :
    s.Continues (candidates settings limits trees s) b.before ∧
      ∃ policy, b.menu = (Menu.build settings limits policy trees b.before).1 ∧
        b.after = (Menu.build settings limits policy trees b.before).2 := by
  induction actions generalizing s with
  | nil => cases hb
  | cons a as ih =>
    have hstep := continues_perform settings limits hts s a
    -- a later build finds a store that continues the one behind this action, and that one continues
    -- the first
    have later (h : b ∈ builds settings limits trees (perform settings limits trees s a) as) :
        s.Continues (candidates settings limits trees s) b.before ∧
          ∃ policy, b.menu = (Menu.build settings limits policy trees b.before).1 ∧
            b.after = (Menu.build settings limits policy trees b.before).2 := by
      obtain ⟨hcont, hmenu⟩ := ih h
      rw [hstep.candidates_eq] at hcont
      exact ⟨hstep.trans hcont, hmenu⟩
    -- only a build adds to the builds
    cases a with
    | build policy =>
      rcases List.mem_cons.mp hb with rfl | hb
      · exact ⟨.refl _ s, policy, rfl, rfl⟩
      · exact later hb
    | extract request => exact later hb
    | route request data => exact later hb

/-- Two builds agree if the second finds a store that continues the one that the first found. -/
theorem build_agrees (hts : ∀ t ∈ trees, Tree.ofBytes t.bytes = .ok t)
    (h : s.Continues (candidates settings limits trees s) t) (policy policy' : Policy) :
    let menu := (Menu.build settings limits policy trees s).1
    let menu' := (Menu.build settings limits policy' trees t).1
    menu'.elements = menu.elements ∧ menu'.report = menu.report ∧
      menu'.storageFaults = menu.storageFaults := by
  intro menu menu'
  have hvs : verdicts settings limits policy' trees t =
      verdicts settings limits policy trees s := by
    rw [verdicts_eq_judged settings limits policy' t hts,
      verdicts_eq_judged settings limits policy s hts, h.judge_eq]
  have hmenu : menu = _ := congrArg Prod.fst (build_eq_lastDraft settings limits policy trees s)
  have hmenu' : menu' = _ := congrArg Prod.fst (build_eq_lastDraft settings limits policy' trees t)
  have hfaults := (provides_lastDraft settings limits policy trees s).storageFaults_eq
  have hfaults' := (provides_lastDraft settings limits policy' trees t).storageFaults_eq
  rw [candidates, ← verdicts_eq_judged settings limits policy s hts] at h
  rw [hvs] at hmenu' hfaults'
  refine ⟨?_, ?_, ?_⟩
  · rw [hmenu, hmenu', ofDraft, ofDraft, elements_lastDraft, elements_lastDraft, hvs]
  · rw [hmenu, hmenu', ofDraft, ofDraft]
  · rw [hmenu, hmenu', ofDraft, ofDraft, hfaults, hfaults', h.mismatch?_eq]

/-- Over a store in which all candidates have their variables, nothing is created or changed. -/
theorem build_settled (hts : ∀ t ∈ trees, Tree.ofBytes t.bytes = .ok t) (policy : Policy)
    (h : ∀ c ∈ candidates settings limits trees t, t.get? c.name ≠ none) :
    (Menu.build settings limits policy trees t).1.provisioned = [] ∧
      ∀ name, (Menu.build settings limits policy trees t).2.get? name = t.get? name := by
  constructor
  · rw [build_eq_lastDraft, ofDraft, (provides_lastDraft ..).provisioned_eq,
      verdicts_eq_judged settings limits policy t hts]
    refine List.eq_nil_iff_forall_not_mem.mpr fun name hmem => ?_
    obtain ⟨hnone, c, hc, rfl⟩ := mem_created_iff.mp hmem
    exact h c hc hnone
  · intro name
    rw [get?_build settings limits policy t hts]
    cases ht : t.get? name with
    | some v => rw [provided?, ht, Option.some_or]
    | none => exact provided?_eq_none_iff.mpr ⟨ht, fun c hc hn => h c hc (hn ▸ ht)⟩

/-- What is written stays until it is written again. -/
theorem get?_finish (settings : Menu.Settings) (limits : Limits) (trees : List Tree) {v : Variable}
    (hv : s.get? name = some v)
    (hothers : ∀ request data, .route request data ∈ actions →
      Request.variableName request ≠ .ok name) :
    (finish settings limits trees s actions).get? name = some v := by
  induction actions generalizing s with
  | nil => exact hv
  | cons a as ih =>
    refine ih ?_ fun request data hmem => hothers request data (List.mem_cons_of_mem a hmem)
    cases a with
    | build policy =>
      rw [perform, build_eq_lastDraft, (provides_lastDraft settings limits policy trees s).get?_eq,
        provided?, hv, Option.some_or]
    | extract request => exact hv
    | route request data =>
      have hother := hothers request data List.mem_cons_self
      rw [perform]
      split
      next t h =>
        -- the write was for a locked name, or else for another one
        obtain ⟨n, u, hname, -, -, ⟨-, rfl⟩ | hset⟩ := Store.route_eq_ok h
        · exact hv
        · have hne : n ≠ name := fun hn => hother (hn ▸ hname)
          rw [Store.get?_set hset, if_neg hne, hv]
      next => exact hv

/-- **Builds are stable.** In a session all builds agree on lines, report and storage faults, and
every build but the first creates nothing and changes no variable. A value that was written to a
variable that is not locked stays, unless a later request is about the same variable. -/
theorem builds_agree (settings : Menu.Settings) (limits : Limits)
    (hts : ∀ t ∈ trees, Tree.ofBytes t.bytes = .ok t) (s : Store) (actions : List Action) :
    (builds settings limits trees s actions).Pairwise (fun a b =>
      b.menu.elements = a.menu.elements ∧ b.menu.report = a.menu.report ∧
        b.menu.storageFaults = a.menu.storageFaults ∧ b.menu.provisioned = [] ∧
        ∀ name, b.after.get? name = b.before.get? name) ∧
      ∀ before request data later name t, actions = before ++ .route request data :: later →
        (finish settings limits trees s before).route request data = .ok t →
        Request.variableName request = .ok name →
        (finish settings limits trees s before).isLocked name = false →
        (∀ r d, .route r d ∈ later → Request.variableName r ≠ .ok name) →
        ((finish settings limits trees s actions).get? name).map (·.data) = some data := by
  refine ⟨?_, ?_⟩
  · induction actions generalizing s with
    | nil => exact .nil
    | cons a as ih =>
      cases a with
      | build policy =>
        refine List.pairwise_cons.mpr ⟨fun b hb => ?_, ih _⟩
        obtain ⟨hcont, policy', hmenu, hafter⟩ := exists_of_mem_builds hts hb
        have hbuild := continues_perform settings limits hts s (.build policy)
        rw [hbuild.candidates_eq] at hcont
        have hcandidates := (hbuild.trans hcont).candidates_eq settings limits trees
        -- after the first build each candidate has its variable
        have hsettled : ∀ c ∈ candidates settings limits trees b.before,
            b.before.get? c.name ≠ none := by
          intro c hc
          refine hcont.kept _ fun hnone => ?_
          rw [perform, get?_build settings limits policy s hts] at hnone
          exact (provided?_eq_none_iff.mp hnone).2 c (hcandidates ▸ hc) rfl
        obtain ⟨helements, hreport, hfaults⟩ :=
          build_agrees hts (hbuild.trans hcont) policy policy'
        obtain ⟨hprovisioned, hget⟩ := build_settled hts policy' hsettled
        rw [hmenu, hafter]
        exact ⟨helements, hreport, hfaults, hprovisioned, hget⟩
      | extract request => exact ih s
      | route request data => exact ih _
  · rintro before request data later name t rfl hroute hname hlock hlater
    obtain ⟨n, v, hname', hv, -, ⟨hlocked, -⟩ | hset⟩ := Store.route_eq_ok hroute
    · obtain rfl := Except.ok.inj (hname'.symm.trans hname)
      cases hlock.symm.trans hlocked
    · obtain rfl := Except.ok.inj (hname'.symm.trans hname)
      have hthere : t.get? n = some ⟨data, v.attributes⟩ := by
        rw [Store.get?_set hset, if_pos rfl]
      have hstay := get?_finish settings limits trees hthere hlater
      rw [finish_append, finish_cons, perform, hroute]
      exact congrArg _ hstay

/-- The variable of the first number is written before the menu is built twice. -/
theorem builds_agree_clashes :
    let store : Store := { entries := [("a", ⟨[7, 0, 0, 0], 3⟩)], locked := ["c"] }
    let actions : List Action :=
      [.route "&NAME=0061&" [1, 2, 3, 4], .build .store, .build .absent]
    (builds {} {} [clashes] store actions).Pairwise (fun a b =>
        b.menu.elements = a.menu.elements ∧ b.menu.provisioned = []) ∧
      ((finish {} {} [clashes] store actions).get? "a").map (·.data) = some [1, 2, 3, 4] := by
  intro store actions
  obtain ⟨hagree, hstays⟩ := builds_agree {} {} ofBytes_clashes store actions
  refine ⟨hagree.imp fun hab => ⟨hab.1, hab.2.2.2.1⟩, ?_⟩
  refine hstays [] "&NAME=0061&" _ [.build .store, .build .absent] "a"
    ⟨[("a", ⟨[1, 2, 3, 4], 3⟩)], ["c"]⟩ rfl ?_ ?_ ?_ fun r d hmem => ?_
  · exact toOption_eq_some_iff.mp (by decide +kernel)
  · exact toOption_eq_some_iff.mp (by decide +kernel)
  · decide +kernel
  · simp at hmem

end Session

end SetupForms
