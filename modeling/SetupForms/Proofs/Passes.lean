import SetupForms.Proofs.MenuBuild
import SetupForms.Proofs.Residue

/-!
# Builds in several passes

A walk through trees can stop behind any of them and go on later: nothing but the state of the
callback goes from one tree to the next, and reports know trees only by their indices
(`Walk.trees_append`, `Walk.trees_carried`). A build goes on in the same way from the store alone.
Its lists only grow, and the ids in use are forgotten when a root is entered, so the menu of all
trees is that of the first ones followed by that of the others over the store that the first build
left (`Menu.build_append`).
-/

namespace SetupForms

universe u v

variable {σ : Type u} {τ : Type v} {f : Callback σ} {g : Callback τ} {φ : σ → τ}

/-! ## Later trees

A walk gives a callback the index of the tree, and notes it. When the same trees are walked later,
the index is all that differs. For a callback that does not look at the index, `Carries` says that
this difference does not get into its state: the state with which it walks the later trees is that
with which it would walk them alone, put behind what there was.
-/

/-- The diagnostic as it is when `n` trees come before its own. -/
def Diagnostic.later (n : Nat) (d : Diagnostic) : Diagnostic := { d with tree := d.tree + n }

/-- The report as it is when `n` trees come before its own. -/
def Report.later (n : Nat) (r : Report) : Report :=
  { r with diagnostics := r.diagnostics.map (Diagnostic.later n) }

theorem Report.later_zero (r : Report) : r.later 0 = r := by
  have hid : Diagnostic.later 0 = id := rfl
  rw [later, hid, List.map_id]

@[simp] theorem Report.later_append (n : Nat) (a b : Report) :
    (a ++ b).later n = a.later n ++ b.later n := by
  show later n (append a b) = append (a.later n) (b.later n)
  simp [later, append]

/-- `φ` carries one callback over to another, which then does what the first does. -/
def Callback.Carries (f : Callback σ) (g : Callback τ) (φ : σ → τ) : Prop :=
  ∀ s e, g (φ s) e = (f s e).map id φ

namespace Walk

/-- A callback that is carried over goes through the values of an option alike. -/
theorem numeric_carried (hφ : f.Carries g φ) (n tree : Nat) (o : NumericOption)
    (values : List EnumValue) (s : σ) :
    numeric g (tree + n) o values (φ s) = (numeric f tree o values s).map (.later n) φ := by
  induction values generalizing s with
  | nil =>
    rw [numeric, numeric, hφ]
    rcases f s (.numeric o) with ⟨_ | _, s'⟩ <;> rfl
  | cons v vs ih =>
    rw [numeric, numeric, hφ]
    rcases f s (.value o v) with ⟨_ | _, s'⟩
    · rfl
    · simp only [Prod.map, id, ih, Report.later_append]
      rfl

/-- A callback that is carried over is called for a text option alike. -/
theorem text_carried (hφ : f.Carries g φ) (n tree : Nat) (o : TextOption) (s : σ) :
    text g (tree + n) o (φ s) = (text f tree o s).map (.later n) φ := by
  rw [text, text, hφ]
  rcases f s (.text o) with ⟨_ | _, s'⟩ <;> rfl

mutual

/-- A callback that is carried over makes the same walk, in a later tree. -/
theorem node_carried (hφ : f.Carries g φ) (n tree : Nat) :
    ∀ (node : Node) (s : σ),
      Walk.node g (tree + n) node (φ s) = (Walk.node f tree node s).map (.later n) φ
  | .form form children, s => by
    rw [node, node, hφ]
    -- a form is entered, or the callback refuses it and the walk goes on behind it
    rcases f s (.enter form) with ⟨_ | _, s'⟩
    · rfl
    · simp only [Prod.map, id, nodes_carried hφ n tree children, hφ (nodes f tree children s').2]
      rcases f (nodes f tree children s').2 (.exit form) with ⟨_ | _, s''⟩ <;>
        simp only [Report.later_append] <;> rfl
  | .numeric o, s => by
    rw [node, node, numeric_carried hφ]
  | .text o, s => by
    rw [node, node, text_carried hφ]
  | .unrecognized .., s | .malformed .., s | .torn .., s => by
    rw [node, node]
    rfl

theorem nodes_carried (hφ : f.Carries g φ) (n tree : Nat) :
    ∀ (ns : List Node) (s : σ),
      nodes g (tree + n) ns (φ s) = (nodes f tree ns s).map (.later n) φ
  | [], s => by
    rw [nodes, nodes]
    rfl
  | node :: ns, s => by
    rw [nodes, nodes, node_carried hφ n tree node]
    simp only [Prod.map, nodes_carried hφ n tree ns, Report.later_append]

end

/-- A callback that is carried over makes the same walk, through later trees. -/
theorem trees_carried (hφ : f.Carries g φ) (limits : Limits) (n first : Nat) (ts : List Tree)
    (s : σ) :
    trees g limits (first + n) ts (φ s) = (trees f limits first ts s).map (.later n) φ := by
  induction ts generalizing first s with
  | nil => rfl
  | cons t ts ih =>
    rw [trees, trees, tree, tree, node_carried hφ]
    simp only [Prod.map, Nat.add_right_comm first n 1, ih, Report.later_append]

/-- A walk through trees goes on behind any of them with the state that it has. -/
theorem trees_append (f : Callback σ) (limits : Limits) (first : Nat) (ts us : List Tree) (s : σ) :
    trees f limits first (ts ++ us) s =
      let before := trees f limits first ts s
      let after := trees f limits (first + ts.length) us before.2
      (before.1 ++ after.1, after.2) := by
  induction ts generalizing first s with
  | nil => simp [trees]
  | cons t ts ih =>
    simp only [List.cons_append, trees, ih, List.length_cons, Report.append_assoc,
      Nat.add_assoc, Nat.add_comm 1]

/-- What a callback was before does not matter to a walk if it does not matter when the first root
is entered. -/
theorem trees_eq_of_enter {t : Tree} {s s' : σ} (h : f s (.enter t.root) = f s' (.enter t.root))
    (limits : Limits) (first : Nat) (ts : List Tree) :
    trees f limits first (t :: ts) s = trees f limits first (t :: ts) s' := by
  have htree : tree f limits first t s = tree f limits first t s' := by
    rw [tree, tree, Node.ofTree, node, node, h]
  rw [trees, trees, htree]

end Walk

namespace Menu

variable {settings : Settings} {policy : Policy}

namespace Draft

/-- The draft with the menu of an earlier one in front of its own. -/
def following (earlier d : Draft) : Draft :=
  { d with
    elements := earlier.elements ++ d.elements
    provisioned := earlier.provisioned ++ d.provisioned
    storageFaults := earlier.storageFaults ++ d.storageFaults }

variable {earlier d : Draft}

/-- An element is added behind those that there are. -/
theorem emit_following (e : Element) :
    (following earlier d).emit e = following earlier (d.emit e) := by
  simp [following, emit]

/-- A variable is made or not alike, and it is listed behind those that there are. -/
theorem createVariable_following (c : Candidate) :
    (following earlier d).createVariable c = (d.createVariable c).map (following earlier) := by
  unfold createVariable
  simp only [following]
  cases d.store.size? c.name with
  | none =>
    show Except.map _ (d.store.set ..) = Except.map _ (Except.map _ (d.store.set ..))
    cases d.store.set c.name c.fields.flags.attributes c.stored <;>
      simp [Except.map, following]
  | some size =>
    simp only
    split <;> simp [Except.map, following]

theorem applyPolicy_following (policy : Policy) (c : Candidate) :
    applyPolicy policy (following earlier d) c = following earlier (applyPolicy policy d c) := by
  unfold applyPolicy
  split <;> rfl

theorem add_following (settings : Settings) (policy : Policy) (earlier d : Draft) (c : Candidate) :
    add settings policy (following earlier d) c =
      (add settings policy d c).map id (following earlier) := by
  have hissue : issue settings (following earlier d) c = issue settings d c := rfl
  cases hi : issue settings d c with
  | error fault =>
    rw [add_of_unissued hi, add_of_unissued (hissue.trans hi)]
    rfl
  | ok id =>
    have hcreate : createVariable { following earlier d with issued := id :: d.issued } c =
        (createVariable { d with issued := id :: d.issued } c).map (following earlier) :=
      createVariable_following (d := { d with issued := id :: d.issued }) c
    cases hv : createVariable { d with issued := id :: d.issued } c with
    | error fault =>
      rw [hv] at hcreate
      rw [add_of_uncreated policy hi hv, add_of_uncreated policy (hissue.trans hi) hcreate]
      rfl
    | ok d' =>
      rw [hv] at hcreate
      rw [add_of_created policy hi hv, add_of_created policy (hissue.trans hi) hcreate,
        applyPolicy_following, emit_following]
      rfl

/-- A step adds to the menu and does not look at what it holds. -/
theorem carries_following (settings : Settings) (policy : Policy) (earlier : Draft) :
    (step settings policy).Carries (step settings policy) (following earlier) := by
  intro d e
  cases e with
  | enter form =>
    by_cases hdepth : form.depth = 0 <;> simp [step, hdepth, emit, following]
  | exit form =>
    by_cases hsep : form.depth = 0 ∧ settings.treeSeparator = true <;>
      simp [step, hsep, emit, following]
  | value o v => rfl
  | numeric o => exact add_following ..
  | text o =>
    simp only [step]
    cases o.kind with
    | comment => simp [emit, following]
    | varchar =>
      simp only
      cases Candidate.ofText settings o with
      | error fault => rfl
      | ok c => exact add_following ..

/-- A draft goes on with further trees as a fresh one over its store does. -/
theorem trees_eq_following (settings : Settings) (policy : Policy) (limits : Limits) (first : Nat)
    {t : Tree} (ht : Tree.ofBytes t.bytes = .ok t) (ts : List Tree) (d : Draft) :
    Walk.trees (step settings policy) limits first (t :: ts) d =
      (Walk.trees (step settings policy) limits 0 (t :: ts) { store := d.store }).map
        (.later first) (following d) := by
  have hdepth : t.root.depth = 0 := (Form.decode_eq_ok (Tree.ofBytes_eq_ok_iff.mp ht).2).2.1
  have halike : Alike (following d { store := d.store }) d :=
    ⟨rfl, (List.append_nil _).symm, (List.append_nil _).symm, (List.append_nil _).symm⟩
  -- the ids in use are forgotten with the first root
  have hroot : step settings policy d (.enter t.root) =
      step settings policy (following d { store := d.store }) (.enter t.root) :=
    halike.step_of_opensTree (decide_eq_true hdepth)
  rw [Walk.trees_eq_of_enter hroot, ← Walk.trees_carried (carries_following settings policy d),
    Nat.zero_add]

/-- Of the trees behind the first ones a draft knows the store that these have left. Its ids in use
may differ, and only when no tree is behind. -/
theorem trees_append_following (settings : Settings) (policy : Policy) (limits : Limits)
    (store : Store) (first : List Tree) {second : List Tree}
    (hts : ∀ t ∈ second, Tree.ofBytes t.bytes = .ok t) :
    let a := Walk.trees (step settings policy) limits 0 first { store }
    let b := Walk.trees (step settings policy) limits 0 second { store := a.2.store }
    let ab := Walk.trees (step settings policy) limits 0 (first ++ second) { store }
    ab.1 = a.1 ++ b.1.later first.length ∧ (following a.2 b.2).Alike ab.2 := by
  simp only [Walk.trees_append, Nat.zero_add]
  generalize Walk.trees (step settings policy) limits 0 first { store } = a
  cases second with
  | nil => exact ⟨rfl, rfl, (List.append_nil _).symm, (List.append_nil _).symm,
      (List.append_nil _).symm⟩
  | cons t ts =>
    rw [trees_eq_following settings policy limits first.length (hts t List.mem_cons_self)]
    exact ⟨rfl, .refl _⟩

end Draft

/-- The ids in use are nothing to a menu. -/
theorem Draft.Alike.ofDraft_eq {d d' : Draft} (h : d.Alike d') (report : Report) :
    ofDraft d' report = ofDraft d report := by
  rw [h.eq_withIssued]
  rfl

/-- Two menus one behind the other, the first of which was built of `n` trees. -/
def followedBy (first : Menu) (n : Nat) (second : Menu) : Menu where
  elements := first.elements ++ second.elements
  provisioned := first.provisioned ++ second.provisioned
  storageFaults := first.storageFaults ++ second.storageFaults
  report := first.report ++ second.report.later n

/-- **Passes.** Building the menu of trees in one pass comes to the same as building that of the
first ones and then, over the store that this has left, that of the others: the store is the same,
and the lines, the created variables and the storage faults of the second menu follow those of the
first. The counts of the reports add up, and the diagnostics of the second follow with the indices
of their trees moved behind the first ones. -/
theorem build_append (settings : Settings) (limits : Limits) (policy : Policy) (store : Store)
    (first : List Tree) {second : List Tree}
    (hts : ∀ t ∈ second, Tree.ofBytes t.bytes = .ok t) :
    build settings limits policy (first ++ second) store =
      let a := build settings limits policy first store
      let b := build settings limits policy second a.2
      (a.1.followedBy first.length b.1, b.2) := by
  obtain ⟨hreport, halike⟩ :=
    Draft.trees_append_following settings policy limits store first hts
  simp only [build, hreport, halike.store_eq, halike.ofDraft_eq]
  rfl

/-- Both passes refuse the switch, whose name is locked, and the second finds the variables of the
first. -/
theorem build_append_clashes :
    let store : Store := { locked := ["c"] }
    let a := build {} {} .store [clashes] store
    let b := build {} {} .store [clashes] a.2
    build {} {} .store ([clashes] ++ [clashes]) store = (a.1.followedBy 1 b.1, b.2) :=
  build_append {} {} .store { locked := ["c"] } [clashes] ofBytes_clashes

end Menu

end SetupForms
