import SetupForms.Command.Run
import SetupForms.Proofs.FaultClasses

/-!
# How a run of the command ends

A run ends in one of five ways (`Ends`): with wrong usage, with the help text, with something that
could not be loaded, with the answer of a lookup or with a menu. What cannot be loaded is either a
file that cannot be read, which is status 3, or what is read says nothing, which is status 1
(`exitStatus_load`). The faults of lookups have status 1 as well, so that no run ends with status 4
(`run_outcome`).

The reader of the settings file is a parameter throughout: what a run does depends on which texts
are settings documents, but nothing that is proved here depends on how that is found out. The files
are a parameter as well, so that a statement about a run is one about all states of the disk.
-/

namespace SetupForms

/-! ## The exit status of a fault

The faults of the format share one status, and only a file that cannot be read has another. So the
status of a failure is known from the stage in which it came up.
-/

/-- What is wrong with the bytes of a tree has status 1. -/
theorem Fault.exitStatus_of_isStructural {f : Fault} (h : f.isStructural = true) :
    f.exitStatus = 1 := by
  cases f with
  | io text => cases h
  | _ => simp [exitStatus, h]

theorem Lookup.Unanswered.exitStatus_eq {name : String} {f : Fault} (h : Unanswered name f) :
    f.exitStatus = 1 := by
  cases h with
  | malformed hs => exact Fault.exitStatus_of_isStructural hs
  | notFound | noDefault => rfl

namespace Command

open Text

variable {reader : SettingsReader} {files : Files} {arguments : List String} {a : Arguments}
  {settings : Settings} {trees : List Tree} {config? : Option String} {guid? : Option Guid}
  {paths : List String} {f : Failure} {o : Outcome}

/-! ## What can be read

What a run finds in the files is told without the run. Its settings are the default ones or those of
a file (`Configured`), and its trees are those that the files hold, in the order of the files
(`Loaded`). Either may be missing because something cannot be read (`Unread`), or because what is
read says nothing. -/

/-- A file can be read, and it is text. -/
def Readable (files : Files) (path : String) : Prop :=
  ∃ bytes text, files path = .ok bytes ∧ bytes.toList = Utf8.encode text

/-- The settings of a run: the default ones, or those of a file. -/
inductive Configured (reader : SettingsReader) (files : Files) :
    Option String → Settings → Prop where
  /-- no file is given -/
  | absent : Configured reader files none {}
  /-- the text of the file is a settings document -/
  | file {path text : String} {bytes : Array UInt8} {settings : Settings} :
      files path = .ok bytes → bytes.toList = Utf8.encode text → reader text = some settings →
      Configured reader files (some path) settings

/-- The trees that a buffer holds. There is at least one. -/
inductive HoldsTrees : Option Guid → Array UInt8 → List Tree → Prop where
  /-- the buffer is a tree -/
  | itself {bytes : Array UInt8} {t : Tree} : Tree.ofBytes bytes = .ok t → HoldsTrees none bytes [t]
  /-- the buffer is a hand-off list, which carries trees under the GUID -/
  | carried {g : Guid} {bytes : Array UInt8} :
      (Scan.ofBytes bytes).trees g ≠ [] →
      HoldsTrees (some g) bytes ((Scan.ofBytes bytes).trees g)

/-- The trees that files hold, in the order of the files. -/
inductive Loaded (files : Files) (guid? : Option Guid) : List String → List Tree → Prop where
  /-- no file holds no tree -/
  | nil : Loaded files guid? [] []
  /-- the trees of the first file come first -/
  | cons {path : String} {paths : List String} {bytes : Array UInt8} {ts more : List Tree} :
      files path = .ok bytes → HoldsTrees guid? bytes ts → Loaded files guid? paths more →
      Loaded files guid? (path :: paths) (ts ++ more)

/-- Something that a run needs cannot be read: the settings file, or, when the settings are known,
one of the other files. -/
def Unread (reader : SettingsReader) (files : Files) (a : Arguments) : Prop :=
  (∃ path, a.config? = some path ∧ ¬Readable files path) ∨
    (∃ settings, Configured reader files a.config? settings) ∧
      ∃ path ∈ a.files, ∃ text, files path = .error text

/-! ## Loading

Loading has three stages: the settings, the bytes of all files, and the trees in them. The order
matters for the status, because a file that cannot be read hides what is wrong with the contents of
another, but settings that say nothing hide the files. The lemmas say of each stage when it succeeds
and what status its failures have.
-/

theorem mapError_ok {ε ε' α : Type} (f : ε → ε') (a : α) :
    (Except.ok a : Except ε α).mapError f = .ok a :=
  rfl

theorem mapError_eq_ok_iff {ε ε' α : Type} {f : ε → ε'} {x : Except ε α} {a : α} :
    x.mapError f = .ok a ↔ x = .ok a := by
  cases x with
  | ok b =>
    rw [mapError_ok, Except.ok.injEq, Except.ok.injEq]
  | error e => exact ⟨nofun, nofun⟩

/-- A settings file that cannot be read, or is no text, is an input error. -/
theorem loadSettings_of_unreadable {path : String} (h : ¬Readable files path) :
    ∃ text, loadSettings reader files (some path) =
      .error ⟨s!"failed reading config `{path}`", .io text⟩ := by
  cases hfile : files path with
  | error text =>
    refine ⟨text, ?_⟩
    rw [loadSettings, hfile]
    rfl
  | ok bytes =>
    cases htext : Utf8.decode? bytes.toList with
    | none =>
      refine ⟨"stream did not contain valid UTF-8", ?_⟩
      simp only [loadSettings, hfile, mapError_ok, bind, Except.bind, htext]
    | some text => exact absurd ⟨bytes, text, hfile, (Utf8.decode?_eq_some_iff.mp htext).symm⟩ h

/-- What is made of a settings file that is text is up to the reader. -/
theorem loadSettings_of_text {path text : String} {bytes : Array UInt8}
    (hfile : files path = .ok bytes) (htext : bytes.toList = Utf8.encode text) :
    loadSettings reader files (some path) =
      match reader text with
      | some settings => .ok settings
      | none => .error
          ⟨s!"invalid config JSON `{path}`", .invalidRequest "not a settings document"⟩ := by
  cases hs : reader text <;>
    simp only [loadSettings, hfile, mapError_ok, bind, Except.bind, htext, Utf8.decode?_encode,
      hs]

/-- Settings are loaded if the run is configured with them. -/
theorem loadSettings_eq_ok_iff :
    loadSettings reader files config? = .ok settings ↔
      Configured reader files config? settings := by
  constructor
  · intro h
    cases config? with
    | none =>
      obtain rfl := Except.ok.inj h
      exact .absent
    | some path =>
      by_cases hread : Readable files path
      · obtain ⟨bytes, text, hfile, htext⟩ := hread
        rw [loadSettings_of_text hfile htext] at h
        split at h
        next settings' hdoc =>
          obtain rfl := Except.ok.inj h
          exact .file hfile htext hdoc
        next => cases h
      · obtain ⟨_, herror⟩ := loadSettings_of_unreadable hread
        cases herror.symm.trans h
  · rintro (_ | ⟨hfile, htext, hdoc⟩)
    · rfl
    · rw [loadSettings_of_text hfile htext, hdoc]

/-- A run is configured in one way at the most. -/
theorem Configured.unique {settings' : Settings} (h : Configured reader files config? settings)
    (h' : Configured reader files config? settings') : settings = settings' :=
  Except.ok.inj ((loadSettings_eq_ok_iff.mpr h).symm.trans (loadSettings_eq_ok_iff.mpr h'))

/-- Settings that cannot be loaded are in a file that cannot be read, or the file says nothing. -/
theorem exitStatus_loadSettings (h : loadSettings reader files config? = .error f) :
    f.fault.exitStatus = 3 ∧ (∃ path, config? = some path ∧ ¬Readable files path) ∨
      f.fault.exitStatus = 1 ∧ ¬∃ path, config? = some path ∧ ¬Readable files path := by
  cases config? with
  | none => cases h
  | some path =>
    by_cases hread : Readable files path
    · refine .inr ⟨?_, by simpa using hread⟩
      obtain ⟨bytes, text, hfile, htext⟩ := hread
      rw [loadSettings_of_text hfile htext] at h
      split at h
      next => cases h
      next => exact Except.error.inj h ▸ rfl
    · obtain ⟨_, herror⟩ := loadSettings_of_unreadable hread
      obtain rfl := Except.error.inj (herror.symm.trans h)
      exact .inl ⟨rfl, path, rfl, hread⟩

/-- Files are read unless one of them cannot be. -/
theorem exists_readFiles_iff :
    (∃ buffers, readFiles files paths = .ok buffers) ↔
      ∀ path ∈ paths, ∃ bytes, files path = .ok bytes := by
  induction paths with
  | nil => exact ⟨fun _ => nofun, fun _ => ⟨[], rfl⟩⟩
  | cons path paths ih =>
    rw [List.forall_mem_cons, ← ih, readFiles]
    cases files path with
    | error text => exact ⟨nofun, nofun⟩
    | ok bytes =>
      cases readFiles files paths with
      | error f => exact ⟨nofun, nofun⟩
      | ok rest => exact ⟨fun _ => ⟨⟨_, rfl⟩, _, rfl⟩, fun _ => ⟨_, rfl⟩⟩

/-- Files that cannot be read are all that is wrong with files. -/
theorem readFiles_failsWith (paths : List String) :
    FailsWith (fun f => f.fault.exitStatus = 3) (readFiles files paths) := by
  induction paths with
  | nil => exact .ok _
  | cons path paths ih =>
    refine .bind ?_ fun bytes => ih.bind fun rest => .ok _
    cases files path with
    | error text => exact .error rfl
    | ok bytes => exact .ok _

/-- A buffer without trees has status 1. -/
theorem loadTrees_failsWith {guid? : Option Guid} {path : String} {bytes : Array UInt8} :
    FailsWith (fun f => f.fault.exitStatus = 1) (loadTrees guid? path bytes) := by
  unfold loadTrees
  split
  · split
    next => exact .ok _
    next f hf => exact .error (Fault.exitStatus_of_isStructural (Tree.ofBytes_failsOnBytes f hf))
  · split
    · exact .error rfl
    · exact .ok _

theorem loadAll_failsWith {guid? : Option Guid} (buffers : List (String × Array UInt8)) :
    FailsWith (fun f => f.fault.exitStatus = 1) (loadAll guid? buffers) := by
  induction buffers with
  | nil => exact .ok _
  | cons buffer buffers ih =>
    exact loadTrees_failsWith.bind fun ts => ih.bind fun more => .ok _

/-- With settings, it is up to the other files whether something cannot be read. -/
theorem Configured.unread_iff (h : Configured reader files a.config? settings) :
    Unread reader files a ↔ ¬∃ buffers, readFiles files a.files = .ok buffers := by
  have hconfig : ¬∃ path, a.config? = some path ∧ ¬Readable files path := by
    rintro ⟨path, hpath, hbad⟩
    rw [hpath] at h
    cases h with
    | file hfile htext => exact hbad ⟨_, _, hfile, htext⟩
  rw [Unread, or_iff_right hconfig, and_iff_right ⟨settings, h⟩, exists_readFiles_iff]
  constructor
  · rintro ⟨path, hpath, text, htext⟩ hall
    obtain ⟨bytes, hbytes⟩ := hall path hpath
    cases htext.symm.trans hbytes
  · intro hall
    obtain ⟨path, hpath, hbad⟩ : ∃ path ∈ a.files, ¬∃ bytes, files path = .ok bytes := by
      simpa using hall
    exact ⟨path, hpath, (eq_ok_or_eq_error (files path)).resolve_left hbad⟩

/-- The trees of a buffer are loaded if it holds them. -/
theorem loadTrees_eq_ok_iff {path : String} {bytes : Array UInt8} {ts : List Tree} :
    loadTrees guid? path bytes = .ok ts ↔ HoldsTrees guid? bytes ts := by
  cases guid? with
  | none =>
    rw [loadTrees]
    cases ht : Tree.ofBytes bytes with
    | error fault =>
      refine ⟨nofun, fun h => ?_⟩
      obtain ⟨h⟩ := h
      cases ht.symm.trans h
    | ok t =>
      constructor
      · intro h
        obtain rfl := Except.ok.inj h
        exact .itself ht
      · rintro ⟨h⟩
        obtain rfl := Except.ok.inj (ht.symm.trans h)
        rfl
  | some g =>
    rw [loadTrees]
    constructor
    · intro h
      split at h
      next => cases h
      next hne =>
        obtain rfl := Except.ok.inj h
        exact .carried hne
    · rintro (_ | hne)
      split
      next hnil => exact absurd hnil hne
      next => rfl

/-- Files that can be read are loaded if each of them holds trees. -/
theorem loadAll_eq_ok_iff {buffers : List (String × Array UInt8)}
    (hread : readFiles files paths = .ok buffers) :
    loadAll guid? buffers = .ok trees ↔ Loaded files guid? paths trees := by
  induction paths generalizing buffers trees with
  | nil =>
    obtain rfl := Except.ok.inj hread
    constructor
    · intro h
      obtain rfl := Except.ok.inj h
      exact .nil
    · rintro ⟨⟩
      rfl
  | cons path paths ih =>
    obtain ⟨bytes, hfile, hread⟩ := bind_eq_ok_iff.mp hread
    obtain ⟨rest, hrest, hread⟩ := bind_eq_ok_iff.mp hread
    obtain rfl := pure_eq_ok_iff.mp hread
    replace hfile := mapError_eq_ok_iff.mp hfile
    rw [loadAll, bind_eq_ok_iff]
    constructor
    · rintro ⟨ts, hts, h⟩
      obtain ⟨more, hmore, h⟩ := bind_eq_ok_iff.mp h
      obtain rfl := pure_eq_ok_iff.mp h
      exact .cons hfile (loadTrees_eq_ok_iff.mp hts) ((ih hrest).mp hmore)
    · rintro (_ | ⟨hfile', hts, hmore⟩)
      obtain rfl := Except.ok.inj (hfile'.symm.trans hfile)
      exact ⟨_, loadTrees_eq_ok_iff.mpr hts, bind_eq_ok_iff.mpr ⟨_, (ih hrest).mpr hmore, rfl⟩⟩

/-- Trees are loaded from files that can be read. -/
theorem Loaded.readable (h : Loaded files guid? paths trees) :
    ∀ path ∈ paths, ∃ bytes, files path = .ok bytes := by
  induction h with
  | nil => exact nofun
  | cons hfile _ _ ih => exact List.forall_mem_cons.mpr ⟨⟨_, hfile⟩, ih⟩

/-- What is loaded are the settings of the run and the trees of its files. -/
theorem load_eq_ok_iff :
    load reader files a = .ok (settings, trees) ↔
      Configured reader files a.config? settings ∧ Loaded files a.guid? a.files trees := by
  rw [load, bind_eq_ok_iff]
  constructor
  · rintro ⟨settings', hsettings, h⟩
    obtain ⟨buffers, hbuffers, h⟩ := bind_eq_ok_iff.mp h
    obtain ⟨trees', htrees, h⟩ := bind_eq_ok_iff.mp h
    obtain ⟨rfl, rfl⟩ := Prod.mk.inj (pure_eq_ok_iff.mp h)
    exact ⟨loadSettings_eq_ok_iff.mp hsettings, (loadAll_eq_ok_iff hbuffers).mp htrees⟩
  · rintro ⟨hconf, hloaded⟩
    obtain ⟨buffers, hbuffers⟩ := exists_readFiles_iff.mpr hloaded.readable
    exact ⟨settings, loadSettings_eq_ok_iff.mpr hconf, bind_eq_ok_iff.mpr ⟨buffers, hbuffers,
      bind_eq_ok_iff.mpr ⟨trees, (loadAll_eq_ok_iff hbuffers).mpr hloaded, rfl⟩⟩⟩

/-- What is loaded has been read. -/
theorem not_unread_of_load (h : load reader files a = .ok (settings, trees)) :
    ¬Unread reader files a := by
  obtain ⟨hconf, hloaded⟩ := load_eq_ok_iff.mp h
  exact fun hunread => hconf.unread_iff.mp hunread (exists_readFiles_iff.mpr hloaded.readable)

/-- What cannot be loaded cannot be read, or it is read and says nothing. -/
theorem exitStatus_load (h : load reader files a = .error f) :
    f.fault.exitStatus = 3 ∧ Unread reader files a ∨
      f.fault.exitStatus = 1 ∧ ¬Unread reader files a := by
  rcases bind_eq_error_iff.mp h with hsettings | ⟨settings, hsettings, h⟩
  · -- there are no settings, so that no other file is read
    have hnone : ¬∃ settings, Configured reader files a.config? settings := by
      rintro ⟨settings, hconf⟩
      cases hsettings.symm.trans (loadSettings_eq_ok_iff.mpr hconf)
    have hunread : Unread reader files a ↔ ∃ path, a.config? = some path ∧ ¬Readable files path :=
      or_iff_left fun h => hnone h.1
    rw [hunread]
    exact exitStatus_loadSettings hsettings
  rw [(loadSettings_eq_ok_iff.mp hsettings).unread_iff]
  rcases bind_eq_error_iff.mp h with hbuffers | ⟨buffers, hbuffers, h⟩
  · refine .inl ⟨readFiles_failsWith _ _ hbuffers, ?_⟩
    rw [hbuffers]
    exact nofun
  · refine .inr ⟨?_, fun hnone => hnone ⟨buffers, hbuffers⟩⟩
    exact ((loadAll_failsWith buffers).bind fun _ => .ok _) f h

/-! ## What is printed

The standard error is empty if there is nothing to say. This is worth a proof because the messages
are put together from lists, of which some may be empty and others not.
-/

/-- Only no lines at all make an empty text. -/
theorem lines_eq_empty_iff {ls : List String} : lines ls = "" ↔ ls = [] := by
  cases ls with
  | nil => exact ⟨fun _ => rfl, fun _ => rfl⟩
  | cons l ls => simp [lines, String.append_eq_empty_iff]

/-- A failure says why. -/
theorem Failure.stderr_outcome_ne (f : Failure) : f.outcome.stderr ≠ "" := by
  simp [Failure.outcome, toString]

/-- A lookup prints what it has found, or says why it has found nothing. -/
theorem runDefault_cases (settings : Settings) (form? : Option String) (option : String)
    (trees : List Tree) :
    let o := runDefault settings form? option trees
    (o.status = 0 ∧ o.stderr = "" ∧ ∃ d, Lookup.find settings.walk form? option trees = .ok d) ∨
      o.status = 1 ∧ o.stderr ≠ "" ∧ o.stdout = "" ∧
        ¬∃ d, Lookup.find settings.walk form? option trees = .ok d := by
  intro o
  cases hfind : Lookup.find settings.walk form? option trees with
  | ok d =>
    have ho : o = { status := 0, stdout := defaultText d ++ "\n" } := by
      show runDefault .. = _
      rw [runDefault, hfind]
    exact .inl ⟨ho ▸ rfl, ho ▸ rfl, d, rfl⟩
  | error f =>
    have ho : o = { status := f.exitStatus, stderr := s!"error: {f.message}\n" } := by
      show runDefault .. = _
      rw [runDefault, hfind]
    rw [ho]
    exact .inr ⟨(Lookup.find_failsWith form? trees f hfind).exitStatus_eq, by simp [toString], rfl,
      nofun⟩

/-- A menu is printed in any case. Nothing else is said if there is nothing to note. -/
theorem runMenu_cases (settings : Settings) (json : Bool) (trees : List Tree) :
    let o := runMenu settings json trees
    let menu := (Menu.build settings.menu settings.walk .store trees {}).1
    (o.status = 0 ∧ o.stderr = "" ∧ menu.report.diagnostics = [] ∧ menu.storageFaults = []) ∨
      o.status = 1 ∧ o.stderr ≠ "" ∧
        ¬(menu.report.diagnostics = [] ∧ menu.storageFaults = []) := by
  intro o menu
  have hstatus : o.status = if menu.isClean then 0 else 1 := rfl
  have hclean : menu.isClean = true ↔ menu.report.diagnostics = [] ∧ menu.storageFaults = [] := by
    simp [Menu.isClean, Report.isClean]
  have hstderr : o.stderr = "" ↔ menu.report.diagnostics = [] ∧ menu.storageFaults = [] := by
    show lines _ ++ lines _ = "" ↔ _
    rw [String.append_eq_empty_iff, lines_eq_empty_iff, lines_eq_empty_iff, List.map_eq_nil_iff,
      List.map_eq_nil_iff]
    rfl
  rw [hstatus, ne_eq, hstderr, ← hclean]
  cases menu.isClean <;> simp

/-! ## Runs

A run is read off its arguments: they are wrong, they ask for help, or they lead to a load, which
may fail and is followed by a lookup or by a menu. `Ends` has a case for each, and all statements
about the outcome are made by these cases.
-/

/-- The ways for a run to end, by what becomes of its arguments. -/
inductive Ends (reader : SettingsReader) (files : Files) :
    Except UsageFault Arguments → Outcome → Prop where
  /-- the arguments are wrong -/
  | misused (f : UsageFault) :
      Ends reader files (.error f) { status := 2, stderr := s!"error: {f.message}\n" ++ usage }
  /-- help is asked for -/
  | helped {a : Arguments} :
      a.help = true →
      Ends reader files (.ok a) { status := 0, stdout := usage }
  /-- something cannot be loaded -/
  | failed {a : Arguments} {f : Failure} :
      a.help = false → load reader files a = .error f →
      Ends reader files (.ok a) f.outcome
  /-- an option is looked up -/
  | answered {a : Arguments} {settings : Settings} {trees : List Tree} {option : String} :
      a.help = false → load reader files a = .ok (settings, trees) → a.default? = some option →
      Ends reader files (.ok a) (runDefault settings a.form? option trees)
  /-- the menu is shown -/
  | listed {a : Arguments} {settings : Settings} {trees : List Tree} :
      a.help = false → load reader files a = .ok (settings, trees) → a.default? = none →
      Ends reader files (.ok a) (runMenu settings a.json trees)

theorem ends_run (reader : SettingsReader) (files : Files) (arguments : List String) :
    Ends reader files (Arguments.parse arguments) (run files arguments reader) := by
  cases hparse : Arguments.parse arguments with
  | error f =>
    simp only [run, hparse]
    exact .misused f
  | ok a =>
    cases hhelp : a.help with
    | true =>
      simp only [run, hparse, hhelp]
      exact .helped hhelp
    | false =>
      cases hload : load reader files a with
      | error f =>
        simp only [run, hparse, hhelp, hload]
        exact .failed hhelp hload
      | ok loaded =>
        obtain ⟨settings, trees⟩ := loaded
        cases hdefault : a.default? with
        | some option =>
          simp only [run, hparse, hhelp, hload, hdefault]
          exact .answered hhelp hload hdefault
        | none =>
          simp only [run, hparse, hhelp, hload, hdefault]
          exact .listed hhelp hload hdefault

namespace Ends

/-- A run ends with status 0 and says nothing, or it says why not. -/
theorem status_cases {parsed : Except UsageFault Arguments} (h : Ends reader files parsed o) :
    o.status = 0 ∧ o.stderr = "" ∨ 0 < o.status ∧ o.status ≤ 3 ∧ o.stderr ≠ "" := by
  cases h with
  | misused f => exact .inr ⟨Nat.two_pos, Nat.le_succ 2, by simp [toString]⟩
  | helped => exact .inl ⟨rfl, rfl⟩
  | @failed a f hhelp hload =>
    have hstatus : f.outcome.status = 3 ∨ f.outcome.status = 1 :=
      (exitStatus_load hload).imp And.left And.left
    exact .inr ⟨by omega, by omega, f.stderr_outcome_ne⟩
  | @answered a settings trees option =>
    rcases runDefault_cases settings a.form? option trees with ⟨h0, hnone, -⟩ | ⟨h1, hsaid, -⟩
    · exact .inl ⟨h0, hnone⟩
    · exact .inr ⟨by omega, by omega, hsaid⟩
  | @listed a settings trees =>
    rcases runMenu_cases settings a.json trees with ⟨h0, hnone, -⟩ | ⟨h1, hsaid, -⟩
    · exact .inl ⟨h0, hnone⟩
    · exact .inr ⟨by omega, by omega, hsaid⟩

/-- With proper arguments a run ends with status 3 if something cannot be read, and else with status
0 or 1. -/
theorem status_of_parsed (h : Ends reader files (.ok a) o) :
    o.status = 3 ∧ a.help = false ∧ Unread reader files a ∨
      o.status ≤ 1 ∧ ¬(a.help = false ∧ Unread reader files a) := by
  cases h with
  | helped hhelp => exact .inr ⟨Nat.zero_le 1, fun hno => by simp [hhelp] at hno⟩
  | failed hhelp hload =>
    rcases exitStatus_load hload with ⟨h3, hunread⟩ | ⟨h1, hread⟩
    · exact .inl ⟨h3, hhelp, hunread⟩
    · exact .inr ⟨Nat.le_of_eq h1, fun hno => hread hno.2⟩
  | @answered _ settings trees option hhelp hload =>
    refine .inr ⟨?_, fun hno => not_unread_of_load hload hno.2⟩
    rcases runDefault_cases settings a.form? option trees with ⟨h0, -⟩ | ⟨h1, -⟩ <;> omega
  | @listed _ settings trees hhelp hload =>
    refine .inr ⟨?_, fun hno => not_unread_of_load hload hno.2⟩
    rcases runMenu_cases settings a.json trees with ⟨h0, -⟩ | ⟨h1, -⟩ <;> omega

/-- Status 2 is for wrong arguments. -/
theorem status_eq_two_iff {parsed : Except UsageFault Arguments} (h : Ends reader files parsed o) :
    o.status = 2 ↔ ∃ f, parsed = .error f := by
  cases parsed with
  | error f =>
    cases h
    exact ⟨fun _ => ⟨f, rfl⟩, fun _ => rfl⟩
  | ok a => rcases h.status_of_parsed with hs | hs <;> exact ⟨fun h2 => by omega, nofun⟩

/-- Status 3 is for what cannot be read. -/
theorem status_eq_three_iff {parsed : Except UsageFault Arguments}
    (h : Ends reader files parsed o) :
    o.status = 3 ↔ ∃ a, parsed = .ok a ∧ a.help = false ∧ Unread reader files a := by
  cases parsed with
  | error f =>
    cases h
    exact ⟨nofun, nofun⟩
  | ok a =>
    rcases h.status_of_parsed with ⟨h3, hunread⟩ | ⟨hle, hnot⟩
    · exact ⟨fun _ => ⟨a, rfl, hunread⟩, fun _ => h3⟩
    · refine ⟨fun h3 => by omega, ?_⟩
      rintro ⟨_, ⟨⟩, hunread⟩
      exact absurd hunread hnot

/-- A lookup succeeds if the option is found in trees that are loaded. -/
theorem status_of_lookup {option : String} (h : Ends reader files (.ok a) o)
    (hhelp : a.help = false) (hdefault : a.default? = some option) :
    o.status = 0 ↔ ∃ settings trees d, load reader files a = .ok (settings, trees) ∧
      Lookup.find settings.walk a.form? option trees = .ok d := by
  cases h with
  | helped hhelp' => cases hhelp'.symm.trans hhelp
  | @failed _ f _ hload =>
    have hstatus : f.outcome.status = 3 ∨ f.outcome.status = 1 :=
      (exitStatus_load hload).imp And.left And.left
    rw [hload]
    exact ⟨fun h0 => by omega, nofun⟩
  | @answered _ settings trees option' _ hload hdefault' =>
    obtain rfl := Option.some.inj (hdefault'.symm.trans hdefault)
    rcases runDefault_cases settings a.form? option' trees with ⟨h0, -, d, hd⟩ | ⟨h1, -, -, hnone⟩
    · exact ⟨fun _ => ⟨settings, trees, d, hload, hd⟩, fun _ => h0⟩
    · refine ⟨fun h0 => by omega, ?_⟩
      rintro ⟨settings', trees', d, hload', hd⟩
      obtain ⟨rfl, rfl⟩ := Prod.mk.inj (Except.ok.inj (hload.symm.trans hload'))
      exact absurd ⟨d, hd⟩ hnone
  | listed _ _ hdefault' => cases hdefault'.symm.trans hdefault

/-- A menu of trees that are loaded is printed as it is. -/
theorem eq_runMenu (h : Ends reader files (.ok a) o) (hhelp : a.help = false)
    (hdefault : a.default? = none) (hload : load reader files a = .ok (settings, trees)) :
    o = runMenu settings a.json trees := by
  cases h with
  | helped hhelp' => cases hhelp'.symm.trans hhelp
  | failed _ hload' => cases hload'.symm.trans hload
  | answered _ _ hdefault' => cases hdefault'.symm.trans hdefault
  | listed _ hload' =>
    obtain ⟨rfl, rfl⟩ := Prod.mk.inj (Except.ok.inj (hload'.symm.trans hload))
    rfl

/-- Only a menu is printed with another status than 0. -/
theorem listed_of_printed {parsed : Except UsageFault Arguments} (h : Ends reader files parsed o)
    (hstatus : o.status ≠ 0) (hprinted : o.stdout ≠ "") :
    ∃ a settings trees, parsed = .ok a ∧ a.help = false ∧ a.default? = none ∧
      Configured reader files a.config? settings ∧ Loaded files a.guid? a.files trees := by
  cases h with
  | misused | failed => exact absurd rfl hprinted
  | helped => exact absurd rfl hstatus
  | @answered a settings trees option =>
    rcases runDefault_cases settings a.form? option trees with ⟨h0, -⟩ | ⟨-, -, hnone, -⟩
    · exact absurd h0 hstatus
    · exact absurd hnone hprinted
  | listed hhelp hload hdefault =>
    exact ⟨_, _, _, rfl, hhelp, hdefault, load_eq_ok_iff.mp hload⟩

end Ends

/-- **How a run ends.** However settings are read, status 2 is for wrong arguments, status 3 for
what cannot be read, and no run ends with a status above. Nothing is said on the standard error just
if the status is 0. When the settings are known and all files can be read, a lookup ends with status
0 just if each file holds trees and the option is found in them, and else with status 1. A menu of
the trees that the files hold ends with status 0 just if it has no diagnostics and no storage
faults, and else with status 1; nothing but a menu is printed with another status than 0. -/
theorem run_outcome (files : Files) (arguments : List String) (reader : SettingsReader) :
    let o := run files arguments reader
    o.status ≤ 3 ∧ (o.status = 0 ↔ o.stderr = "") ∧
      (o.status = 2 ↔ ∃ f, Arguments.parse arguments = .error f) ∧
      (o.status = 3 ↔
        ∃ a, Arguments.parse arguments = .ok a ∧ a.help = false ∧ Unread reader files a) ∧
      (∀ a settings option, Arguments.parse arguments = .ok a → a.help = false →
        a.default? = some option → Configured reader files a.config? settings →
        (∀ path ∈ a.files, ∃ bytes, files path = .ok bytes) →
        o.status ≤ 1 ∧ (o.status = 0 ↔ ∃ trees d, Loaded files a.guid? a.files trees ∧
          Lookup.find settings.walk a.form? option trees = .ok d)) ∧
      (∀ a settings trees, Arguments.parse arguments = .ok a → a.help = false →
        a.default? = none → Configured reader files a.config? settings →
        Loaded files a.guid? a.files trees →
        let menu := (Menu.build settings.menu settings.walk .store trees {}).1
        o.status ≤ 1 ∧
          (o.status = 0 ↔ menu.report.diagnostics = [] ∧ menu.storageFaults = [])) ∧
      (o.status ≠ 0 → o.stdout ≠ "" →
        ∃ a settings trees, Arguments.parse arguments = .ok a ∧ a.help = false ∧
          a.default? = none ∧ Configured reader files a.config? settings ∧
          Loaded files a.guid? a.files trees) := by
  intro o
  have h : Ends reader files (Arguments.parse arguments) o := ends_run reader files arguments
  have hcases := h.status_cases
  clear_value o
  refine ⟨by omega, ⟨fun h0 => ?_, fun hnone => ?_⟩, h.status_eq_two_iff, h.status_eq_three_iff,
    ?_, ?_, h.listed_of_printed⟩
  · exact hcases.elim And.right fun hs => absurd h0 (Nat.ne_of_gt hs.1)
  · exact hcases.elim And.left fun hs => absurd hnone hs.2.2
  · intro a settings option hparse hhelp hdefault hconf hread
    rw [hparse] at h
    have hloads : ¬Unread reader files a := fun hunread =>
      hconf.unread_iff.mp hunread (exists_readFiles_iff.mpr hread)
    refine ⟨h.status_of_parsed.elim (fun hs => absurd hs.2.2 hloads) And.left, ?_⟩
    rw [h.status_of_lookup hhelp hdefault]
    constructor
    · rintro ⟨settings', trees, d, hload, hd⟩
      obtain ⟨hconf', hloaded⟩ := load_eq_ok_iff.mp hload
      obtain rfl := hconf.unique hconf'
      exact ⟨trees, d, hloaded, hd⟩
    · rintro ⟨trees, d, hloaded, hd⟩
      exact ⟨settings, trees, d, load_eq_ok_iff.mpr ⟨hconf, hloaded⟩, hd⟩
  · intro a settings trees hparse hhelp hdefault hconf hloaded menu
    rw [hparse] at h
    rw [h.eq_runMenu hhelp hdefault (load_eq_ok_iff.mpr ⟨hconf, hloaded⟩)]
    rcases runMenu_cases settings a.json trees with ⟨h0, -, hclean⟩ | ⟨h1, -, hnot⟩
    · exact ⟨by omega, fun _ => hclean, fun _ => h0⟩
    · exact ⟨by omega, fun h0 => by omega, fun hclean => absurd hclean hnot⟩

example :
    let files : Files := fun path =>
      if path = "empty.bin" then .ok #[] else .error "No such file or directory (os error 2)"
    let status (arguments : List String) := (run files arguments fun _ => none).status
    status ["--help"] = 0 ∧ status ["empty.bin"] = 1 ∧ status ["--form=Boot", "empty.bin"] = 2 ∧
      status ["empty.bin", "missing.bin"] = 3 := by
  decide +kernel

end Command

end SetupForms
