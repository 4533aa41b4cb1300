import SetupForms.Proofs.LookupAgreement
import SetupForms.Proofs.MenuBuild
import SetupForms.Proofs.Refusals

/-!
# Lookups agree with stored defaults

A lookup and a build find defaults in different ways: the one compares names until the first of
them fits, the other creates a variable unless one of that name exists. Over a store without
variables they agree, if the build rejects nothing (`build_holds_found`): the variable of a name
holds just the default that a lookup of the name finds, and there is none where the lookup finds no
option.

Both sides are brought to the first call of the name in the walk. The lookup answers with that call,
because a build without errors was a walk without errors. The variable was made by the first
candidate of the name, because nothing was there before; and as nothing was refused, the first
candidate comes from the first call. What is left is that the two read the default of the same
record alike (`exists_hit_of_fitting`).
-/

namespace SetupForms

open Text

variable {w : Window} {h : Header} {limits : Limits} {name : String} {o : TextOption}

/-! ## Texts that were decoded

The payload of a field is as long as the field says, which a text option keeps only if it was
decoded. So the options in the calls of a walk are traced back to the decoder.
-/

/-- A field that was read has the length that it says. -/
theorem Field.length_of_read {offset : Nat} {f : Field} (hr : read w offset = .ok f) :
    f.data.length = f.dataLength.toNat := by
  obtain ⟨h, -, hr⟩ := bind_eq_ok_iff.mp hr
  obtain ⟨-, hr⟩ := guard_eq_ok_iff.mp hr
  obtain ⟨n, -, hr⟩ := bind_eq_ok_iff.mp hr
  obtain ⟨data, hdata, hr⟩ := bind_eq_ok_iff.mp hr
  obtain rfl := pure_eq_ok_iff.mp hr
  exact Window.length_of_slice hdata

/-- The default of a decoded option has the length that it declares. -/
theorem TextOption.length_of_decode {kind : TextKind} (hd : decode w h kind limits = .ok o) :
    ∀ f, o.default = some f → f.data.length = f.dataLength.toNat :=
  fun _ hf => Field.length_of_read (read_default_of_decode hd hf)

namespace Node

/-- The text options of a record were decoded. -/
theorem exists_decode_of_ofHeader {depth : Nat} {inside : (nested : Form) →
      Form.decode w h.offset (depth + 1) = .ok nested → List Node}
    (hin : ∀ nested hd, Event.text o ∈ eventsAll (inside nested hd) →
      ∃ w h kind, TextOption.decode w h kind limits = .ok o)
    (ho : Event.text o ∈ (ofHeader w limits depth h inside).events) :
    ∃ w h kind, TextOption.decode w h kind limits = .ok o := by
  -- Only a form and a text have events with a text in them.
  cases hr : Role.ofTag h.tag with
  | form =>
    by_cases hm : limits.maxDepth < depth + 1
    · rw [ofHeader_of_tooDeep hr hm] at ho
      cases ho
    cases hd : Form.decode w h.offset (depth + 1) with
    | error f =>
      rw [ofHeader_of_badForm hr hm hd] at ho
      cases ho
    | ok nested =>
      rw [ofHeader_of_form hr hm hd] at ho
      exact hin nested hd (by simpa [Node.events] using ho)
  | numeric kind =>
    rw [ofHeader_of_numeric hr] at ho
    cases hd : NumericOption.decode w h kind with
    | error f =>
      rw [hd] at ho
      cases ho
    | ok o' =>
      rw [hd] at ho
      simp [ofExcept, Node.events] at ho
  | text kind =>
    rw [ofHeader_of_text hr] at ho
    cases hd : TextOption.decode w h kind limits with
    | error f =>
      rw [hd] at ho
      cases ho
    | ok o' =>
      rw [hd] at ho
      obtain rfl := Event.text.inj (List.mem_singleton.mp ho)
      exact ⟨w, h, kind, hd⟩
  | unrecognized =>
    rw [ofHeader_of_unrecognized hr] at ho
    cases ho

/-- Whatever text option an outline shows was decoded. -/
theorem exists_decode_of_children {depth cursor : Nat}
    (ho : Event.text o ∈ eventsAll (children w limits depth cursor)) :
    ∃ w h kind, TextOption.decode w h kind limits = .ok o := by
  fun_induction children w limits depth cursor with
  | case1 w depth cursor hlt f hp => cases ho
  | case2 w depth cursor hlt h hp ihin ihrest =>
    rcases List.mem_append.mp ho with ho | ho
    · exact exists_decode_of_ofHeader ihin ho
    · exact ihrest ho
  | case3 w depth cursor hge => cases ho

end Node

/-! ## Calls of a walk

The calls of a walk, with the trees in which they are made, are its acts without the notes.
-/

namespace Walk

theorem calls_acts (limits : Limits) (first : Nat) (ts : List Tree) :
    Act.calls (acts limits first ts) = calls limits first ts := by
  induction ts generalizing first with
  | nil => rfl
  | cons t ts ih => rw [acts, Act.calls_append, Node.calls_acts, ih, calls_cons]

/-- Whatever text option a walk calls back with was decoded. -/
theorem exists_decode_of_calls {first tree : Nat} {ts : List Tree}
    (ho : (tree, Event.text o) ∈ calls limits first ts) :
    ∃ w h kind, TextOption.decode w h kind limits = .ok o := by
  induction ts generalizing first with
  | nil => cases ho
  | cons t ts ih =>
    rw [calls_cons] at ho
    rcases List.mem_append.mp ho with ho | ho
    · obtain ⟨e, he, heq⟩ := List.mem_map.mp ho
      obtain rfl := (Prod.mk.inj heq).2
      exact Node.exists_decode_of_children (by simpa [Node.ofTree, Node.events] using he)
    · exact ih ho

end Walk

/-- Where a walk notes no error, a lookup answers with the first call of the name. -/
theorem Lookup.find_of_clean {trees : List Tree}
    (hclean : ∀ d ∈ Act.notes (Walk.acts limits 0 trees), d.severity ≠ .error) :
    find limits none name trees =
      match firstCall limits name 0 trees with
      | some c => c.2.hit.answer name
      | none => .error (.optionNotFound name) := by
  have hall : selected none trees = trees := List.filter_eq_self.mpr fun _ _ => rfl
  have hfirst : firstCall limits name 0 trees = firstCall limits name 0 (selected none trees) := by
    rw [hall]
  rw [hfirst]
  refine find_eq (s := ()) Callback.willing_silent fun d hd hs => ?_
  rw [hall, Walk.trees_of_willing_acts Callback.willing_silent, Report.diagnostics_ofActs] at hd
  exact absurd hs (hclean d hd)

namespace Menu

variable {settings : Settings} {policy : Policy} {e : Event} {c : Candidate}
  {vs : List (Act × Except Fault Unit)}

/-! ## First of a name

A name may be borne by a form, by a comment and by several options. The first one counts for the
lookup, and the first option with a value for the store.
-/

/-- A candidate bears the name by which its event is looked up. -/
theorem key_of_fitting {id : UInt16} (h : Candidate.fitting? settings e = some (c, id)) :
    e.key? = some c.name := by
  rcases Candidate.exists_of_fitting h with ⟨o, rfl, hfit⟩ | ⟨o, c', rfl, hk, hc, hfit⟩
  · obtain ⟨-, -, rfl⟩ := Candidate.fit_eq_ok_iff.mp hfit
    rfl
  · obtain ⟨-, -, rfl⟩ := Candidate.fit_eq_ok_iff.mp hfit
    obtain ⟨name, field, s, units, hname, -, -, rfl⟩ := Candidate.ofText_eq_ok hc
    rw [Event.key?, hk, hname]

/-- Without refusals each option with a value is a candidate that is taken. -/
def AllTaken (settings : Settings) (vs : List (Act × Except Fault Unit)) : Prop :=
  ∀ tree e verdict, (.call tree e, verdict) ∈ vs → verdict = .ok () ∧
    (asks e = true → ∃ r, Candidate.fitting? settings e = some r)

/-- The first call of a name, if it is an option with a value, brings the first candidate of the
name. -/
theorem find?_takenIn (hall : AllTaken settings vs) {tree : Nat}
    (hfirst : (Act.calls (vs.map Prod.fst)).find? (fun c => c.2.bears name) = some (tree, e))
    (hasks : asks e = true) :
    ∃ c id, Candidate.fitting? settings e = some (c, id) ∧
      (takenIn settings vs).find? (·.name = name) = some c := by
  induction vs with
  | nil => cases hfirst
  | cons v vs ih =>
    have hrest := fun t e r hmem => hall t e r (List.mem_cons_of_mem v hmem)
    obtain ⟨a, verdict⟩ := v
    cases a with
    | note d => exact ih hrest hfirst
    | call t e' =>
      obtain ⟨rfl, hfits⟩ := hall t e' verdict List.mem_cons_self
      rw [← List.singleton_append, takenIn_append]
      rw [List.map_cons, Act.calls, List.find?_cons] at hfirst
      cases hb : e'.bears name with
      | true =>
        rw [hb] at hfirst
        obtain ⟨rfl, rfl⟩ := Prod.mk.inj (Option.some.inj hfirst)
        obtain ⟨⟨c, id⟩, hfit⟩ := hfits hasks
        have hkey := of_decide_eq_true hb
        rw [key_of_fitting hfit, Option.some.injEq] at hkey
        refine ⟨c, id, hfit, ?_⟩
        rw [takenIn_of_fitting hfit, List.singleton_append, List.find?_cons_of_pos]
        exact decide_eq_true hkey
      | false =>
        rw [hb] at hfirst
        obtain ⟨c, id, hfit, hfind⟩ := ih hrest hfirst
        refine ⟨c, id, hfit, ?_⟩
        rw [List.find?_append, List.find?_eq_none.mpr, Option.none_or, hfind]
        -- what this call brings bears another name
        intro c' hc'
        obtain ⟨t', e'', id', hmem, hfit'⟩ := exists_of_mem_takenIn hc'
        obtain ⟨rfl, rfl⟩ := Act.call.inj (List.mem_singleton.mp hmem)
        rw [Event.bears, key_of_fitting hfit', decide_eq_false_iff_not, Option.some.injEq] at hb
        exact fun hn => hb (of_decide_eq_true hn)

/-- Where no call bears a name, no candidate does. -/
theorem name_ne_of_find?_eq_none
    (hnone : (Act.calls (vs.map Prod.fst)).find? (fun c => c.2.bears name) = none) :
    ∀ c ∈ takenIn settings vs, c.name ≠ name := by
  intro c hc hn
  obtain ⟨tree, e, id, hmem, hfit⟩ := exists_of_mem_takenIn hc
  have hcall : (tree, e) ∈ Act.calls (vs.map Prod.fst) := Act.mem_calls_iff.mpr hmem
  refine List.find?_eq_none.mp hnone _ hcall (decide_eq_true ?_)
  rw [key_of_fitting hfit, hn]

/-! ## Builds that reject nothing

Without an error in the report every option with a value was taken.
-/

/-- A build without errors takes every option with a value. -/
theorem AllTaken.of_clean {d : Draft} {as : List Act}
    (hclean : ∀ n ∈ (Report.ofVerdicts ((Draft.step settings policy).verdicts d as)).diagnostics,
      n.severity ≠ .error) :
    AllTaken settings ((Draft.step settings policy).verdicts d as) := by
  intro tree e verdict hmem
  have hok : verdict = .ok () := by
    cases verdict with
    | ok _ => rfl
    | error fault =>
      rw [Report.diagnostics_ofVerdicts] at hclean
      have hn := hclean _ (List.mem_filterMap.mpr ⟨_, hmem, rfl⟩)
      cases e <;> exact absurd rfl hn
  exact ⟨hok, takenFit_verdicts settings policy d as tree e (hok ▸ hmem)⟩

/-- What a variable holds of a default that a lookup finds. -/
structure StoredAs (settings : Settings) (d : DefaultValue) (bytes : List UInt8) : Prop where
  /-- the four bytes of a number as they are -/
  number : d.kind = .numeric → d.bytes.length = 4 ∧ bytes = d.bytes
  /-- in place of a text of at most one byte the placeholder and a zero unit -/
  placeholder : d.kind = .text → d.bytes.length ≤ 1 → bytes = wide settings.invalidString ++ [0, 0]
  /-- of any other text what stands before its first NUL, with zero units behind it up to the length
  of the default, and at least one -/
  text : d.kind = .text → 1 < d.bytes.length → ∃ s, d.text? = some s ∧
    bytes = wide s ++
      List.replicate (2 * (max d.bytes.length (Utf16.length s + 1) - Utf16.length s)) 0

theorem storedAs_numeric (settings : Settings) (o : NumericOption) (offset : Nat) :
    StoredAs settings ⟨Bytes.ofUInt32 o.default, offset, .numeric⟩ (Bytes.ofUInt32 o.default) where
  number _ := ⟨Bytes.length_ofUInt32 _, rfl⟩
  placeholder := nofun
  text := nofun

theorem storedAs_text {f : Field} {s : String} {units : Nat}
    (hlen : f.data.length = f.dataLength.toNat) (htext : DefaultText settings f s units) :
    StoredAs settings ⟨f.data, f.dataOffset, .text⟩ (storedText s units) := by
  have hshort : f.dataLength ≤ 1 ↔ f.data.length ≤ 1 := by
    rw [hlen]
    exact UInt32.le_iff_toNat_le
  cases htext with
  | placeholder hle =>
    refine ⟨nofun, fun _ _ => ?_, fun _ hlt => absurd (hshort.mp hle) (Nat.not_le.mpr hlt)⟩
    rw [storedText_eq, Nat.add_sub_cancel_left]
    rfl
  | text hlt hs =>
    refine ⟨nofun, fun _ hle => absurd (hshort.mpr hle) (UInt32.not_le.mpr hlt), fun _ _ => ?_⟩
    refine ⟨s, ?_, storedText_eq ..⟩
    rw [DefaultValue.text?, if_pos rfl]
    exact Utf8.decode?_eq_some_iff.mpr hs.symm

/-- A candidate stores what is to be found at the record of its event. -/
theorem exists_hit_of_fitting {id : UInt16} (hfit : Candidate.fitting? settings e = some (c, id))
    (hlen : ∀ o f, e = .text o → o.default = some f → f.data.length = f.dataLength.toNat) :
    ∃ d, e.hit = .value d ∧ StoredAs settings d c.stored := by
  rcases Candidate.exists_of_fitting hfit with ⟨o, rfl, hc⟩ | ⟨o, c', rfl, -, hc, hc'⟩
  · obtain ⟨-, -, rfl⟩ := Candidate.fit_eq_ok_iff.mp hc
    exact ⟨_, rfl, storedAs_numeric settings o _⟩
  · obtain ⟨-, -, rfl⟩ := Candidate.fit_eq_ok_iff.mp hc'
    obtain ⟨name, f, s, units, -, hf, htext, rfl⟩ := Candidate.ofText_eq_ok hc
    rw [Event.hit, hf]
    exact ⟨_, rfl,
      storedAs_text (hlen o f rfl hf) (Candidate.defaultText_of_textDefault htext)⟩

/-- What is no option with a value has no default to be found. -/
theorem exists_hit_of_not_asks (hasks : asks e = false) (hc : ∀ o, e = .text o → o.Complete) :
    ∃ kind, e.hit = .bare kind := by
  cases e with
  | enter | exit | value => exact ⟨_, rfl⟩
  | numeric o => cases hasks
  | text o =>
    have hcomplete := hc o rfl
    cases hk : o.kind with
    | varchar => exact absurd hk (of_decide_eq_false hasks)
    | comment =>
      rw [TextOption.Complete, hk] at hcomplete
      rw [Event.hit, hcomplete.2]
      exact ⟨_, rfl⟩

/-- **Lookups agree with stored defaults.** Let a build over a store without variables report no
error. When it is done, the variable of a name holds the default that a lookup of the name finds,
and there is none where the lookup finds no option. -/
theorem build_holds_found (settings : Settings) (limits : Limits) (policy : Policy)
    (trees : List Tree) (locked : List String) (name : String)
    (hclean : ∀ d ∈ (build settings limits policy trees { locked }).1.report.diagnostics,
      d.severity ≠ .error) :
    let after := (build settings limits policy trees { locked }).2
    let found := Lookup.find limits none name trees
    (∀ d, found = .ok d → ∃ v, after.get? name = some v ∧ StoredAs settings d v.data) ∧
      (found = .error (.optionNotFound name) → after.get? name = none) := by
  intro after found
  let store : Store := { locked }
  let vs := verdicts settings limits policy trees store
  have hbuild := build_eq_lastDraft settings limits policy trees store
  have hget : after.get? name =
      ((takenIn settings vs).find? (·.name = name)).map Candidate.variable :=
    (congrArg (·.2.get? name) hbuild).trans ((provides_lastDraft ..).get?_eq name)
  have hacts : vs.map Prod.fst = Walk.acts limits 0 trees := Callback.map_fst_verdicts ..
  rw [hbuild] at hclean
  -- the lookup meets no error either, so it answers with the first call of the name
  have hfound : found = _ := Lookup.find_of_clean fun n hn =>
    hclean n (Report.mem_diagnostics_of_notes (hacts ▸ hn))
  cases hfirst : Lookup.firstCall limits name 0 trees with
  | none =>
    rw [hfirst] at hfound
    refine ⟨fun d hd => (by cases hfound.symm.trans hd), fun _ => ?_⟩
    rw [Lookup.firstCall, ← Walk.calls_acts, ← hacts] at hfirst
    have hne : ∀ c ∈ takenIn settings vs, c.name ≠ name := name_ne_of_find?_eq_none hfirst
    rw [hget, List.find?_eq_none.mpr fun c hc hn => hne c hc (of_decide_eq_true hn)]
    rfl
  | some call =>
    obtain ⟨tree, e⟩ := call
    rw [hfirst] at hfound
    replace hfound : found = e.hit.answer name := hfound
    have hmem := List.mem_of_find?_eq_some hfirst
    have hdecoded (o : TextOption) (he : e = .text o) :
        ∃ w h kind, TextOption.decode w h kind limits = .ok o :=
      Walk.exists_decode_of_calls (he ▸ hmem)
    cases hasks : asks e with
    | false =>
      obtain ⟨kind, hhit⟩ := exists_hit_of_not_asks hasks fun o he => by
        obtain ⟨w, h, kind, hd⟩ := hdecoded o he
        exact TextOption.complete_of_decode hd
      rw [hhit] at hfound
      exact ⟨fun d hd => (by cases hfound.symm.trans hd), fun hn => (by cases hfound.symm.trans hn)⟩
    | true =>
      rw [Lookup.firstCall, ← Walk.calls_acts, ← hacts] at hfirst
      have hall : AllTaken settings vs := .of_clean hclean
      obtain ⟨c, id, hfit, hfind⟩ := find?_takenIn hall hfirst hasks
      obtain ⟨d, hhit, hstored⟩ := exists_hit_of_fitting hfit fun o f he hf => by
        obtain ⟨w, h, kind, hd⟩ := hdecoded o he
        exact TextOption.length_of_decode hd f hf
      rw [hhit] at hfound
      refine ⟨fun d' hd' => ⟨c.variable, ?_, ?_⟩, fun hn => (by cases hfound.symm.trans hn)⟩
      · rw [hget, hfind]
        rfl
      · obtain rfl := Except.ok.inj (hfound.symm.trans hd')
        exact hstored

/-- A tree of a number, a text and an empty text. -/
def threeDefaults : List Tree :=
  let bytes := Blueprint.encode <| .form ⟨1, 0, ⟨0⟩⟩ (some (.text .label "Boot"))
    [.option (.numeric .number ⟨2, 0, ⟨0⟩⟩ "n" "N" 7), .option (.varchar ⟨3, 0, ⟨0⟩⟩ "s" "S" "off"),
      .option (.varchar ⟨4, 0, ⟨0⟩⟩ "e" "E" "")] none
  (Tree.ofBytes bytes.toArray).toOption.toList

theorem build_holds_found_threeDefaults :
    let after := (build {} {} .store threeDefaults {}).2
    (∃ v, after.get? "n" = some v ∧ v.data = [7, 0, 0, 0]) ∧
      (∃ v, after.get? "s" = some v ∧ v.data = [111, 0, 102, 0, 102, 0, 0, 0]) ∧
      (∃ v, after.get? "e" = some v ∧ v.data = wide "INVALID" ++ [0, 0]) ∧
      after.get? "x" = none := by
  -- one evaluation, so that the tree is decoded once for all runs over it
  obtain ⟨hclean, hn, hs, he, hx⟩ :
      (∀ d ∈ (build {} {} .store threeDefaults { locked := [] }).1.report.diagnostics,
          d.severity ≠ .error) ∧
        Lookup.find {} none "n" threeDefaults = .ok ⟨[7, 0, 0, 0], 73, .numeric⟩ ∧
        Lookup.find {} none "s" threeDefaults = .ok ⟨[111, 102, 102, 0], 145, .text⟩ ∧
        Lookup.find {} none "e" threeDefaults = .ok ⟨[0], 217, .text⟩ ∧
        Lookup.find {} none "x" threeDefaults = .error (.optionNotFound "x") := by
    decide +kernel
  have holds (name : String) := build_holds_found {} {} .store threeDefaults [] name hclean
  obtain ⟨n, hn, hnumber⟩ := (holds "n").1 _ hn
  obtain ⟨s, hs, htext⟩ := (holds "s").1 _ hs
  obtain ⟨e, he, hempty⟩ := (holds "e").1 _ he
  obtain ⟨text, hoff, hstored⟩ := htext.text rfl (by decide)
  have hoff' : DefaultValue.text? ⟨[111, 102, 102, 0], 145, .text⟩ = some "off" := by
    decide +kernel
  obtain rfl := Option.some.inj (hoff.symm.trans hoff')
  exact ⟨⟨n, hn, (hnumber.number rfl).2⟩, ⟨s, hs, hstored.trans (by decide +kernel)⟩,
    ⟨e, he, hempty.placeholder rfl (by decide)⟩, (holds "x").2 hx⟩

end Menu

end SetupForms
