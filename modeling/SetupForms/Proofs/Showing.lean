import Mathlib.Data.List.Forall2
import SetupForms.Proofs.Acceptance

/-!
# What is shown and stored of an option

Two relations say what a menu makes of an event, by the fields of the event alone and by nothing of
the way in which a menu is built. `Shows` gives the lines: a subtitle for a form, a note for a
comment, and for an option with a value the question in the widget of its kind. `Holds` gives the
bytes of the variable of an option: the four bytes of a number, the low byte first, or a text in
16-bit units with zero units behind it.

A candidate is how the builder holds an option. The lines and bytes that it makes of one are those
of these relations (`shows_of_fitting`, `holds_of_fitting`), and the relation determines the lines
(`ShowsAll.unique`).
-/

namespace SetupForms.Menu

open Text

variable {settings : Settings} {tree : Nat} {e : Event} {xs ys : List Element}
  {vs ws : List (Act × Except Fault Unit)}

/-! ## Texts in variables

A variable holds a text in 16-bit units. How many units it has is up to the field with the default:
one for each byte of the payload, but at least as many as the text and a terminator take, since a
payload need not have a terminator of its own. A field of at most one byte has no text, and a
placeholder stands in for it. -/

/-- A text in UTF-16, the low byte of each unit first. -/
def wide (s : String) : List UInt8 := (Utf16.encode s.toList).flatMap Bytes.ofUInt16

theorem length_wide (s : String) : (wide s).length = 2 * Utf16.length s := by
  rw [wide, Utf16.length]
  induction Utf16.encode s.toList with
  | nil => rfl
  | cons u us ih => rw [List.flatMap_cons, List.length_append, ih, Bytes.length_ofUInt16,
      List.length_cons, Nat.mul_add, Nat.add_comm]

/-- A stored text is followed by zero units. -/
theorem storedText_eq (s : String) (units : Nat) :
    storedText s units = wide s ++ List.replicate (2 * (units - Utf16.length s)) 0 := by
  rw [Nat.mul_sub, ← length_wide]
  rfl

/-- The text that a field gives for a default, and how many units its variable has. -/
inductive DefaultText (settings : Settings) (field : Field) : String → Nat → Prop where
  /-- the placeholder and a terminator in place of at most one byte -/
  | placeholder :
      field.dataLength ≤ 1 →
      DefaultText settings field settings.invalidString (Utf16.length settings.invalidString + 1)
  /-- what stands in the field before its first NUL -/
  | text {s : String} :
      1 < field.dataLength → field.textBytes = Utf8.encode s →
      DefaultText settings field s (max field.data.length (Utf16.length s + 1))

/-- The fields determine the text of a default. -/
theorem DefaultText.unique {field : Field} {s t : String} {units units' : Nat}
    (h : DefaultText settings field s units) (h' : DefaultText settings field t units') :
    s = t ∧ units = units' := by
  cases h with
  | placeholder hshort =>
    cases h' with
    | placeholder => exact ⟨rfl, rfl⟩
    | text hlong => exact absurd hshort (UInt32.not_le.mpr hlong)
  | text hlong hs =>
    cases h' with
    | placeholder hshort => exact absurd hshort (UInt32.not_le.mpr hlong)
    | text _ ht =>
      obtain rfl := Utf8.encode_injective (hs.symm.trans ht)
      exact ⟨rfl, rfl⟩

/-- The text that a candidate has is that of its default. -/
theorem Candidate.defaultText_of_textDefault {field : Field} {s : String} {units : Nat}
    (h : textDefault settings field = .ok (s, units)) : DefaultText settings field s units := by
  unfold textDefault at h
  split at h
  next hle =>
    obtain ⟨rfl, rfl⟩ := Prod.mk.inj (Except.ok.inj h)
    exact .placeholder hle
  next hle =>
    obtain ⟨s', hs, heq⟩ := map_eq_ok_iff.mp h
    obtain ⟨rfl, rfl⟩ := Prod.mk.inj heq
    exact .text (UInt32.not_le.mp hle) (Field.text_eq_ok_iff.mp hs)

/-! ## What is shown

Each kind of event has its own lines. Nothing is shown of the values of an enum, which are called
back before it: the drop-down of the enum lists them. -/

/-- The question of an option: its id lies as far behind the start of the range as the object id
says, and is also that of its variable, which has the name of the option. -/
structure Question.Asks (settings : Settings) (name : String) (fields : CommonFields)
    (label : String) (help : Option String) (size : Nat) (q : Question) : Prop where
  /-- the id is the object id above the start of the range -/
  id : q.id.toNat = settings.componentStart.toNat + fields.objectId.toNat
  /-- the variable has the same id, and the name and the size that are given -/
  varStore : q.varStore = ⟨q.id, name, size⟩
  /-- the displayed name is that of the option -/
  label : q.label = label
  /-- the help text is that of the option -/
  help : q.help = help
  /-- a read-only option has a fixed answer -/
  flags : q.flags = ⟨fields.flags.isReadOnly, settings.resetRequired⟩
  /-- the option says how it is shown -/
  visibility : q.visibility = ⟨fields.flags.isSuppressed, fields.flags.isGrayedOut⟩

/-- The lines that a menu shows of an event which it takes. -/
inductive Shows (settings : Settings) : Event → List Element → Prop where
  /-- a form gets a heading -/
  | heading {form : Form} :
      Shows settings (.enter form) [.subtitle form.name form.fields.flags.visibility]
  /-- behind a tree comes a blank line, if the settings ask for it -/
  | separator {form : Form} :
      form.depth = 0 → settings.treeSeparator = true →
      Shows settings (.exit form) [.subtitle "" ⟨false, false⟩]
  /-- otherwise the end of a form is not shown -/
  | silent {form : Form} :
      ¬(form.depth = 0 ∧ settings.treeSeparator = true) → Shows settings (.exit form) []
  /-- a value is shown with its enum -/
  | value {o : NumericOption} {v : EnumValue} : Shows settings (.value o v) []
  /-- an enum is a drop-down of all its values in their order -/
  | oneOf {o : NumericOption} {q : Question} :
      o.kind = .enum → q.Asks settings o.name o.fields o.label o.help 4 →
      Shows settings (.numeric o)
        [.question q (.oneOf o.default (o.values.map fun v => ⟨v.value, v.label⟩))]
  /-- a number may be any of 32 bits -/
  | number {o : NumericOption} {q : Question} :
      o.kind = .number → q.Asks settings o.name o.fields o.label o.help 4 →
      Shows settings (.numeric o) [.question q (.number o.default 0 0xffffffff)]
  /-- a switch is on if its default is not zero -/
  | checkBox {o : NumericOption} {q : Question} :
      o.kind = .bool → q.Asks settings o.name o.fields o.label o.help 4 →
      Shows settings (.numeric o) [.question q (.checkBox (o.default != 0))]
  /-- a text may take all units of its variable but one -/
  | text {o : TextOption} {name : String} {field : Field} {s : String} {units : Nat}
      {q : Question} :
      o.kind = .varchar → o.name = some name → o.default = some field →
      DefaultText settings field s units →
      q.Asks settings name o.fields o.label o.help (2 * units) →
      Shows settings (.text o) [.question q (.text s 0 (units - 1))]
  /-- a comment is a note -/
  | note {o : TextOption} :
      o.kind = .comment →
      Shows settings (.text o) [.note o.label o.help o.fields.flags.visibility]

/-- The lines of acts with their verdicts: those of the events that are taken, in their order.
Nothing is shown of what is refused. -/
inductive ShowsAll (settings : Settings) :
    List (Act × Except Fault Unit) → List Element → Prop where
  | nil : ShowsAll settings [] []
  /-- the event is taken -/
  | taken {tree : Nat} {e : Event} {vs : List (Act × Except Fault Unit)} {xs ys : List Element} :
      Shows settings e xs → ShowsAll settings vs ys →
      ShowsAll settings ((.call tree e, .ok ()) :: vs) (xs ++ ys)
  /-- the event is refused -/
  | refused {tree : Nat} {e : Event} {fault : Fault} {vs : List (Act × Except Fault Unit)}
      {ys : List Element} :
      ShowsAll settings vs ys → ShowsAll settings ((.call tree e, .error fault) :: vs) ys
  /-- a diagnostic is no event -/
  | noted {d : Diagnostic} {verdict : Except Fault Unit} {vs : List (Act × Except Fault Unit)}
      {ys : List Element} :
      ShowsAll settings vs ys → ShowsAll settings ((.note d, verdict) :: vs) ys

/-- An option has one question. -/
theorem Question.Asks.unique {name : String} {fields : CommonFields} {label : String}
    {help : Option String} {size : Nat} {q r : Question}
    (hq : q.Asks settings name fields label help size)
    (hr : r.Asks settings name fields label help size) : q = r := by
  have hid : q.id = r.id := UInt16.toNat_inj.mp (hq.id.trans hr.id.symm)
  have hvar : q.varStore = r.varStore := by rw [hq.varStore, hr.varStore, hid]
  have hlabel := hq.label.trans hr.label.symm
  have hhelp := hq.help.trans hr.help.symm
  have hflags := hq.flags.trans hr.flags.symm
  have hvisibility := hq.visibility.trans hr.visibility.symm
  cases q
  cases r
  exact Question.mk.injEq .. ▸ ⟨hid, hvar, hlabel, hhelp, hflags, hvisibility⟩

/-- The fields of an event determine its lines. -/
theorem Shows.unique (hx : Shows settings e xs) (hy : Shows settings e ys) : xs = ys := by
  -- One of the relations has the event, and the other one has a rule for the same event. Options
  -- have several rules, one for each kind, and the kind tells which.
  cases hx with
  | heading => cases hy; rfl
  | separator hdepth hsep =>
    cases hy with
    | separator => rfl
    | silent hn => exact absurd ⟨hdepth, hsep⟩ hn
  | silent hn =>
    cases hy with
    | separator hdepth hsep => exact absurd ⟨hdepth, hsep⟩ hn
    | silent => rfl
  | value => cases hy; rfl
  | oneOf hk hq =>
    cases hy with
    | oneOf _ hr => rw [hq.unique hr]
    | number hk' | checkBox hk' => cases hk.symm.trans hk'
  | number hk hq =>
    cases hy with
    | number _ hr => rw [hq.unique hr]
    | oneOf hk' | checkBox hk' => cases hk.symm.trans hk'
  | checkBox hk hq =>
    cases hy with
    | checkBox _ hr => rw [hq.unique hr]
    | oneOf hk' | number hk' => cases hk.symm.trans hk'
  | text hk hname hfield htext hq =>
    cases hy with
    | text _ hname' hfield' htext' hr =>
      obtain rfl := Option.some.inj (hname.symm.trans hname')
      obtain rfl := Option.some.inj (hfield.symm.trans hfield')
      obtain ⟨rfl, rfl⟩ := htext.unique htext'
      rw [hq.unique hr]
    | note hk' => cases hk.symm.trans hk'
  | note hk =>
    cases hy with
    | note => rfl
    | text hk' => cases hk.symm.trans hk'

/-- Acts and their verdicts determine the lines. -/
theorem ShowsAll.unique (hx : ShowsAll settings vs xs) (hy : ShowsAll settings vs ys) :
    xs = ys := by
  induction hx generalizing ys with
  | nil => cases hy; rfl
  | taken hshows _ ih =>
    cases hy with
    | taken hshows' hrest => rw [hshows.unique hshows', ih hrest]
  | refused _ ih =>
    cases hy with
    | refused hrest => exact ih hrest
  | noted _ ih =>
    cases hy with
    | noted hrest => exact ih hrest

/-! ## What is stored

The variable of an option holds its default, whatever the kind of the option. -/

/-- The bytes that the variable of an option holds. -/
inductive Holds (settings : Settings) : Event → List UInt8 → Prop where
  /-- the four bytes that spell the number, the low one first -/
  | number {o : NumericOption} {bytes : List UInt8} :
      bytes.length = 4 → Bytes.toNat bytes = o.default.toNat →
      Holds settings (.numeric o) bytes
  /-- the text and zero units, up to as many units as the variable has -/
  | text {o : TextOption} {field : Field} {s : String} {units : Nat} :
      o.default = some field → DefaultText settings field s units →
      Holds settings (.text o) (wide s ++ List.replicate (2 * (units - Utf16.length s)) 0)

/-! ## What candidates show and store

A candidate has passed through the builder and holds what that has made of an option. Each of its
parts is compared with the field that it comes from, and the widget and the bytes by the kind.
-/

theorem length_storedText {s : String} {units : Nat} (hle : Utf16.length s ≤ units) :
    (storedText s units).length = 2 * units := by
  rw [storedText_eq, List.length_append, length_wide, List.length_replicate]
  omega

/-- A default has room for one unit more than its text. -/
theorem DefaultText.length_lt {field : Field} {s : String} {units : Nat}
    (h : DefaultText settings field s units) : Utf16.length s < units := by
  cases h with
  | placeholder => exact Nat.lt_succ_self _
  | text => exact Nat.lt_of_lt_of_le (Nat.lt_succ_self _) (Nat.le_max_right ..)

/-- The question of a candidate is that of its option. In range, the id does not wrap around. -/
theorem asks_question {c : Candidate} {id : UInt16}
    (hid : Candidate.questionId settings c.fields.objectId = .ok id) :
    (c.question settings id).Asks settings c.name c.fields c.label c.help c.stored.length where
  id := by
    obtain ⟨hlt, rfl⟩ := Candidate.questionId_eq_ok_iff.mp hid
    exact UInt16.toNat_ofNat_of_lt' (Nat.lt_trans hlt settings.componentEnd.toNat_lt)
  varStore := rfl
  label := rfl
  help := rfl
  flags := rfl
  visibility := rfl

/-- A fitting candidate is shown as its option is. -/
theorem shows_of_fitting {c : Candidate} {id : UInt16}
    (h : Candidate.fitting? settings e = some (c, id)) :
    Shows settings e [.question (c.question settings id) c.widget] := by
  rcases Candidate.exists_of_fitting h with ⟨o, rfl, hfit⟩ | ⟨o, c', rfl, hk, hc, hfit⟩
  · obtain ⟨hid, -, rfl⟩ := Candidate.fit_eq_ok_iff.mp hfit
    have hasks := asks_question hid
    have hlen : (Candidate.ofNumeric o).stored.length = 4 := Bytes.length_ofUInt32 _
    rw [hlen] at hasks
    have hwidget : (Candidate.ofNumeric o).widget = Candidate.numericWidget o := rfl
    rw [hwidget, Candidate.numericWidget]
    cases hkind : o.kind with
    | enum => exact .oneOf hkind hasks
    | number => exact .number hkind hasks
    | bool => exact .checkBox hkind hasks
  · obtain ⟨hid, -, rfl⟩ := Candidate.fit_eq_ok_iff.mp hfit
    obtain ⟨name, field, s, units, hname, hfield, htext, rfl⟩ := Candidate.ofText_eq_ok hc
    have hdefault := Candidate.defaultText_of_textDefault htext
    have hasks := asks_question hid
    rw [length_storedText (Nat.le_of_lt hdefault.length_lt)] at hasks
    exact .text hk hname hfield hdefault hasks

/-- A fitting candidate stores what the variable of its option holds. -/
theorem holds_of_fitting {c : Candidate} {id : UInt16}
    (h : Candidate.fitting? settings e = some (c, id)) : Holds settings e c.stored := by
  rcases Candidate.exists_of_fitting h with ⟨o, rfl, hfit⟩ | ⟨o, c', rfl, -, hc, hfit⟩
  · obtain ⟨-, -, rfl⟩ := Candidate.fit_eq_ok_iff.mp hfit
    exact .number (Bytes.length_ofUInt32 _) (Bytes.toNat_ofUInt32 _)
  · obtain ⟨-, -, rfl⟩ := Candidate.fit_eq_ok_iff.mp hfit
    obtain ⟨name, field, s, units, -, hfield, htext, rfl⟩ := Candidate.ofText_eq_ok hc
    exact storedText_eq s units ▸ .text hfield (Candidate.defaultText_of_textDefault htext)

/-! ## Acts and what they bring

Of acts with their verdicts the builder makes lines (`shownIn`) and candidates (`takenIn`). If all
that is taken of the options with a value fits, the lines are those of the acts, and the candidates
stand one by one for the options. -/

/-- The options with a value that are taken, in the order of the acts, each with what it asks. -/
def optionsIn (vs : List (Act × Except Fault Unit)) : List (Event × Asking) :=
  vs.filterMap fun
    | (.call _ e, .ok ()) => (Asking.ofEvent e).map (e, ·)
    | (.call _ _, .error _) | (.note _, _) => none

/-- What is taken of the options with a value fits. -/
def TakenFit (settings : Settings) (vs : List (Act × Except Fault Unit)) : Prop :=
  ∀ tree e, (.call tree e, .ok ()) ∈ vs → asks e = true →
    ∃ r, Candidate.fitting? settings e = some r

/-- A candidate stands for an option: it has its name and its fields and stores what the variable of
the option holds. -/
structure Candidate.StandsFor (settings : Settings) (x : Event × Asking) (c : Candidate) :
    Prop where
  name : c.name = x.2.name
  fields : c.fields = x.2.fields
  holds : Holds settings x.1 c.stored

/-- An event is shown as it should be. -/
theorem shows_shown (hfit : asks e = true → ∃ r, Candidate.fitting? settings e = some r) :
    Shows settings e (shown settings (.call tree e)) := by
  cases hasks : asks e with
  | true =>
    obtain ⟨⟨c, id⟩, hr⟩ := hfit hasks
    exact shown_of_fitting hr ▸ shows_of_fitting hr
  | false =>
    cases e with
    | enter form => exact .heading
    | exit form =>
      by_cases hsep : form.depth = 0 ∧ settings.treeSeparator = true
      · rw [shown, if_pos hsep]
        exact .separator hsep.1 hsep.2
      · rw [shown, if_neg hsep]
        exact .silent hsep
    | value o v => exact .value
    | numeric o => cases hasks
    | text o =>
      cases hk : o.kind with
      | varchar => exact absurd hk (of_decide_eq_false hasks)
      | comment =>
        rw [shown, hk]
        exact .note hk

theorem showsAll_shownIn (hfit : TakenFit settings vs) :
    ShowsAll settings vs (shownIn settings vs) := by
  induction vs with
  | nil => exact .nil
  | cons v vs ih =>
    have hrest := ih fun tree e hmem => hfit tree e (List.mem_cons_of_mem v hmem)
    obtain ⟨a, verdict⟩ := v
    cases a with
    | note d => cases verdict <;> exact .noted hrest
    | call tree e =>
      cases verdict with
      | error fault => exact .refused hrest
      | ok _ => exact .taken (shows_shown (hfit tree e List.mem_cons_self)) hrest

/-- A candidate that fits stands for its option. -/
theorem standsFor_of_fitting {c : Candidate} {id : UInt16}
    (h : Candidate.fitting? settings e = some (c, id)) :
    ∃ q, Asking.ofEvent e = some q ∧ c.StandsFor settings (e, q) := by
  obtain ⟨q, hq, -, hname, hfields, -⟩ := Candidate.asking_of_fitting h
  exact ⟨q, hq, hname, hfields, holds_of_fitting h⟩

/-- The candidates that are taken stand for the options that are taken, in the same order. -/
theorem forall₂_standsFor (hfit : TakenFit settings vs) :
    List.Forall₂ (Candidate.StandsFor settings) (optionsIn vs) (takenIn settings vs) := by
  induction vs with
  | nil => exact .nil
  | cons v vs ih =>
    have hrest := ih fun tree e hmem => hfit tree e (List.mem_cons_of_mem v hmem)
    obtain ⟨a, verdict⟩ := v
    cases a with
    | note d => exact hrest
    | call tree e =>
      cases verdict with
      | error fault => exact hrest
      | ok _ =>
        cases hr : Candidate.fitting? settings e with
        | some r =>
          obtain ⟨q, hq, hstands⟩ := standsFor_of_fitting hr
          rw [optionsIn, List.filterMap_cons, takenIn, List.filterMap_cons]
          simp only [hq, taken?, hr, Option.map_some]
          exact .cons hstands hrest
        | none =>
          -- what does not fit but is taken asks for nothing
          have hq : Asking.ofEvent e = none := by
            cases hq : Asking.ofEvent e with
            | none => rfl
            | some q =>
              obtain ⟨r, hr'⟩ := hfit tree e List.mem_cons_self (Asking.asks_of_ofEvent hq)
              cases hr.symm.trans hr'
          rw [optionsIn, List.filterMap_cons, takenIn, List.filterMap_cons]
          simp only [hq, taken?, hr, Option.map_none]
          exact hrest

/-- Candidates have the names and fields of the options for which they stand. -/
theorem map_eq_of_standsFor {options : List (Event × Asking)} {taken : List Candidate}
    (h : List.Forall₂ (Candidate.StandsFor settings) options taken) :
    taken.map (fun c => (c.name, c.fields)) = options.map fun x => (x.2.name, x.2.fields) := by
  induction h with
  | nil => rfl
  | cons hstands _ ih => rw [List.map_cons, List.map_cons, ih, hstands.name, hstands.fields]

/-- The first candidate of a name stands for the first option of that name. -/
theorem exists_find?_of_standsFor {options : List (Event × Asking)} {taken : List Candidate}
    {name : String} {c : Candidate}
    (h : List.Forall₂ (Candidate.StandsFor settings) options taken)
    (hc : taken.find? (·.name = name) = some c) :
    ∃ x, options.find? (·.2.name = name) = some x ∧ c.StandsFor settings x := by
  induction h with
  | nil => cases hc
  | @cons x c' xs cs hstands _ ih =>
    rw [List.find?_cons] at hc ⊢
    rw [← hstands.name]
    cases hn : decide (c'.name = name) with
    | true =>
      rw [hn] at hc
      obtain rfl := Option.some.inj hc
      exact ⟨x, rfl, hstands⟩
    | false =>
      rw [hn] at hc
      exact ih hc

end SetupForms.Menu
