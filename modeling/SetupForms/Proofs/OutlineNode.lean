import SetupForms.Proofs.WalkTrace

/-!
# The nodes of an outline

What becomes of a framed record, case by case, and where it lies. What an outline shows concerns
records inside the frames it was read from: the node of a framed record lies in that frame
(`Node.within_ofHeader`), and what stands from a cursor on lies between the cursor and the end of
the window (`Node.within_children`).
-/

namespace SetupForms

variable {w : Window} {cursor : Nat} {h : Header} {limits : Limits} {depth : Nat}

/-! ## The node of a framed record

A record is read by its role, and a nested form by the limit on the depth and by whether it decodes.
The six lemmas are the cases of `ofHeader`, one each, so that it need not be opened again.
-/

namespace Node

variable {inside : (nested : Form) → Form.decode w h.offset (depth + 1) = .ok nested → List Node}

theorem ofHeader_of_tooDeep (hr : Role.ofTag h.tag = .form) (hm : limits.maxDepth < depth + 1) :
    ofHeader w limits depth h inside =
      .malformed h.offset h.tag (.nestingTooDeep h.offset limits.maxDepth) := by
  simp only [ofHeader, hr, if_pos hm]

theorem ofHeader_of_form {nested : Form} (hr : Role.ofTag h.tag = .form)
    (hm : ¬limits.maxDepth < depth + 1) (hd : Form.decode w h.offset (depth + 1) = .ok nested) :
    ofHeader w limits depth h inside = .form nested (inside nested hd) := by
  simp only [ofHeader, hr, if_neg hm]
  split
  next nested' hd' =>
    obtain rfl := Except.ok.inj (hd.symm.trans hd')
    rfl
  next f hd' => cases hd.symm.trans hd'

theorem ofHeader_of_badForm {f : Fault} (hr : Role.ofTag h.tag = .form)
    (hm : ¬limits.maxDepth < depth + 1) (hd : Form.decode w h.offset (depth + 1) = .error f) :
    ofHeader w limits depth h inside = .malformed h.offset h.tag f := by
  simp only [ofHeader, hr, if_neg hm]
  split
  next nested hd' => cases hd.symm.trans hd'
  next g hd' =>
    obtain rfl := Except.error.inj (hd.symm.trans hd')
    rfl

theorem ofHeader_of_numeric {kind : NumericKind} (hr : Role.ofTag h.tag = .numeric kind) :
    ofHeader w limits depth h inside = ofExcept h .numeric (NumericOption.decode w h kind) := by
  simp only [ofHeader, hr]

theorem ofHeader_of_text {kind : TextKind} (hr : Role.ofTag h.tag = .text kind) :
    ofHeader w limits depth h inside = ofExcept h .text (TextOption.decode w h kind limits) := by
  simp only [ofHeader, hr]

theorem ofHeader_of_unrecognized (hr : Role.ofTag h.tag = .unrecognized) :
    ofHeader w limits depth h inside = .unrecognized h.offset h.tag := by
  simp only [ofHeader, hr]

/-- Only forms are entered, and only within the limit. -/
theorem exists_form_of_enter {form : Form}
    (he : .enter form ∈ (ofHeader w limits depth h inside).events) :
    ∃ nested hd, depth + 1 ≤ limits.maxDepth ∧
      ofHeader w limits depth h inside = .form nested (inside nested hd) := by
  cases hr : Role.ofTag h.tag with
  | form =>
    by_cases hm : limits.maxDepth < depth + 1
    · rw [ofHeader_of_tooDeep hr hm] at he
      cases he
    rcases eq_ok_or_eq_error (Form.decode w h.offset (depth + 1)) with ⟨nested, hd⟩ | ⟨f, hd⟩
    · exact ⟨nested, hd, Nat.le_of_not_lt hm, ofHeader_of_form hr hm hd⟩
    · rw [ofHeader_of_badForm hr hm hd] at he
      cases he
  | numeric kind =>
    rw [ofHeader_of_numeric hr] at he
    cases hd : NumericOption.decode w h kind with
    | error f =>
      rw [hd] at he
      cases he
    | ok o => simp [hd, ofExcept, events] at he
  | text kind =>
    rw [ofHeader_of_text hr] at he
    cases hd : TextOption.decode w h kind limits with
    | error f =>
      rw [hd] at he
      cases he
    | ok o => simp [hd, ofExcept, events] at he
  | unrecognized =>
    rw [ofHeader_of_unrecognized hr] at he
    cases he

end Node

/-! ## Decoders keep to their frames

A decoder starts at the start of a record and goes on from field to field, never back. Hence
whatever is decoded stands at the start of the record or behind it, and the window ends where the
record does.
-/

/-- A text field that must be there is passed. -/
theorem Field.le_of_requireText {tag : UInt32} {s : String} {next : Nat}
    (hr : requireText w cursor tag = .ok (s, next)) : cursor ≤ next := by
  obtain ⟨f, hf, hr⟩ := bind_eq_ok_iff.mp hr
  obtain ⟨t, -, hr⟩ := bind_eq_ok_iff.mp hr
  obtain ⟨-, rfl⟩ := Prod.mk.inj (pure_eq_ok_iff.mp hr)
  have := (require_stop hf).2.1
  omega

/-- A text field that may be missing is passed or stays in front. -/
theorem Field.le_of_optionalText {tag : UInt32} {s : Option String} {next : Nat}
    (hr : optionalText w cursor tag = .ok (s, next)) : cursor ≤ next := by
  obtain ⟨found, hn, hr⟩ := bind_eq_ok_iff.mp hr
  cases found with
  | none =>
    obtain ⟨-, rfl⟩ := Prod.mk.inj (pure_eq_ok_iff.mp hr)
    exact Nat.le_refl _
  | some f =>
    obtain ⟨t, -, hr⟩ := bind_eq_ok_iff.mp hr
    obtain ⟨-, rfl⟩ := Prod.mk.inj (pure_eq_ok_iff.mp hr)
    have := (require_stop (require_eq_ok_iff.mpr hn)).2.1
    omega

theorem EnumValue.offset_of_decode {v : EnumValue} (hd : decode w h = .ok v) :
    v.offset = h.offset := by
  obtain ⟨value, -, hd⟩ := bind_eq_ok_iff.mp hd
  obtain ⟨field, -, hd⟩ := bind_eq_ok_iff.mp hd
  obtain ⟨-, hd⟩ := guard_eq_ok_iff.mp hd
  obtain ⟨label, -, hd⟩ := bind_eq_ok_iff.mp hd
  rw [← pure_eq_ok_iff.mp hd]

/-- Decoded values stand between the cursor and the end of the window. -/
theorem EnumValue.offset_of_decodeAll {vs : List EnumValue} (hd : decodeAll w cursor = .ok vs) :
    ∀ v ∈ vs, cursor ≤ v.offset ∧ v.offset < w.stop := by
  fun_induction decodeAll w cursor generalizing vs with
  | case1 cursor hlt f hp => cases hd
  | case2 cursor hlt h hp f hv => cases hd
  | case3 cursor hlt h hp v hv ih =>
    obtain ⟨vs', hvs, rfl⟩ := map_eq_ok_iff.mp hd
    have ho := (offset_of_decode hv).trans (Header.parse_eq_ok hp).1
    have hs := Header.lt_stop_of_parse hp
    intro x hx
    rcases List.mem_cons.mp hx with rfl | hx
    · omega
    · have := ih hvs x hx
      omega
  | case4 cursor hge =>
    obtain rfl := Except.ok.inj hd
    nofun

/-- An option stands where its record does, and its values stand in the record. -/
theorem NumericOption.offset_of_decode {o : NumericOption} {kind : NumericKind}
    (hd : decode w h kind = .ok o) :
    o.offset = h.offset ∧ ∀ v ∈ o.values, h.offset ≤ v.offset ∧ v.offset < h.stop := by
  obtain ⟨⟨fields, default⟩, -, hd⟩ := bind_eq_ok_iff.mp hd
  obtain ⟨⟨name, c₁⟩, hn, hd⟩ := bind_eq_ok_iff.mp hd
  obtain ⟨⟨label, c₂⟩, hl, hd⟩ := bind_eq_ok_iff.mp hd
  obtain ⟨⟨help, c₃⟩, hh, hd⟩ := bind_eq_ok_iff.mp hd
  obtain ⟨values, hv, hd⟩ := bind_eq_ok_iff.mp hd
  obtain rfl := pure_eq_ok_iff.mp hd
  refine ⟨rfl, fun v hm => ?_⟩
  -- the values start behind the three text fields
  have h₁ := Field.le_of_requireText hn
  have h₂ := Field.le_of_requireText hl
  have h₃ := Field.le_of_optionalText hh
  cases kind with
  | enum =>
    have hlow := EnumValue.offset_of_decodeAll hv v hm
    simp only [Window.upTo] at hlow
    omega
  | number | bool =>
    obtain ⟨⟨⟩, -, rfl⟩ := map_eq_ok_iff.mp hv
    cases hm

theorem NumericOption.frame_of_decode {o : NumericOption} {kind : NumericKind}
    (hd : decode w h kind = .ok o) : o.offset = h.offset ∧ o.size = h.size ∧ o.kind = kind := by
  obtain ⟨⟨fields, default⟩, -, hd⟩ := bind_eq_ok_iff.mp hd
  obtain ⟨⟨name, c₁⟩, -, hd⟩ := bind_eq_ok_iff.mp hd
  obtain ⟨⟨label, c₂⟩, -, hd⟩ := bind_eq_ok_iff.mp hd
  obtain ⟨⟨help, c₃⟩, -, hd⟩ := bind_eq_ok_iff.mp hd
  obtain ⟨values, -, hd⟩ := bind_eq_ok_iff.mp hd
  obtain rfl := pure_eq_ok_iff.mp hd
  exact ⟨rfl, rfl, rfl⟩

/-- The default and the name of a decoded option are those that were read. -/
theorem TextOption.decodeValue_of_decode {o : TextOption} {kind : TextKind}
    (hd : decode w h kind limits = .ok o) :
    ∃ next, decodeValue (w.upTo h.stop) (h.offset + Layout.textLength) limits kind =
      .ok (o.default, o.name, next) := by
  obtain ⟨fields, -, hd⟩ := bind_eq_ok_iff.mp hd
  obtain ⟨⟨default, name, next⟩, hv, hd⟩ := bind_eq_ok_iff.mp hd
  obtain ⟨⟨label, c₂⟩, -, hd⟩ := bind_eq_ok_iff.mp hd
  obtain ⟨⟨help, c₃⟩, -, hd⟩ := bind_eq_ok_iff.mp hd
  obtain ⟨-, hd⟩ := guard_eq_ok_iff.mp hd
  obtain rfl := pure_eq_ok_iff.mp hd
  exact ⟨next, hv⟩

/-- The default of a decoded option is the field behind the fixed part. -/
theorem TextOption.read_default_of_decode {o : TextOption} {kind : TextKind} {f : Field}
    (hd : decode w h kind limits = .ok o) (hf : o.default = some f) :
    Field.read (w.upTo h.stop) (h.offset + Layout.textLength) = .ok f := by
  obtain ⟨next, hv⟩ := decodeValue_of_decode hd
  rw [hf] at hv
  cases kind with
  | comment => cases hv
  | varchar =>
    obtain ⟨field, hfield, hv⟩ := bind_eq_ok_iff.mp hv
    obtain ⟨-, hv⟩ := guard_eq_ok_iff.mp hv
    obtain ⟨⟨text, c⟩, -, hv⟩ := bind_eq_ok_iff.mp hv
    obtain ⟨hsome, -⟩ := Prod.mk.inj (pure_eq_ok_iff.mp hv)
    obtain rfl := Option.some.inj hsome
    exact Field.next?_eq_some (Field.require_eq_ok_iff.mp hfield)

theorem TextOption.frame_of_decode {o : TextOption} {kind : TextKind}
    (hd : decode w h kind limits = .ok o) :
    o.offset = h.offset ∧ o.size = h.size ∧ o.kind = kind := by
  obtain ⟨fields, -, hd⟩ := bind_eq_ok_iff.mp hd
  obtain ⟨⟨default, name, c₁⟩, -, hd⟩ := bind_eq_ok_iff.mp hd
  obtain ⟨⟨label, c₂⟩, -, hd⟩ := bind_eq_ok_iff.mp hd
  obtain ⟨⟨help, c₃⟩, -, hd⟩ := bind_eq_ok_iff.mp hd
  obtain ⟨-, hd⟩ := guard_eq_ok_iff.mp hd
  obtain rfl := pure_eq_ok_iff.mp hd
  exact ⟨rfl, rfl, rfl⟩

theorem TextOption.offset_of_decode {o : TextOption} {kind : TextKind}
    (hd : decode w h kind limits = .ok o) : o.offset = h.offset :=
  (frame_of_decode hd).1

/-- A form ends where its header says. -/
theorem Form.stop_of_decode {form : Form} (hp : Header.parse w cursor = .ok h)
    (hd : decode w cursor depth = .ok form) : form.stop = h.stop := by
  obtain ⟨h', hp', hd⟩ := bind_eq_ok_iff.mp hd
  obtain ⟨fields, -, hd⟩ := bind_eq_ok_iff.mp hd
  obtain ⟨label, -, hd⟩ := bind_eq_ok_iff.mp hd
  obtain ⟨name, -, hd⟩ := bind_eq_ok_iff.mp hd
  obtain rfl := Except.ok.inj (hp.symm.trans hp')
  rw [← pure_eq_ok_iff.mp hd]

/-! ## Nodes keep to their frames

`Within` is about everything that is told of a node: the records in its events and the places in its
diagnostics. By induction along an outline it holds of everything that a form holds.
-/

namespace Node

/-- Everything that a node shows concerns records that start in `[lo, hi)`. -/
structure Within (lo hi : Nat) (n : Node) : Prop where
  /-- its events do -/
  events : ∀ e ∈ n.events, lo ≤ e.offset ∧ e.offset < hi
  /-- its diagnostics do -/
  diagnostics : ∀ tree, ∀ d ∈ (n.report tree).diagnostics, lo ≤ d.offset ∧ d.offset < hi

theorem Within.mono {lo hi lo' hi' : Nat} {n : Node} (hn : n.Within lo hi) (hlo : lo' ≤ lo)
    (hhi : hi ≤ hi') : n.Within lo' hi' where
  events e he := by
    have := hn.events e he
    omega
  diagnostics tree d hd := by
    have := hn.diagnostics tree d hd
    omega

/-- A record that is not called back shows one diagnostic at its own offset. -/
theorem within_malformed {lo hi offset : Nat} {tag : UInt32} {f : Fault} (hlo : lo ≤ offset)
    (hhi : offset < hi) : (malformed offset tag f).Within lo hi where
  events := nofun
  diagnostics tree d hd := by
    obtain rfl := List.mem_singleton.mp hd
    exact ⟨hlo, hhi⟩

/-- A form encloses what it holds. -/
theorem within_form {form : Form} {ns : List Node} (hlow : form.offset ≤ form.childrenStart)
    (hlt : form.offset < form.stop)
    (hin : ∀ n ∈ ns, n.Within form.childrenStart form.stop) :
    (Node.form form ns).Within form.offset form.stop where
  events e he := by
    simp only [Node.events, List.mem_cons, List.mem_append, List.not_mem_nil, or_false,
      mem_eventsAll] at he
    rcases he with rfl | ⟨n, hn, he⟩ | rfl
    · exact ⟨Nat.le_refl _, hlt⟩
    · have := (hin n hn).events e he
      omega
    · exact ⟨Nat.le_refl _, hlt⟩
  diagnostics tree d hd := by
    rw [Node.report, Report.diagnostics_append, List.nil_append, mem_diagnostics_reportAll] at hd
    obtain ⟨n, hn, hd⟩ := hd
    have := (hin n hn).diagnostics tree d hd
    omega

/-- An option encloses its values. -/
theorem within_numeric {lo hi : Nat} {o : NumericOption} (ho : lo ≤ o.offset ∧ o.offset < hi)
    (hv : ∀ v ∈ o.values, lo ≤ v.offset ∧ v.offset < hi) : (Node.numeric o).Within lo hi where
  events e he := by
    rw [Node.events, List.mem_append, List.mem_map, List.mem_singleton] at he
    rcases he with ⟨v, hm, rfl⟩ | rfl
    · exact hv v hm
    · exact ho
  diagnostics _ _ hd := absurd hd List.not_mem_nil

theorem within_text {lo hi : Nat} {o : TextOption} (ho : lo ≤ o.offset ∧ o.offset < hi) :
    (Node.text o).Within lo hi where
  events e he := by
    obtain rfl := List.mem_singleton.mp he
    exact ho
  diagnostics _ _ hd := absurd hd List.not_mem_nil

/-- The node of a framed record lies in its frame, if what a nested form holds does. -/
theorem within_ofHeader {inside : (nested : Form) →
      Form.decode w h.offset (depth + 1) = .ok nested → List Node}
    (hp : Header.parse w cursor = .ok h)
    (hin : ∀ nested hd, ∀ n ∈ inside nested hd, n.Within nested.childrenStart nested.stop) :
    (ofHeader w limits depth h inside).Within h.offset h.stop := by
  have hlt := Header.lt_stop_of_parse hp
  obtain ⟨rfl, -⟩ := Header.parse_eq_ok hp
  have hmalformed : ∀ f, (malformed h.offset h.tag f).Within h.offset h.stop :=
    fun _ => within_malformed (Nat.le_refl _) hlt
  cases hr : Role.ofTag h.tag with
  | form =>
    by_cases hm : limits.maxDepth < depth + 1
    · rw [ofHeader_of_tooDeep hr hm]
      exact hmalformed _
    cases hd : Form.decode w h.offset (depth + 1) with
    | error f =>
      rw [ofHeader_of_badForm hr hm hd]
      exact hmalformed f
    | ok nested =>
      -- the frame of the record is that of the form
      rw [ofHeader_of_form hr hm hd]
      obtain ⟨ho, -, -, hlow, -, -⟩ := Form.decode_eq_ok hd
      have hs := Form.stop_of_decode hp hd
      rw [← ho, ← hs]
      exact within_form (by omega) (by omega) (hin nested hd)
  | numeric kind =>
    rw [ofHeader_of_numeric hr]
    cases hd : NumericOption.decode w h kind with
    | error f => exact hmalformed f
    | ok o =>
      obtain ⟨ho, hv⟩ := NumericOption.offset_of_decode hd
      exact within_numeric (by omega) hv
  | text kind =>
    rw [ofHeader_of_text hr]
    cases hd : TextOption.decode w h kind limits with
    | error f => exact hmalformed f
    | ok o =>
      have ho := TextOption.offset_of_decode hd
      exact within_text (by omega)
  | unrecognized =>
    rw [ofHeader_of_unrecognized hr]
    refine ⟨nofun, fun tree d hd => ?_⟩
    obtain rfl := List.mem_singleton.mp hd
    exact ⟨Nat.le_refl _, hlt⟩

/-- What stands from a cursor on lies between the cursor and the end of the window. -/
theorem within_children : ∀ n ∈ children w limits depth cursor, n.Within cursor w.stop := by
  fun_induction children w limits depth cursor with
  | case1 w depth cursor hlt f hp =>
    intro n hn
    obtain rfl := List.mem_singleton.mp hn
    refine ⟨nofun, fun tree d hd => ?_⟩
    obtain rfl := List.mem_singleton.mp hd
    exact ⟨Nat.le_refl _, hlt⟩
  | case2 w depth cursor hlt h hp ihin ihrest =>
    have hs := Header.lt_stop_of_parse hp
    obtain ⟨ho, -, hle, -⟩ := Header.parse_eq_ok hp
    have hw : w.limit ≤ w.stop := Nat.min_le_left ..
    intro n hn
    -- the first record and the later ones share the stretch between cursor and end
    rcases List.mem_cons.mp hn with rfl | hn
    · exact (within_ofHeader hp ihin).mono (by omega) (by omega)
    · exact (ihrest n hn).mono (by omega) (Nat.le_refl _)
  | case3 w depth cursor hge => nofun

end Node

end SetupForms
