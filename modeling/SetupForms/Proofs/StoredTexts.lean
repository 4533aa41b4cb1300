import Mathlib.Data.List.TakeWhile
import SetupForms.Proofs.StoredDefaults
import SetupForms.Proofs.WireBlueprint

/-!
# Texts are stored whole

A text takes no more units in UTF-16 than bytes in UTF-8 (`Utf16.length_le`), so that a variable
with as many units as its default field has bytes holds the whole text, and with a unit to spare if
the field has a terminator. A field without one gets a longer variable. A reader that stops at the
first zero unit (`Menu.textIn?`) therefore finds just the text of the field
(`Menu.Draft.step_stores_text`).

Reading stops at a zero unit, so two things have to be known of a stored text: that it has no zero
unit, and that a zero unit follows it. The first comes from the field, whose text ends at its first
NUL, and the second from the number of units, which is larger than the text needs.
-/

namespace SetupForms

open Text

/-! ## Text in units and in bytes

A character takes one or two units, and never more than bytes. It has a zero unit only if it is NUL.
-/

namespace Text

/-- A character takes no more units in UTF-16 than bytes in UTF-8. -/
theorem Utf16.length_units_le (c : Char) :
    (Utf16.units c).length ≤ (String.utf8EncodeChar c).length := by
  rw [String.length_utf8EncodeChar]
  unfold Utf16.units
  split
  · exact c.utf8Size_pos
  next h =>
    have hfour : c.utf8Size = 4 := Char.utf8Size_eq_four_iff.mpr <|
      UInt32.lt_iff_toNat_lt.mpr (Nat.lt_of_succ_le (Nat.le_of_not_lt h))
    rw [hfour]
    exact (by decide : 2 ≤ 4)

/-- A text takes no more units in UTF-16 than bytes in UTF-8. -/
theorem Utf16.length_le (s : String) : Utf16.length s ≤ (Utf8.encode s).length := by
  rw [Utf8.encode_eq_flatMap, Utf16.length]
  induction s.toList with
  | nil => exact Nat.le_refl 0
  | cons c cs ih =>
    rw [Utf16.encode_cons, List.flatMap_cons, List.length_append, List.length_append]
    exact Nat.add_le_add (Utf16.length_units_le c) ih

/-- No character but NUL has a unit that is zero. -/
theorem Utf16.ne_zero_of_mem_units {c : Char} (hc : c ≠ '\x00') : ∀ u ∈ Utf16.units c, u ≠ 0 := by
  have hpos : 0 < c.toNat := Nat.pos_of_ne_zero fun h => hc (Char.toNat_inj.mp h)
  have hunit {n : Nat} (h0 : 0 < n) (hn : n < 0x10000) : UInt16.ofNat n ≠ 0 := fun h => by
    have hz := congrArg UInt16.toNat h
    rw [Utf16.toNat_unit hn] at hz
    exact Nat.ne_of_gt h0 hz
  intro u hu
  unfold Utf16.units at hu
  split at hu
  next h =>
    obtain rfl := List.mem_singleton.mp hu
    exact hunit hpos h
  next h =>
    have hmax : c.toNat < 0x110000 :=
      c.valid.elim (fun hlow => Nat.lt_trans hlow (by decide)) And.right
    -- both units of a pair are surrogates
    rcases List.mem_cons.mp hu with rfl | hu
    · exact hunit (by omega) (by omega)
    · obtain rfl := List.mem_singleton.mp hu
      exact hunit (by omega) (by omega)

/-- A text that is written without zero bytes has no NUL. -/
theorem Utf8.nul_not_mem {s : String} (h : 0 ∉ Utf8.encode s) : '\x00' ∉ s.toList := by
  intro hmem
  rw [Utf8.encode_eq_flatMap] at h
  exact h (List.mem_flatMap.mpr ⟨_, hmem, by decide⟩)

end Text

namespace Field

/-- The text of a field has no zero byte. -/
theorem zero_not_mem_untilNul (data : List UInt8) : 0 ∉ untilNul data := by
  intro h
  simpa using List.mem_takeWhile_imp h

/-- The text of a field with a terminator is shorter than its payload. -/
theorem length_untilNul_lt {data : List UInt8} (h : 0 ∈ data) :
    (untilNul data).length < data.length := by
  have hinitial : untilNul data <+: data := List.takeWhile_prefix _
  refine Nat.lt_of_le_of_ne hinitial.length_le fun heq => zero_not_mem_untilNul data ?_
  rwa [hinitial.eq_of_length heq]

end Field

namespace Menu

/-! ## Reading a variable

A variable is read in pairs of bytes up to the first zero unit.
-/

/-- The units that pairs of bytes spell, the low byte of each first. -/
def unitsIn : List UInt8 → List UInt16
  | low :: high :: bs => UInt16.ofNat (Bytes.toNat [low, high]) :: unitsIn bs
  | _ => []

/-- The text in a variable: its units up to the first that is zero. -/
def textIn? (bytes : List UInt8) : Option String :=
  (Utf16.decode? ((unitsIn bytes).takeWhile (· ≠ 0))).map String.ofList

theorem unitsIn_append (us : List UInt16) (bytes : List UInt8) :
    unitsIn (us.flatMap Bytes.ofUInt16 ++ bytes) = us ++ unitsIn bytes := by
  induction us with
  | nil => rfl
  | cons u us ih =>
    obtain ⟨low, high, hu⟩ : ∃ low high, Bytes.ofUInt16 u = [low, high] := ⟨_, _, rfl⟩
    have hread := Bytes.toNat_ofUInt16 u
    rw [hu] at hread
    rw [List.flatMap_cons, hu, List.append_assoc]
    simp only [List.cons_append, List.nil_append, unitsIn, hread, UInt16.ofNat_toNat, ih]

theorem unitsIn_replicate (k : Nat) :
    unitsIn (List.replicate (2 * k) 0) = List.replicate k 0 := by
  induction k with
  | zero => rfl
  | succ k ih =>
    rw [Nat.mul_succ, List.replicate_succ, List.replicate_succ, unitsIn, ih, List.replicate_succ]
    rfl

/-- A text without NUL is read back where there is a zero unit behind it. -/
theorem textIn?_storedText {s : String} {units : Nat} (hs : '\x00' ∉ s.toList)
    (hlt : Utf16.length s < units) : textIn? (storedText s units) = some s := by
  obtain ⟨k, hk⟩ : ∃ k, units - Utf16.length s = k + 1 := ⟨units - Utf16.length s - 1, by omega⟩
  have hall : ∀ u ∈ Utf16.encode s.toList, decide (u ≠ 0) = true := fun u hu => by
    obtain ⟨c, hc, hu⟩ := List.mem_flatMap.mp hu
    exact decide_eq_true (Utf16.ne_zero_of_mem_units (fun h => hs (h ▸ hc)) u hu)
  rw [textIn?, storedText_eq, hk, wide, unitsIn_append, unitsIn_replicate,
    List.takeWhile_append_of_pos hall, List.replicate_succ, List.takeWhile_cons_of_neg (by decide),
    List.append_nil, Utf16.decode?_encode, Option.map_some, String.ofList_toList]

/-! ## Defaults of texts

The options that reach the store have passed all checks of the builder. Their defaults are long
enough to be texts, or else are replaced by the text of the settings.
-/

variable {settings : Settings} {policy : Policy} {d : Draft} {o : TextOption} {field : Field}
  {name : String}

/-- A terminated text needs no more units than the field has bytes. -/
theorem Candidate.length_lt_of_terminated {s : String} (hs : field.textBytes = Utf8.encode s)
    (hnul : 0 ∈ field.data) : Utf16.length s < field.data.length :=
  calc Utf16.length s ≤ (Utf8.encode s).length := Utf16.length_le s
    _ = field.textBytes.length := congrArg List.length hs.symm
    _ < field.data.length := Field.length_untilNul_lt hnul

namespace Draft

/-- A variable that is created for a candidate holds what the candidate stores. -/
theorem get?_of_createVariable {c : Candidate} {d' : Draft} (h : d.createVariable c = .ok d')
    (hnew : d.store.get? c.name = none) : d'.store.get? c.name = some c.variable := by
  rw [createVariable, Store.size?, hnew] at h
  obtain ⟨s, hs, rfl⟩ := map_eq_ok_iff.mp h
  exact (Store.get?_set hs c.name).trans (if_pos rfl)

/-- A text option that is accepted asks the question of its candidate, whose variable is created
unless there is one. -/
theorem exists_of_text_accepted (hkind : o.kind = .varchar)
    (haccepted : (step settings policy d (.text o)).1 = .ok ()) :
    ∃ c id, Candidate.ofText settings o = .ok c ∧
      (step settings policy d (.text o)).2.elements =
        d.elements ++ [.question (c.question settings id) c.widget] ∧
      (d.store.get? c.name = none →
        (step settings policy d (.text o)).2.store.get? c.name = some c.variable) := by
  have hs := stepped settings policy d 0 (.text o)
  have hevent : Candidate.ofEvent settings (.text o) =
      some (Candidate.ofText settings o >>= Candidate.fit settings) := by
    rw [Candidate.ofEvent, hkind]
  generalize step settings policy d (.text o) = r at hs haccepted
  cases hs with
  | plain hx => cases hevent.symm.trans hx
  | unfit | used | barred => cases haccepted
  | @taken c id d' hx hid hv =>
    obtain ⟨c', hc, hfit⟩ := bind_eq_ok_iff.mp (Option.some.inj (hevent.symm.trans hx))
    obtain ⟨-, -, rfl⟩ := Candidate.fit_eq_ok_iff.mp hfit
    refine ⟨c, id, hc, ?_, fun hnew => ?_⟩
    · simp only [emit, (applyPolicy_frame policy d' c).1, (createVariable_frame hv).1]
    · exact (get?_applyPolicy policy d' c c.name).trans (get?_of_createVariable hv hnew)

/-- **Texts are stored whole.** Let a text option be accepted whose variable did not exist; the
payload of its default is as long as it says. Then the question and the variable have two bytes for
each unit of the widget's bound and one more unit. The variable holds the default of the widget,
each unit of it, and zero units behind it, at least one. If the field has two bytes or more, the
default is the text of the field, and there are as many units as the field has bytes, or as many as
the text and a terminator take if they are more, which they are not where the payload has a
terminator. If it has less, the default is the placeholder with one zero unit. A reader that stops
at the first zero unit finds the default, which must have no NUL if it is the placeholder. -/
theorem step_stores_text (hkind : o.kind = .varchar) (hname : o.name = some name)
    (hdefault : o.default = some field) (hdata : field.data.length = field.dataLength.toNat)
    (hnew : d.store.get? name = none)
    (haccepted : (step settings policy d (.text o)).1 = .ok ()) :
    let after := (step settings policy d (.text o)).2
    ∃ q t m v, after.elements = d.elements ++ [.question q (.text t 0 m)] ∧
      q.varStore.name = name ∧ after.store.get? name = some v ∧
      q.varStore.size = 2 * (m + 1) ∧ v.data.length = 2 * (m + 1) ∧ Utf16.length t ≤ m ∧
      v.data = wide t ++ List.replicate (2 * (m + 1 - Utf16.length t)) 0 ∧
      (2 ≤ field.dataLength → field.textBytes = Utf8.encode t ∧
        m + 1 = max field.dataLength.toNat (Utf16.length t + 1) ∧
        (0 ∈ field.data → m + 1 = field.dataLength.toNat) ∧ textIn? v.data = some t) ∧
      (field.dataLength ≤ 1 → t = settings.invalidString ∧ m = Utf16.length t ∧
        ('\x00' ∉ t.toList → textIn? v.data = some t)) := by
  intro after
  obtain ⟨c, id, hc, hlines, hstore⟩ := exists_of_text_accepted hkind haccepted
  obtain ⟨name', field', t, units, hname', hfield, htext, hcandidate⟩ := Candidate.ofText_eq_ok hc
  obtain rfl := Option.some.inj (hname'.symm.trans hname)
  obtain rfl := Option.some.inj (hfield.symm.trans hdefault)
  have hcname : c.name = name' := congrArg Candidate.name hcandidate
  have hstored : c.stored = storedText t units := congrArg Candidate.stored hcandidate
  have hwidget : c.widget = .text t 0 (units - 1) := congrArg Candidate.widget hcandidate
  have htext := Candidate.defaultText_of_textDefault htext
  have hlt := htext.length_lt
  -- the length that is shown is one less than the units
  obtain ⟨m, hm⟩ : ∃ m, units = m + 1 := ⟨units - 1, by omega⟩
  have hbound : units - 1 = m := Nat.sub_eq_of_eq_add hm
  have hlen : c.stored.length = 2 * (m + 1) :=
    hm ▸ hstored ▸ length_storedText (Nat.le_of_lt hlt)
  have hread (hnul : '\x00' ∉ t.toList) : textIn? c.stored = some t :=
    hstored ▸ textIn?_storedText hnul hlt
  rw [hwidget, hbound] at hlines
  refine ⟨c.question settings id, t, m, c.variable, hlines, hcname, hcname ▸ hstore (hcname ▸ hnew),
    hlen, hlen, by omega, hm ▸ hstored.trans (storedText_eq t units), fun hlong => ?_,
    fun hshort => ?_⟩
  · cases htext with
    | placeholder hshort => exact absurd (UInt32.le_trans hlong hshort) (by decide)
    | text _ hbytes =>
      -- the text of the field ends in front of its first NUL
      have hnul : '\x00' ∉ t.toList :=
        Utf8.nul_not_mem (hbytes ▸ Field.zero_not_mem_untilNul field'.data)
      rw [← hdata]
      refine ⟨hbytes, hm.symm, fun hterminated => ?_, hread hnul⟩
      exact hm ▸ Nat.max_eq_left (Candidate.length_lt_of_terminated hbytes hterminated)
  · cases htext with
    | placeholder => exact ⟨rfl, (Nat.succ.inj hm).symm, hread⟩
    | text hlong => exact absurd hshort (UInt32.not_le.mpr hlong)

/-- Two bytes without a terminator: the variable gets a third unit. -/
theorem step_stores_text_unterminated :
    let field : Field := ⟨Kind.defaultValue.tag, 28, 14, 2, [0x61, 0x62]⟩
    let o : TextOption := ⟨0, 90, .varchar, ⟨5, 0, ⟨0⟩⟩, some field, some "N", "L", none⟩
    let d : Draft := { store := {} }
    ∃ q t m v, (step {} .absent d (.text o)).2.elements = [.question q (.text t 0 m)] ∧
      (step {} .absent d (.text o)).2.store.get? "N" = some v ∧ v.data.length = 2 * (m + 1) ∧
      m + 1 = max 2 (Utf16.length t + 1) ∧ textIn? v.data = some t := by
  intro field o d
  have haccepted : (step {} .absent d (.text o)).1 = .ok () := by decide +kernel
  have hnew : d.store.get? "N" = none := rfl
  obtain ⟨q, t, m, v, hlines, -, hv, -, hlen, -, -, hlong, -⟩ :=
    step_stores_text rfl rfl rfl rfl hnew haccepted
  obtain ⟨-, hm, -, hread⟩ := hlong (by decide)
  exact ⟨q, t, m, v, hlines, hv, hlen, hm, hread⟩

end Draft

end Menu

end SetupForms
