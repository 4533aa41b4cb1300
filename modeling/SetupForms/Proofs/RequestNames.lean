import SetupForms.Store.Request

/-!
# Names in requests

A request bears a name in one place, between its first key and the next `&` (`Request.Bears`). What
stands there must be digits that spell units (`Request.Spells`), and the units must be those of a
text (`Utf16.WellFormed`). A name is read from just those requests (`Request.read_eq_ok_iff`).
Digits are written in lower case and read in either, so a name that is read is written as the
lower-case form of its digits, and a name that is written is read back whatever stands around it
(`Request.variableName_spelled`).

The reader is a chain of searches and the description is a split of the text. The steps between them
are the three sections: units and text, digits and units, and the place of the digits in the
request. The last one is where the reader commits itself: it takes the first key and the first mark
behind it, even where a later one would do.
-/

namespace SetupForms

open Text

/-! ## Units

Text in 16-bit units is read exactly where surrogates stand in pairs. `WellFormed` says so without
the reader, one case for each kind of character.
-/

namespace Text.Utf16

/-- Units in which each surrogate stands in a pair, the high one first. -/
inductive WellFormed : List UInt16 → Prop where
  | nil : WellFormed []
  | unit {u : UInt16} {us : List UInt16} :
      isHigh u = false → isLow u = false → WellFormed us → WellFormed (u :: us)
  | pair {u v : UInt16} {us : List UInt16} :
      isHigh u = true → isLow v = true → WellFormed us → WellFormed (u :: v :: us)

/-- Units that are read as text are well-formed. -/
theorem wellFormed_of_decode? {us : List UInt16} {cs : List Char} (h : decode? us = some cs) :
    WellFormed us := by
  fun_induction decode? us generalizing cs with
  | case1 => exact .nil
  | case2 => cases h
  | case3 u hu v vs hv ih =>
    obtain ⟨ds, hd, -⟩ := Option.map_eq_some_iff.mp h
    exact .pair hu hv (ih hd)
  | case4 => cases h
  | case5 => cases h
  | case6 u us hu hv ih =>
    obtain ⟨ds, hd, -⟩ := Option.map_eq_some_iff.mp h
    exact .unit (Bool.eq_false_iff.mpr hu) (Bool.eq_false_iff.mpr hv) (ih hd)

/-- Just the well-formed units are those of a text. -/
theorem exists_encode_iff {us : List UInt16} : (∃ cs, encode cs = us) ↔ WellFormed us := by
  constructor
  · rintro ⟨cs, rfl⟩
    exact wellFormed_of_decode? (decode?_encode cs)
  · intro h
    induction h with
    | nil => exact ⟨[], rfl⟩
    | @unit u us hu hv _ ih =>
      obtain ⟨cs, rfl⟩ := ih
      exact ⟨Char.ofNat u.toNat :: cs, by rw [encode_cons, units_ofNat hu hv]; rfl⟩
    | @pair u v us hu hv _ ih =>
      obtain ⟨cs, rfl⟩ := ih
      exact ⟨pair u v :: cs, by rw [encode_cons, units_pair hu hv]; rfl⟩

end Text.Utf16

namespace Request

open Hex

/-! ## Spelled units

A unit is four digits, in either case. Each digit is known by its lower-case form, which is what the
writer uses.
-/

/-- Digits spell units: four of them each, in either case, the most significant first. -/
inductive Spells : List Char → List UInt16 → Prop where
  | nil : Spells [] []
  | unit {a b c d : Char} {i j k l : Nat} {u : UInt16} {cs : List Char} {us : List UInt16} :
      digitValue? a = some i → digitValue? b = some j → digitValue? c = some k →
      digitValue? d = some l → u.toNat = 16 * (16 * (16 * i + j) + k) + l → Spells cs us →
      Spells (a :: b :: c :: d :: cs) (u :: us)

/-- Four digits have a value if they are the digits of four numbers, and it is made of them. -/
theorem value?_four {a b c d : Char} {n : Nat} :
    value? [a, b, c, d] = some n ↔ ∃ i j k l, digitValue? a = some i ∧ digitValue? b = some j ∧
      digitValue? c = some k ∧ digitValue? d = some l ∧ n = 16 * (16 * (16 * i + j) + k) + l := by
  simp only [value?, valueFrom?, Option.bind_eq_some_iff, Option.some.injEq, Nat.mul_zero,
    Nat.zero_add]
  constructor
  · rintro ⟨i, hi, j, hj, k, hk, l, hl, rfl⟩
    exact ⟨i, j, k, l, hi, hj, hk, hl, rfl⟩
  · rintro ⟨i, j, k, l, hi, hj, hk, hl, rfl⟩
    exact ⟨i, hi, j, hj, k, hk, l, hl, rfl⟩

/-- Units are read from just the digits that spell them. -/
theorem units?_eq_some_iff {cs : List Char} {us : List UInt16} :
    units? cs = some us ↔ Spells cs us := by
  constructor
  · intro h
    -- The reader takes four characters at a time, and so does the induction.
    fun_induction units? cs generalizing us with
    | case1 =>
      obtain rfl := Option.some.inj h
      exact .nil
    | case2 a b c d cs ih =>
      obtain ⟨n, hn, h⟩ := Option.bind_eq_some_iff.mp h
      obtain ⟨us, hus, h⟩ := Option.bind_eq_some_iff.mp h
      obtain rfl := Option.some.inj h
      have hunit : (UInt16.ofNat n).toNat = n := UInt16.toNat_ofNat_of_lt' (fixed_of_value? hn).1
      obtain ⟨i, j, k, l, hi, hj, hk, hl, hvalue⟩ := value?_four.mp hn
      exact .unit hi hj hk hl (hunit.trans hvalue) (ih hus)
    | case3 => cases h
  · intro h
    induction h with
    | nil => rfl
    | @unit a b c d i j k l u cs us hi hj hk hl hu _ ih =>
      have hn := value?_four.mpr ⟨i, j, k, l, hi, hj, hk, hl, rfl⟩
      rw [units?, hn, ih, ← hu]
      exact congrArg (fun u => some (u :: us)) UInt16.ofNat_toNat

/-- The digits of units, in lower case. -/
def digitsOf (us : List UInt16) : List Char := us.flatMap fun u => fixed 4 u.toNat

/-- Written in lower case, the digits are those of the units that they spell. -/
theorem Spells.digitsOf_eq {cs : List Char} {us : List UInt16} (h : Spells cs us) :
    digitsOf us = cs.map Char.toLower := by
  induction h with
  | nil => rfl
  | @unit a b c d i j k l u cs us hi hj hk hl hu _ ih =>
    have hfixed : fixed 4 u.toNat = [a, b, c, d].map Char.toLower :=
      (fixed_of_value? (value?_four.mpr ⟨i, j, k, l, hi, hj, hk, hl, hu⟩)).2
    rw [digitsOf, List.flatMap_cons, hfixed]
    exact congrArg _ ih

/-- Written units are spelled. -/
theorem spells_digitsOf (us : List UInt16) : Spells (digitsOf us) us := by
  induction us with
  | nil => exact .nil
  | cons u us ih =>
    obtain ⟨a, b, c, d, hfixed⟩ : ∃ a b c d, fixed 4 u.toNat = [a, b, c, d] := ⟨_, _, _, _, rfl⟩
    have hvalue : value? [a, b, c, d] = some u.toNat := by
      rw [← hfixed, value?_fixed]
      exact congrArg some (Nat.mod_eq_of_lt u.toNat_lt)
    obtain ⟨i, j, k, l, hi, hj, hk, hl, hu⟩ := value?_four.mp hvalue
    rw [digitsOf, List.flatMap_cons, hfixed]
    exact .unit hi hj hk hl hu ih

/-- What spells units holds no separator. -/
theorem Spells.not_mem {cs : List Char} {us : List UInt16} (h : Spells cs us) : '&' ∉ cs := by
  have hne {c : Char} {n : Nat} (h : digitValue? c = some n) : '&' ≠ c := by
    rintro rfl
    cases h
  induction h with
  | nil => exact List.not_mem_nil
  | unit hi hj hk hl _ _ ih =>
    simp only [List.mem_cons, hne hi, hne hj, hne hk, hne hl, ih, or_self, not_false_eq_true]

/-! ## The place of the name

The name stands between the first key and the next mark. A key has no place inside of another one,
so the first key of a request that is written is the one that was written.
-/

/-- The key stands behind `before` for the first time. -/
structure FirstKey (request before rest : List Char) : Prop where
  /-- it stands there -/
  eq : request = before ++ key ++ rest
  /-- it does not stand earlier -/
  le : ∀ b a, request = b ++ key ++ a → before.length ≤ b.length

/-- There is one first key. -/
theorem FirstKey.rest_unique {request before before' rest rest' : List Char}
    (h : FirstKey request before rest) (h' : FirstKey request before' rest') : rest = rest' := by
  have hlen : before.length = before'.length :=
    Nat.le_antisymm (h.le _ _ h'.eq) (h'.le _ _ h.eq)
  have heq := h.eq.symm.trans h'.eq
  rw [List.append_assoc, List.append_assoc] at heq
  exact List.append_cancel_left (List.append_inj heq hlen).2

/-- What follows the first key is found if there is a key. -/
theorem exists_afterKey? {b a : List Char} : ∃ rest, afterKey? (b ++ key ++ a) = some rest := by
  induction b with
  | nil => exact ⟨a, rfl⟩
  | cons c b ih =>
    rw [List.cons_append, List.cons_append, afterKey?]
    split
    · exact ⟨_, rfl⟩
    · exact ih

/-- What the search finds is behind the first key. -/
theorem firstKey_of_afterKey? {request rest : List Char} (h : afterKey? request = some rest) :
    ∃ before, FirstKey request before rest := by
  fun_induction afterKey? request with
  | case1 => cases h
  | case2 c cs hk =>
    obtain ⟨a, ha⟩ := List.isPrefixOf_iff_prefix.mp hk
    rw [← ha, List.drop_left] at h
    obtain rfl := Option.some.inj h
    exact ⟨[], ha.symm, fun _ _ _ => Nat.zero_le _⟩
  | case3 c cs hk ih =>
    obtain ⟨before, heq, hle⟩ := ih h
    refine ⟨c :: before, congrArg (c :: ·) heq, fun b a hba => ?_⟩
    cases b with
    | nil => exact absurd (List.isPrefixOf_iff_prefix.mpr ⟨a, hba.symm⟩) hk
    | cons d b => exact Nat.succ_le_succ (hle b a (List.cons.inj hba).2)

/-- What is found is what follows the first key. -/
theorem afterKey?_eq_some_iff {request rest : List Char} :
    afterKey? request = some rest ↔ ∃ before, FirstKey request before rest := by
  refine ⟨firstKey_of_afterKey?, fun ⟨before, h⟩ => ?_⟩
  obtain ⟨rest', h'⟩ := @exists_afterKey? before rest
  rw [← h.eq] at h'
  obtain ⟨before', hfirst⟩ := firstKey_of_afterKey? h'
  rw [h', h.rest_unique hfirst]

/-- A key cannot begin inside of another one, so that one which stands behind text without a key is
the first. -/
theorem firstKey_append {before rest : List Char} (h : ¬ key <:+: before) :
    FirstKey (before ++ key ++ rest) before rest := by
  refine ⟨rfl, fun b a hba => Nat.le_of_not_lt fun hlt => ?_⟩
  have hkey : key.length = 6 := rfl
  have hat (n : Nat) : (before ++ key ++ rest)[b.length + n]? = (key ++ a)[n]? := by
    rw [hba, List.append_assoc, List.getElem?_append_right (Nat.le_add_right ..),
      Nat.add_sub_cancel_left]
  by_cases hin : b.length + key.length ≤ before.length
  · -- the earlier key stands inside of `before`
    refine h ⟨b, (before.drop (b.length + key.length)), ?_⟩
    have htake : before.take (b.length + key.length) = b ++ key := by
      have := congrArg (List.take (b.length + key.length)) hba
      rw [List.append_assoc, List.take_append_of_le_length hin] at this
      rw [this, List.take_left' (List.length_append ..)]
    rw [← htake, List.take_append_drop]
  · -- the `&` of the later key stands inside of the earlier one
    have hsep := hat (before.length - b.length)
    rw [Nat.add_sub_cancel' (Nat.le_of_lt hlt), List.append_assoc,
      List.getElem?_append_right (Nat.le_refl _), Nat.sub_self,
      List.getElem?_append_left (by decide), List.getElem?_append_left (by omega)] at hsep
    have hinner : ∀ n : Fin 6, 0 < n.val → key[n.val]? ≠ some '&' := by decide
    exact hinner ⟨before.length - b.length, by omega⟩ (Nat.sub_pos_of_lt hlt) hsep.symm

/-- An element ends before its first separator. -/
theorem element?_append {hex after : List Char} (h : '&' ∉ hex) :
    element? (hex ++ '&' :: after) = some hex := by
  have hall : ∀ c ∈ hex, decide (c ≠ '&') = true := fun c hc =>
    decide_eq_true fun heq => h (heq ▸ hc)
  rw [element?, if_pos (List.mem_append_right _ List.mem_cons_self),
    List.takeWhile_append_of_pos hall, List.takeWhile_cons_of_neg (by decide), List.append_nil]

/-- The element ends at the first mark. -/
theorem element?_eq_some_iff {rest hex : List Char} :
    element? rest = some hex ↔ '&' ∉ hex ∧ ∃ after, rest = hex ++ '&' :: after := by
  constructor
  · intro h
    by_cases hmem : '&' ∈ rest
    · obtain ⟨start, after, rfl, hnot⟩ := List.eq_append_cons_of_mem hmem
      obtain rfl := Option.some.inj ((element?_append hnot).symm.trans h)
      exact ⟨hnot, after, rfl⟩
    · rw [element?, if_neg hmem] at h
      cases h
  · rintro ⟨hnot, after, rfl⟩
    exact element?_append hnot

/-- A request bears digits between its first key and the next `&`. -/
def Bears (request hex : List Char) : Prop :=
  ∃ before after, FirstKey request before (hex ++ '&' :: after) ∧ '&' ∉ hex

/-- A request bears what the two searches find. -/
theorem bears_iff {request hex : List Char} :
    Bears request hex ↔ ∃ rest, afterKey? request = some rest ∧ element? rest = some hex := by
  simp only [afterKey?_eq_some_iff, element?_eq_some_iff]
  constructor
  · rintro ⟨before, after, hfirst, hnot⟩
    exact ⟨_, ⟨before, hfirst⟩, hnot, after, rfl⟩
  · rintro ⟨_, ⟨before, hfirst⟩, hnot, after, rfl⟩
    exact ⟨before, after, hfirst, hnot⟩

/-- A name is read if each stage of reading finds what it looks for. -/
theorem read_eq_ok_iff_stages {request name : List Char} :
    read request = .ok name ↔ ∃ rest, afterKey? request = some rest ∧
      ∃ hex, element? rest = some hex ∧
        ∃ us, units? hex = some us ∧ Utf16.decode? us = some name := by
  unfold read
  split
  next hrest => simp [hrest]
  next rest hrest =>
    split
    next hhex => simp [hrest, hhex]
    next hex hhex =>
      split
      next hunits => simp [hrest, hhex, hunits]
      next us hunits =>
        split
        next hname => simp [hrest, hhex, hunits, hname]
        next cs hname => simp [hrest, hhex, hunits, hname]

/-- A name is read from the requests that bear digits for its units. -/
theorem read_eq_ok_iff {request name : List Char} :
    read request = .ok name ↔ ∃ hex, Bears request hex ∧ Spells hex (Utf16.encode name) := by
  rw [read_eq_ok_iff_stages]
  constructor
  · rintro ⟨rest, hrest, hex, hhex, us, hus, hname⟩
    rw [Utf16.decode?_eq_some_iff.mp hname]
    exact ⟨hex, bears_iff.mpr ⟨rest, hrest, hhex⟩, units?_eq_some_iff.mp hus⟩
  · rintro ⟨hex, hbears, hspells⟩
    obtain ⟨rest, hrest, hhex⟩ := bears_iff.mp hbears
    exact ⟨rest, hrest, hex, hhex, _, units?_eq_some_iff.mpr hspells, Utf16.decode?_encode name⟩

/-- A name is read character by character. -/
theorem variableName_eq_ok_iff {request name : String} :
    variableName request = .ok name ↔ read request.toList = .ok name.toList := by
  unfold variableName
  split
  next cs h => rw [h, Except.ok.injEq, Except.ok.injEq, ← String.toList_inj, String.toList_ofList]
  next m h => simp [h]

/-- **Names in requests.** A name is read from a request if and only if the request bears digits
that spell well-formed units, four digits each. Then these are the units of the name, which is
written as the lower-case form of the digits. All other requests are invalid. What is written of a
name is read back behind any text without a key, and before any text. -/
theorem variableName_spelled :
    (∀ request : String,
      ((∃ name, variableName request = .ok name) ↔ ∃ hex units, Bears request.toList hex ∧
        Spells hex units ∧ Utf16.WellFormed units) ∧
      (∀ name, variableName request = .ok name → ∃ hex, Bears request.toList hex ∧
        Spells hex (Utf16.encode name.toList) ∧
        encodeName name = String.ofList (hex.map Char.toLower)) ∧
      ∀ fault, variableName request = .error fault → ∃ detail, fault = .invalidRequest detail) ∧
    ∀ name before after : String, ¬ key <:+: before.toList →
      variableName (before ++ "&NAME=" ++ encodeName name ++ "&" ++ after) = .ok name := by
  refine ⟨fun request => ⟨?_, fun name h => ?_, fun fault h => ?_⟩, fun name before after h => ?_⟩
  · simp only [variableName_eq_ok_iff, read_eq_ok_iff]
    constructor
    · rintro ⟨name, hex, hbears, hspells⟩
      exact ⟨hex, _, hbears, hspells, Utf16.exists_encode_iff.mp ⟨_, rfl⟩⟩
    · rintro ⟨hex, units, hbears, hspells, hwell⟩
      obtain ⟨cs, rfl⟩ := Utf16.exists_encode_iff.mpr hwell
      exact ⟨String.ofList cs, hex, hbears, by rwa [String.toList_ofList]⟩
  · obtain ⟨hex, hbears, hspells⟩ := read_eq_ok_iff.mp (variableName_eq_ok_iff.mp h)
    exact ⟨hex, hbears, hspells, congrArg String.ofList hspells.digitsOf_eq⟩
  · unfold variableName at h
    split at h
    next => cases h
    next m _ =>
      obtain rfl := Except.error.inj h
      exact ⟨m.detail, rfl⟩
  · have hspells := spells_digitsOf (Utf16.encode name.toList)
    have hfirst := @firstKey_append before.toList (nameChars name.toList ++ '&' :: after.toList) h
    refine variableName_eq_ok_iff.mpr (read_eq_ok_iff.mpr ⟨nameChars name.toList, ?_, hspells⟩)
    refine ⟨before.toList, after.toList, ?_, hspells.not_mem⟩
    have htext : (before ++ "&NAME=" ++ encodeName name ++ "&" ++ after).toList =
        before.toList ++ key ++ (nameChars name.toList ++ '&' :: after.toList) := by
      have hkey : "&NAME=".toList = key := rfl
      have hsep : "&".toList = ['&'] := rfl
      simp only [encodeName, String.toList_append, String.toList_ofList, hkey, hsep,
        List.append_assoc, List.singleton_append]
    rwa [htext]

/-- Digits of either case, two units for one character, and a key that is begun twice. -/
example : (variableName "&NAM&NAME=d83dDE00&NAME=&").toOption = some "😀" := by decide +kernel

end Request

end SetupForms
