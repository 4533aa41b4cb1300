/-!
# UTF-16

`encode` spells text in 16-bit units, with a surrogate pair for each character above U+FFFF, and
`decode?` reads units back. Reading accepts exactly what writing produces
(`decode?_eq_some_iff`), so no unpaired surrogate is accepted.

Variables hold text in this form, and names in requests are spelled in it. A character above U+FFFF
is two units, which is why lengths of stored text are counted in units and not in characters.
-/

namespace SetupForms.Text.Utf16

/-- The units of one character. -/
def units (c : Char) : List UInt16 :=
  if c.toNat < 0x10000 then [UInt16.ofNat c.toNat]
  else [UInt16.ofNat (0xd800 + (c.toNat - 0x10000) / 0x400),
    UInt16.ofNat (0xdc00 + (c.toNat - 0x10000) % 0x400)]

/-- The units of a text. -/
def encode (cs : List Char) : List UInt16 := cs.flatMap units

/-- How many units a text takes. -/
def length (s : String) : Nat := (encode s.toList).length

/-- Whether a unit opens a surrogate pair. -/
def isHigh (u : UInt16) : Bool := 0xd800 ≤ u.toNat && u.toNat < 0xdc00

/-- Whether a unit closes a surrogate pair. -/
def isLow (u : UInt16) : Bool := 0xdc00 ≤ u.toNat && u.toNat < 0xe000

/-- The character of a surrogate pair. -/
def pair (high low : UInt16) : Char :=
  Char.ofNat (0x10000 + (high.toNat - 0xd800) * 0x400 + (low.toNat - 0xdc00))

/-- The text of well-formed units. -/
def decode? : List UInt16 → Option (List Char)
  | [] => some []
  | u :: us =>
    if isHigh u then
      match us with
      | [] => none
      | v :: vs => if isLow v then (decode? vs).map (pair u v :: ·) else none
    else if isLow u then none
    else (decode? us).map (Char.ofNat u.toNat :: ·)

@[simp] theorem encode_nil : encode [] = [] := rfl

@[simp] theorem encode_cons (c : Char) (cs : List Char) :
    encode (c :: cs) = units c ++ encode cs := rfl

theorem isHigh_iff {u : UInt16} : isHigh u = true ↔ 0xd800 ≤ u.toNat ∧ u.toNat < 0xdc00 := by
  simp [isHigh]

theorem isLow_iff {u : UInt16} : isLow u = true ↔ 0xdc00 ≤ u.toNat ∧ u.toNat < 0xe000 := by
  simp [isLow]

/-- A number outside the surrogates and below U+110000 is that of its character. -/
theorem toNat_ofNat {n : Nat} (h : n < 0xd800 ∨ 0xe000 ≤ n ∧ n < 0x110000) :
    (Char.ofNat n).toNat = n := by
  have hv : n.isValidChar := by
    rcases h with h | h
    · exact Or.inl h
    · exact Or.inr ⟨by omega, h.2⟩
  rw [Char.ofNat, dif_pos hv]
  rfl

theorem toNat_unit {n : Nat} (h : n < 0x10000) : (UInt16.ofNat n).toNat = n := by
  rw [UInt16.toNat_ofNat']
  exact Nat.mod_eq_of_lt h

theorem decode?_cons {u : UInt16} (hu : isHigh u = false) (hv : isLow u = false)
    (us : List UInt16) : decode? (u :: us) = (decode? us).map (Char.ofNat u.toNat :: ·) := by
  cases us <;> simp [decode?, hu, hv]

/-- The units of a character read back as it. -/
theorem decode?_units_append (c : Char) (us : List UInt16) :
    decode? (units c ++ us) = (decode? us).map (c :: ·) := by
  have hc : c.toNat < 0xd800 ∨ 0xe000 ≤ c.toNat ∧ c.toNat < 0x110000 := by
    rcases c.valid with h | h
    · exact Or.inl h
    · exact Or.inr ⟨h.1, h.2⟩
  unfold units
  split
  next hn =>
    have hu := toNat_unit hn
    have hhigh : isHigh (UInt16.ofNat c.toNat) = false := by
      rw [Bool.eq_false_iff, ne_eq, isHigh_iff, hu]
      omega
    have hlow : isLow (UInt16.ofNat c.toNat) = false := by
      rw [Bool.eq_false_iff, ne_eq, isLow_iff, hu]
      omega
    rw [List.singleton_append, decode?_cons hhigh hlow, hu, Char.ofNat_toNat]
  next hn =>
    have hu := toNat_unit (show 0xd800 + (c.toNat - 0x10000) / 0x400 < 0x10000 by omega)
    have hv := toNat_unit (show 0xdc00 + (c.toNat - 0x10000) % 0x400 < 0x10000 by omega)
    have hhigh := isHigh_iff.mpr (show _ ∧ _ by rw [hu]; omega)
    have hlow := isLow_iff.mpr (show _ ∧ _ by rw [hv]; omega)
    rw [List.cons_append, List.singleton_append]
    simp only [decode?, hhigh, hlow, if_true]
    -- ten bits of the character are in each unit
    rw [pair, hu, hv, show 0x10000 + (0xd800 + (c.toNat - 0x10000) / 0x400 - 0xd800) * 0x400 +
      (0xdc00 + (c.toNat - 0x10000) % 0x400 - 0xdc00) = c.toNat by omega, Char.ofNat_toNat]

theorem decode?_encode (cs : List Char) : decode? (encode cs) = some cs := by
  induction cs with
  | nil => rfl
  | cons c cs ih => rw [encode_cons, decode?_units_append, ih]; rfl

theorem units_pair {u v : UInt16} (hu : isHigh u = true) (hv : isLow v = true) :
    units (pair u v) = [u, v] := by
  obtain ⟨hu1, hu2⟩ := isHigh_iff.mp hu
  obtain ⟨hv1, hv2⟩ := isLow_iff.mp hv
  have hn := toNat_ofNat (Or.inr (show _ ∧ _ from
    ⟨show 0xe000 ≤ 0x10000 + (u.toNat - 0xd800) * 0x400 + (v.toNat - 0xdc00) by omega,
      show 0x10000 + (u.toNat - 0xd800) * 0x400 + (v.toNat - 0xdc00) < 0x110000 by omega⟩))
  have hhigh : UInt16.ofNat (0xd800 + (0x10000 + (u.toNat - 0xd800) * 0x400 +
      (v.toNat - 0xdc00) - 0x10000) / 0x400) = u := by
    apply UInt16.toNat_inj.mp
    rw [toNat_unit (by omega)]
    omega
  have hlow : UInt16.ofNat (0xdc00 + (0x10000 + (u.toNat - 0xd800) * 0x400 +
      (v.toNat - 0xdc00) - 0x10000) % 0x400) = v := by
    apply UInt16.toNat_inj.mp
    rw [toNat_unit (by omega)]
    omega
  rw [units, pair, hn, if_neg (by omega), hhigh, hlow]

theorem units_ofNat {u : UInt16} (hu : isHigh u = false) (hv : isLow u = false) :
    units (Char.ofNat u.toNat) = [u] := by
  rw [Bool.eq_false_iff, ne_eq, isHigh_iff] at hu
  rw [Bool.eq_false_iff, ne_eq, isLow_iff] at hv
  have hlt := u.toNat_lt
  have hn := toNat_ofNat (n := u.toNat) (by omega)
  rw [units, hn, if_pos hlt, UInt16.ofNat_toNat]

theorem encode_of_decode? {us : List UInt16} {cs : List Char} (h : decode? us = some cs) :
    encode cs = us := by
  -- The reader takes a unit or a pair, and the writer wrote one of these.
  fun_induction decode? us generalizing cs with
  | case1 =>
    obtain rfl := Option.some.inj h
    rfl
  | case2 => cases h
  | case3 u hu v vs hv ih =>
    obtain ⟨ds, hd, rfl⟩ := Option.map_eq_some_iff.mp h
    rw [encode_cons, units_pair hu hv, ih hd]
    rfl
  | case4 => cases h
  | case5 => cases h
  | case6 u us hu hv ih =>
    obtain ⟨ds, hd, rfl⟩ := Option.map_eq_some_iff.mp h
    rw [encode_cons, units_ofNat (Bool.eq_false_iff.mpr hu) (Bool.eq_false_iff.mpr hv), ih hd]
    rfl

/-- Reading accepts exactly what writing produces. -/
theorem decode?_eq_some_iff {us : List UInt16} {cs : List Char} :
    decode? us = some cs ↔ encode cs = us :=
  ⟨encode_of_decode?, fun h => h ▸ decode?_encode cs⟩

end SetupForms.Text.Utf16
