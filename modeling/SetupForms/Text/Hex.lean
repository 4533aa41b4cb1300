/-!
# Hexadecimal text

Three spellings of numbers and bytes: `fixed` writes a given number of digits, `prefixed` writes
`0x` and at least a given number of digits, and `ofBytes` writes two digits a byte. Digits are
written in lower case and read in either. Hence fixed-width text reads back (`value?_fixed`), and
digits that were read are written again as their lower-case form (`fixed_of_value?`).
-/

namespace SetupForms.Text.Hex

/-- The lower-case digit of a number below 16. -/
def digit (n : Nat) : Char := Nat.digitChar n

/-- The value of a digit, in either case. -/
def digitValue? (c : Char) : Option Nat :=
  if '0' ≤ c ∧ c ≤ '9' then some (c.toNat - '0'.toNat)
  else if 'a' ≤ c ∧ c ≤ 'f' then some (c.toNat - 'a'.toNat + 10)
  else if 'A' ≤ c ∧ c ≤ 'F' then some (c.toNat - 'A'.toNat + 10)
  else none

/-- The `k` low digits of `n`, most significant first. -/
def fixed : Nat → Nat → List Char
  | 0, _ => []
  | k + 1, n => fixed k (n / 16) ++ [digit (n % 16)]

/-- The number that digits spell after `acc`; `none` where a character is no digit. -/
def valueFrom? (acc : Nat) : List Char → Option Nat
  | [] => some acc
  | c :: cs => (digitValue? c).bind fun d => valueFrom? (16 * acc + d) cs

/-- The number that digits spell, most significant first. -/
def value? (cs : List Char) : Option Nat := valueFrom? 0 cs

/-- `0x` and the digits of `n`, at least `width` of them. -/
def prefixed (width n : Nat) : String :=
  let digits := Nat.toDigits 16 n
  "0x" ++ String.ofList (List.replicate (width - digits.length) '0' ++ digits)

/-- The text of an offset: as few digits as it takes. -/
def offset (n : Nat) : String := prefixed 1 n

/-- The text of a tag or question id: at least four digits. -/
def tag (n : Nat) : String := prefixed 4 n

/-- Two digits a byte. -/
def ofBytes (bs : List UInt8) : List Char := bs.flatMap fun b => fixed 2 b.toNat

/-- The bytes that pairs of digits spell; `none` for an odd count or a character that is no
digit. -/
def toBytes? : List Char → Option (List UInt8)
  | [] => some []
  | [_] => none
  | hi :: lo :: cs => do
    let h ← digitValue? hi
    let l ← digitValue? lo
    let rest ← toBytes? cs
    return UInt8.ofNat (16 * h + l) :: rest

/-- How many numbers `k` digits can spell. -/
def bound : Nat → Nat
  | 0 => 1
  | k + 1 => 16 * bound k

/-- A digit reads back as itself. -/
theorem digitValue?_digit {n : Nat} (h : n < 16) : digitValue? (digit n) = some n := by
  have : ∀ m : Fin 16, digitValue? (digit m.val) = some m.val := by decide
  exact this ⟨n, h⟩

/-- Digits are ASCII. -/
theorem toNat_lt_of_digitValue? {c : Char} {n : Nat} (h : digitValue? c = some n) :
    c.toNat < 128 := by
  have hle {d : Char} (hd : c ≤ d) : c.toNat ≤ d.toNat := UInt32.le_iff_toNat_le.mp hd
  unfold digitValue? at h
  split at h
  next hc => exact Nat.lt_of_le_of_lt (hle hc.2) (by decide)
  next =>
    split at h
    next hc => exact Nat.lt_of_le_of_lt (hle hc.2) (by decide)
    next =>
      split at h
      next hc => exact Nat.lt_of_le_of_lt (hle hc.2) (by decide)
      next => cases h

/-- A digit is below 16, and is written as its own lower-case form. -/
theorem digit_of_digitValue? {c : Char} {n : Nat} (h : digitValue? c = some n) :
    n < 16 ∧ digit n = c.toLower := by
  have ascii : ∀ k : Fin 128, ∀ n ∈ digitValue? (Char.ofNat k),
      n < 16 ∧ digit n = (Char.ofNat k).toLower := by decide
  have hc := ascii ⟨c.toNat, toNat_lt_of_digitValue? h⟩ n
  rw [Char.ofNat_toNat] at hc
  exact hc h

/-! ## Numbers of a fixed width

The last digit is the one that both directions are about: `fixed` puts it behind the others, and
`value?_concat` reads it behind the others.
-/

variable {cs : List Char} {n : Nat}

theorem valueFrom?_append (acc : Nat) (cs ds : List Char) :
    valueFrom? acc (cs ++ ds) = (valueFrom? acc cs).bind fun n => valueFrom? n ds := by
  induction cs generalizing acc with
  | nil => rfl
  | cons c cs ih =>
    cases hc : digitValue? c with
    | none => simp [valueFrom?, hc]
    | some d => simp [valueFrom?, hc, ih]

/-- The digits before the last one spell the number of sixteens, and the last one what is left. -/
theorem value?_concat {c : Char} :
    value? (cs ++ [c]) = some n ↔
      ∃ m d, value? cs = some m ∧ digitValue? c = some d ∧ n = 16 * m + d := by
  simp only [value?, valueFrom?_append, valueFrom?, Option.bind_eq_some_iff, Option.some.injEq]
  constructor
  · rintro ⟨m, hm, d, hd, rfl⟩
    exact ⟨m, d, hm, hd, rfl⟩
  · rintro ⟨m, d, hm, hd, rfl⟩
    exact ⟨m, hm, d, hd, rfl⟩

@[simp] theorem length_fixed (k n : Nat) : (fixed k n).length = k := by
  induction k generalizing n with
  | zero => rfl
  | succ k ih => simp [fixed, ih]

/-- Fixed-width text reads back as the number modulo its width. -/
theorem value?_fixed (k n : Nat) : value? (fixed k n) = some (n % bound k) := by
  induction k generalizing n with
  | zero => rw [fixed, value?, valueFrom?, bound, Nat.mod_one]
  | succ k ih =>
    have hlast := digitValue?_digit (Nat.mod_lt n (by decide : 0 < 16))
    refine value?_concat.mpr ⟨_, _, ih (n / 16), hlast, ?_⟩
    rw [bound, Nat.mod_mul]
    omega

/-- Digits spell one of the numbers that as many digits can spell, and it is written again by the
same digits in lower case. -/
theorem fixed_of_value? (h : value? cs = some n) :
    n < bound cs.length ∧ fixed cs.length n = cs.map Char.toLower := by
  -- the induction is on the digits from the last one on, which is how `fixed` takes them
  rw [← List.reverse_reverse cs] at h ⊢
  generalize cs.reverse = ds at h ⊢
  induction ds generalizing n with
  | nil =>
    obtain rfl := Option.some.inj h
    exact ⟨Nat.zero_lt_one, rfl⟩
  | cons c ds ih =>
    rw [List.reverse_cons] at h ⊢
    obtain ⟨m, d, hm, hd, rfl⟩ := value?_concat.mp h
    obtain ⟨hlt, hfixed⟩ := ih hm
    obtain ⟨hdigit, hlower⟩ := digit_of_digitValue? hd
    have hdiv : (16 * m + d) / 16 = m := by omega
    have hmod : (16 * m + d) % 16 = d := by omega
    rw [List.length_append, List.length_singleton, fixed, bound, hdiv, hmod, hfixed, hlower,
      List.map_append, List.map_singleton]
    exact ⟨by omega, rfl⟩

end SetupForms.Text.Hex
