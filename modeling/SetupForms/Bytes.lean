/-!
# Little-endian numbers

`ofNat k n` writes the `k` low bytes of `n`, least significant first, and `toNat` reads such a
run of bytes back. The two are inverse on what fits: `toNat_ofNat` and `ofNat_toNat`. The wire
words of the format (`ofUInt16`, `ofUInt32`, `ofUInt64`) are the instances for 2, 4 and 8 bytes,
and everything about them is the general statement at the width of the word.

All words of the format are little-endian, whatever machine reads them.
-/

namespace SetupForms.Bytes

/-- The `k` low bytes of `n`, least significant first. -/
def ofNat : Nat → Nat → List UInt8
  | 0, _ => []
  | k + 1, n => UInt8.ofNat n :: ofNat k (n / 256)

/-- The number a run of bytes spells, least significant byte first. -/
def toNat : List UInt8 → Nat
  | [] => 0
  | b :: bs => b.toNat + 256 * toNat bs

/-- How many numbers `k` bytes can spell. -/
def bound : Nat → Nat
  | 0 => 1
  | k + 1 => 256 * bound k

@[simp] theorem length_ofNat (k n : Nat) : (ofNat k n).length = k := by
  induction k generalizing n with
  | zero => rfl
  | succ k ih => simp [ofNat, ih]

/-- Reading what was written gives the number modulo its width. -/
theorem toNat_ofNat (k n : Nat) : toNat (ofNat k n) = n % bound k := by
  induction k generalizing n with
  | zero => rw [ofNat, toNat, bound, Nat.mod_one]
  | succ k ih =>
    rw [ofNat, toNat, ih, bound, Nat.mod_mul, UInt8.toNat_ofNat']

/-- A run of bytes spells one of the numbers that as many bytes can spell. -/
theorem toNat_lt (bs : List UInt8) : toNat bs < bound bs.length := by
  induction bs with
  | nil => exact Nat.zero_lt_one
  | cons b bs ih =>
    have hb := b.toNat_lt
    rw [toNat, List.length_cons, bound]
    omega

/-- Writing what was read gives the same bytes. -/
theorem ofNat_toNat (bs : List UInt8) : ofNat bs.length (toNat bs) = bs := by
  induction bs with
  | nil => rfl
  | cons b bs ih =>
    have hb := b.toNat_lt
    rw [List.length_cons, ofNat, toNat]
    congr 1
    · apply UInt8.toNat_inj.mp
      rw [UInt8.toNat_ofNat']
      omega
    · rw [show (b.toNat + 256 * toNat bs) / 256 = toNat bs by omega, ih]

/-- What fits in `k` bytes is read back as it was written. -/
theorem toNat_ofNat_of_lt {k n : Nat} (h : n < bound k) : toNat (ofNat k n) = n :=
  (toNat_ofNat k n).trans (Nat.mod_eq_of_lt h)

/-- Bytes are written back as they were read, also if their number is cut to their width first, as
it is when it becomes a machine word. -/
theorem ofNat_toNat_mod {k : Nat} {bs : List UInt8} (h : bs.length = k) :
    ofNat k (toNat bs % bound k) = bs := by
  subst h
  rw [Nat.mod_eq_of_lt (toNat_lt bs), ofNat_toNat]

/-! ## Machine words

The bound of a width is the size of the machine word of that width, so the reader's reduction to
the word and the writer's choice of the low bytes are the same reduction.
-/

/-- The two wire bytes of a 16-bit word. -/
def ofUInt16 (v : UInt16) : List UInt8 := ofNat 2 v.toNat

/-- The four wire bytes of a 32-bit word. -/
def ofUInt32 (v : UInt32) : List UInt8 := ofNat 4 v.toNat

/-- The eight wire bytes of a 64-bit word. -/
def ofUInt64 (v : UInt64) : List UInt8 := ofNat 8 v.toNat

@[simp] theorem length_ofUInt16 (v : UInt16) : (ofUInt16 v).length = 2 := length_ofNat ..

@[simp] theorem length_ofUInt32 (v : UInt32) : (ofUInt32 v).length = 4 := length_ofNat ..

@[simp] theorem length_ofUInt64 (v : UInt64) : (ofUInt64 v).length = 8 := length_ofNat ..

@[simp] theorem toNat_ofUInt16 (v : UInt16) : toNat (ofUInt16 v) = v.toNat :=
  toNat_ofNat_of_lt v.toNat_lt

@[simp] theorem toNat_ofUInt32 (v : UInt32) : toNat (ofUInt32 v) = v.toNat :=
  toNat_ofNat_of_lt v.toNat_lt

@[simp] theorem toNat_ofUInt64 (v : UInt64) : toNat (ofUInt64 v) = v.toNat :=
  toNat_ofNat_of_lt v.toNat_lt

variable {bs : List UInt8}

theorem ofUInt16_ofNat (h : bs.length = 2) : ofUInt16 (UInt16.ofNat (toNat bs)) = bs := by
  rw [ofUInt16, UInt16.toNat_ofNat']
  exact ofNat_toNat_mod h

theorem ofUInt32_ofNat (h : bs.length = 4) : ofUInt32 (UInt32.ofNat (toNat bs)) = bs := by
  rw [ofUInt32, UInt32.toNat_ofNat']
  exact ofNat_toNat_mod h

theorem ofUInt64_ofNat (h : bs.length = 8) : ofUInt64 (UInt64.ofNat (toNat bs)) = bs := by
  rw [ofUInt64, UInt64.toNat_ofNat']
  exact ofNat_toNat_mod h

/-- Different words have different wire bytes. -/
theorem ofUInt32_injective {v v' : UInt32} (h : ofUInt32 v = ofUInt32 v') : v = v' := by
  have hn := congrArg toNat h
  rw [toNat_ofUInt32, toNat_ofUInt32] at hn
  exact UInt32.toNat_inj.mp hn

end SetupForms.Bytes
