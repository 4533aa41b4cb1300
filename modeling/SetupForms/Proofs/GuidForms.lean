import SetupForms.Guid
import SetupForms.Proofs.Reading

/-!
# The two forms of a GUID

A GUID has sixteen wire bytes and a text, and either one determines it. Any sixteen bytes are the
wire bytes of one GUID (`Guid.toBytes_ofBytes`, `Guid.ofBytes?_eq_some_iff`). A text is read exactly
if it is five groups of digits joined by hyphens (`Guid.Spelling`, `Guid.exists_parse_iff`).

The groups do not follow the fields: the last two together are the last eight bytes. So the forms
meet in bytes. Digits in whole pairs spell bytes (`Hex.pairs`), which are written back as the
lower-case form of the digits (`Hex.ofBytes_pairs`), and a number that is read from pairs has their
bytes with the last one first (`Hex.value?_pairs`). Hence a GUID is read with the bytes that the
groups spell, those of the first three groups reversed (`Guid.Spelling.wire`,
`Guid.Spelling.toBytes_guid`). The main statement is `Guid.forms_inverse`.
-/

namespace SetupForms

open Text

/-! ## Digits in pairs

The reader of numbers takes digits one by one and the reader of bytes takes them two by two.
`alphabet` and `place` say what a digit is worth without either reader, so that both can be compared
with the same bytes, `pairs`. Pairs come from the front, which is also how bytes are read; a number
is read with its last pair as the lowest byte.
-/

namespace Text.Hex

/-- The digits in lower case, each at the place of its value. -/
def alphabet : List Char :=
  ['0', '1', '2', '3', '4', '5', '6', '7', '8', '9', 'a', 'b', 'c', 'd', 'e', 'f']

/-- The value of a digit of either case: the place of its lower-case form. -/
def place (c : Char) : Nat := alphabet.idxOf c.toLower

/-- The bytes that digits spell, two digits a byte and the higher one first. -/
def pairs : List Char → List UInt8
  | [] => []
  | [_] => []
  | hi :: lo :: cs => UInt8.ofNat (16 * place hi + place lo) :: pairs cs

/-- Digits of either case in whole pairs. -/
inductive Paired : List Char → Prop where
  | nil : Paired []
  | cons {hi lo : Char} {cs : List Char} :
      hi.toLower ∈ alphabet → lo.toLower ∈ alphabet → Paired cs → Paired (hi :: lo :: cs)

variable {c : Char} {cs ds : List Char} {n : Nat}

/-- Only digits have a value. -/
theorem lower_mem_of_digitValue? (h : digitValue? c = some n) : c.toLower ∈ alphabet := by
  have hmem : ∀ k : Fin 16, digit k ∈ alphabet := by decide
  obtain ⟨hn, hdigit⟩ := digit_of_digitValue? h
  exact hdigit ▸ hmem ⟨n, hn⟩

/-- Only ASCII characters have a digit as their lower-case form. -/
theorem toNat_lt_of_lower_mem (h : c.toLower ∈ alphabet) : c.toNat < 128 := by
  by_cases hupper : c.val ≥ 'A'.val ∧ c.val ≤ 'Z'.val
  · exact Nat.lt_of_le_of_lt (UInt32.le_iff_toNat_le.mp hupper.2) (by decide)
  · have hsame : c.toLower = c := dif_neg hupper
    have hlow : alphabet.all (·.toNat < 128) := by decide
    exact of_decide_eq_true (List.all_eq_true.mp hlow c (hsame ▸ h))

/-- A digit has the value of its place in the alphabet. -/
theorem digitValue?_of_lower_mem (h : c.toLower ∈ alphabet) : digitValue? c = some (place c) := by
  have ascii : ∀ k : Fin 128, (Char.ofNat k).toLower ∈ alphabet →
      digitValue? (Char.ofNat k) = some (place (Char.ofNat k)) := by decide
  have hc := ascii ⟨c.toNat, toNat_lt_of_lower_mem h⟩
  rw [Char.ofNat_toNat] at hc
  exact hc h

/-- There are sixteen places. -/
theorem place_lt (h : c.toLower ∈ alphabet) : place c < 16 := List.idxOf_lt_length_of_mem h

/-- The digit at the place of a digit is its lower-case form. -/
theorem digit_place (h : c.toLower ∈ alphabet) : digit (place c) = c.toLower :=
  (digit_of_digitValue? (digitValue?_of_lower_mem h)).2

/-- The digit of a number stands at the place of that number. -/
theorem place_digit (h : n < 16) : (digit n).toLower ∈ alphabet ∧ place (digit n) = n := by
  have hall : ∀ k : Fin 16, (digit k).toLower ∈ alphabet ∧ place (digit k) = k := by decide
  exact hall ⟨n, h⟩

/-- Digits whose number is even are pairs. -/
theorem paired_of_even (hl : 2 ∣ cs.length) (h : ∀ c ∈ cs, c.toLower ∈ alphabet) : Paired cs := by
  fun_induction pairs cs with
  | case1 => exact .nil
  | case2 => exact absurd hl (show ¬ 2 ∣ 1 by decide)
  | case3 hi lo cs ih =>
    obtain ⟨hhi, h⟩ := List.forall_mem_cons.mp h
    obtain ⟨hlo, h⟩ := List.forall_mem_cons.mp h
    exact .cons hhi hlo (ih ((Nat.dvd_add_left (Nat.dvd_refl 2)).mp hl) h)

/-- Pairs consist of digits. -/
theorem Paired.lower_mem (h : Paired cs) : ∀ c ∈ cs, c.toLower ∈ alphabet := by
  induction h with
  | nil => exact List.forall_mem_nil _
  | cons hhi hlo _ ih => exact List.forall_mem_cons.mpr ⟨hhi, List.forall_mem_cons.mpr ⟨hlo, ih⟩⟩

/-- Pairs behind pairs are pairs. -/
theorem Paired.append (h : Paired cs) (h' : Paired ds) : Paired (cs ++ ds) := by
  induction h with
  | nil => exact h'
  | cons hhi hlo _ ih => exact .cons hhi hlo ih

theorem pairs_append (h : Paired cs) : pairs (cs ++ ds) = pairs cs ++ pairs ds := by
  induction h with
  | nil => rfl
  | cons _ _ _ ih => exact congrArg (_ :: ·) ih

/-- There are half as many bytes as digits. -/
theorem length_pairs (cs : List Char) : (pairs cs).length = cs.length / 2 := by
  fun_induction pairs cs with
  | case1 => rfl
  | case2 =>
    show 0 = 1 / 2
    rfl
  | case3 hi lo cs ih =>
    rw [List.length_cons, ih]
    exact (Nat.add_div_right _ Nat.two_pos).symm

/-! ### Reading

Both readers answer exactly on pairs: the one with the bytes themselves, the other with the number
that they spell last one first.
-/

/-- Bytes are read from whole pairs of digits, and are those that the pairs spell. -/
theorem toBytes?_eq_some_iff {bs : List UInt8} :
    toBytes? cs = some bs ↔ Paired cs ∧ pairs cs = bs := by
  constructor
  · intro h
    fun_induction toBytes? cs generalizing bs with
    | case1 => exact ⟨.nil, Option.some.inj h⟩
    | case2 => cases h
    | case3 hi lo cs ih =>
      obtain ⟨m, hm, h⟩ := Option.bind_eq_some_iff.mp h
      obtain ⟨n, hn, h⟩ := Option.bind_eq_some_iff.mp h
      obtain ⟨rest, hrest, h⟩ := Option.bind_eq_some_iff.mp h
      obtain ⟨hcs, rfl⟩ := ih hrest
      have hhi := lower_mem_of_digitValue? hm
      have hlo := lower_mem_of_digitValue? hn
      obtain rfl := Option.some.inj ((digitValue?_of_lower_mem hhi).symm.trans hm)
      obtain rfl := Option.some.inj ((digitValue?_of_lower_mem hlo).symm.trans hn)
      exact ⟨.cons hhi hlo hcs, Option.some.inj h⟩
  · rintro ⟨h, rfl⟩
    induction h with
    | nil => rfl
    | cons hhi hlo _ ih =>
      rw [toBytes?, digitValue?_of_lower_mem hhi, digitValue?_of_lower_mem hlo, ih]
      rfl

/-- A number is read from digits only. -/
theorem lower_mem_of_valueFrom? {acc : Nat} (h : valueFrom? acc cs = some n) :
    ∀ c ∈ cs, c.toLower ∈ alphabet := by
  induction cs generalizing acc with
  | nil => exact List.forall_mem_nil _
  | cons c cs ih =>
    obtain ⟨d, hd, h⟩ := Option.bind_eq_some_iff.mp h
    exact List.forall_mem_cons.mpr ⟨lower_mem_of_digitValue? hd, ih h⟩

/-- Each pair puts its byte in front of those read before, which `front` holds last one first. -/
theorem valueFrom?_pairs (h : Paired cs) (front : List UInt8) :
    valueFrom? (Bytes.toNat front) cs = some (Bytes.toNat ((pairs cs).reverse ++ front)) := by
  induction h generalizing front with
  | nil => rfl
  | @cons hi lo cs hhi hlo _ ih =>
    have := place_lt hhi
    have := place_lt hlo
    -- two digits more are one byte more at the low end
    have hbyte : 16 * (16 * Bytes.toNat front + place hi) + place lo =
        Bytes.toNat (UInt8.ofNat (16 * place hi + place lo) :: front) := by
      rw [Bytes.toNat, UInt8.toNat_ofNat_of_lt' (by show _ < 256; omega)]
      omega
    calc valueFrom? (Bytes.toNat front) (hi :: lo :: cs)
      _ = valueFrom? (16 * (16 * Bytes.toNat front + place hi) + place lo) cs := by
        rw [valueFrom?, digitValue?_of_lower_mem hhi, Option.bind_some, valueFrom?,
          digitValue?_of_lower_mem hlo, Option.bind_some]
      _ = some (Bytes.toNat ((pairs cs).reverse ++
            UInt8.ofNat (16 * place hi + place lo) :: front)) := by rw [hbyte, ih]
      _ = some (Bytes.toNat ((pairs (hi :: lo :: cs)).reverse ++ front)) := by
        rw [pairs, List.reverse_cons, List.append_assoc]
        rfl

/-- The number that pairs of digits spell has their bytes, the last one first. -/
theorem value?_pairs (h : Paired cs) : value? cs = some (Bytes.toNat (pairs cs).reverse) := by
  have hvalue := valueFrom?_pairs h []
  rwa [List.append_nil] at hvalue

/-! ### Writing

Bytes are written with digits in lower case, so that writing what was read forgets the case and
nothing else.
-/

/-- A byte is written by two digits. -/
theorem ofBytes_cons (b : UInt8) (bs : List UInt8) :
    ofBytes (b :: bs) = digit (b.toNat / 16) :: digit (b.toNat % 16) :: ofBytes bs := by
  have hb := b.toNat_lt
  have hhi : b.toNat / 16 % 16 = b.toNat / 16 := Nat.mod_eq_of_lt (by omega)
  show digit (b.toNat / 16 % 16) :: digit (b.toNat % 16) :: ofBytes bs = _
  rw [hhi]

/-- The bytes of pairs are written as the lower-case form of the digits. -/
theorem ofBytes_pairs (h : Paired cs) : ofBytes (pairs cs) = cs.map Char.toLower := by
  induction h with
  | nil => rfl
  | @cons hi lo cs hhi hlo _ ih =>
    have := place_lt hhi
    have := place_lt hlo
    have hbyte : (UInt8.ofNat (16 * place hi + place lo)).toNat = 16 * place hi + place lo :=
      UInt8.toNat_ofNat_of_lt' (by show _ < 256; omega)
    have hdiv : (16 * place hi + place lo) / 16 = place hi := by omega
    have hmod : (16 * place hi + place lo) % 16 = place lo := by omega
    rw [pairs, ofBytes_cons, hbyte, hdiv, hmod, digit_place hhi, digit_place hlo, ih]
    rfl

/-- Written bytes are pairs. -/
theorem paired_ofBytes (bs : List UInt8) : Paired (ofBytes bs) := by
  induction bs with
  | nil => exact .nil
  | cons b bs ih =>
    have hb := b.toNat_lt
    rw [ofBytes_cons]
    exact .cons (place_digit (by omega)).1 (place_digit (by omega)).1 ih

/-- Written bytes are spelled by their digits. -/
theorem pairs_ofBytes (bs : List UInt8) : pairs (ofBytes bs) = bs := by
  induction bs with
  | nil => rfl
  | cons b bs ih =>
    have hb := b.toNat_lt
    have hhi : place (digit (b.toNat / 16)) = b.toNat / 16 := (place_digit (by omega)).2
    have hlo : place (digit (b.toNat % 16)) = b.toNat % 16 := (place_digit (by omega)).2
    rw [ofBytes_cons, pairs, hhi, hlo, Nat.div_add_mod, UInt8.ofNat_toNat, ih]

/-- A byte takes two digits. -/
theorem length_ofBytes (bs : List UInt8) : (ofBytes bs).length = 2 * bs.length := by
  induction bs with
  | nil => rfl
  | cons b bs ih => rw [ofBytes_cons, List.length_cons, List.length_cons, ih, List.length_cons]; rfl

/-! ### Runs of digits

A group of a GUID is a run of digits of a known length. As every length that occurs is even, such a
run always spells bytes.
-/

/-- A run of `n` digits of either case. -/
structure Digits (n : Nat) where
  /-- the digits as they are written -/
  chars : List Char
  /-- their number -/
  length_chars : chars.length = n
  /-- in lower case they stand in the alphabet -/
  lower_mem : ∀ c ∈ chars, c.toLower ∈ alphabet

namespace Digits

variable {bs : List UInt8}

/-- The bytes that digits spell. -/
def bytes (d : Digits n) : List UInt8 := pairs d.chars

/-- The digits that are written for bytes. -/
def ofBytes (bs : List UInt8) (h : 2 * bs.length = n) : Digits n where
  chars := Hex.ofBytes bs
  length_chars := (length_ofBytes bs).trans h
  lower_mem := (paired_ofBytes bs).lower_mem

/-- The digits of bytes are those that are written for them. -/
@[simp] theorem chars_ofBytes (h : 2 * bs.length = n) : (ofBytes bs h).chars = Hex.ofBytes bs :=
  rfl

@[simp] theorem bytes_ofBytes (h : 2 * bs.length = n) : (ofBytes bs h).bytes = bs :=
  pairs_ofBytes bs

/-- A run of even length is pairs. -/
theorem paired (d : Digits n) (hn : 2 ∣ n) : Paired d.chars :=
  paired_of_even (d.length_chars.symm ▸ hn) d.lower_mem

theorem length_bytes (d : Digits n) : d.bytes.length = n / 2 := by
  rw [bytes, length_pairs, d.length_chars]

/-- In lower case the digits are those that are written for their bytes. -/
theorem lower_chars (d : Digits n) (hn : 2 ∣ n) :
    d.chars.map Char.toLower = Hex.ofBytes d.bytes :=
  (ofBytes_pairs (d.paired hn)).symm

/-- Digits of the width `n` write the number whose bytes are spelled, the last one first. -/
theorem fixed_bytes (d : Digits n) (hn : 2 ∣ n) :
    fixed n (Bytes.toNat d.bytes.reverse) = Hex.ofBytes d.bytes := by
  have hfixed := (fixed_of_value? (value?_pairs (d.paired hn))).2
  rwa [d.length_chars, d.lower_chars hn] at hfixed

/-- No hyphen is a digit. -/
theorem hyphen_not_mem (d : Digits n) : '-' ∉ d.chars :=
  fun h => absurd (d.lower_mem _ h) (by decide)

end Digits

end Text.Hex

namespace Guid

open Hex

/-! ## Wire bytes

The fields of a GUID are numbers of 4, 2 and 2 bytes and eight bytes as they are. So sixteen bytes
are a GUID, and nothing is lost in either direction.
-/

/-- A GUID is read from its wire bytes. -/
theorem ofBytes_toBytes (g : Guid) : ofBytes ⟨g.toBytes.toArray, g.length_toBytes⟩ = g := by
  obtain ⟨data1, data2, data3, ⟨⟨tail⟩, htail⟩⟩ := g
  match tail, htail with
  | [a, b, c, d, e, f, g, h], _ =>
    show Guid.mk (UInt32.ofNat (Bytes.toNat (Bytes.ofUInt32 data1)))
      (UInt16.ofNat (Bytes.toNat (Bytes.ofUInt16 data2)))
      (UInt16.ofNat (Bytes.toNat (Bytes.ofUInt16 data3))) #v[a, b, c, d, e, f, g, h] = _
    rw [Bytes.toNat_ofUInt32, Bytes.toNat_ofUInt16, Bytes.toNat_ofUInt16, UInt32.ofNat_toNat,
      UInt16.ofNat_toNat, UInt16.ofNat_toNat]

/-- The wire bytes of a GUID are read back. -/
theorem ofBytes?_toBytes (g : Guid) : ofBytes? g.toBytes = some g :=
  (dif_pos g.length_toBytes).trans (congrArg some (ofBytes_toBytes g))

/-- A GUID that was read from sixteen bytes has them as its wire bytes. -/
theorem toBytes_ofBytes (bs : Vector UInt8 16) : (ofBytes bs).toBytes = bs.toList := by
  obtain ⟨⟨bytes⟩, hbytes⟩ := bs
  match bytes, hbytes with
  | [b₀, b₁, b₂, b₃, b₄, b₅, b₆, b₇, b₈, b₉, b₁₀, b₁₁, b₁₂, b₁₃, b₁₄, b₁₅], _ =>
    show Bytes.ofUInt32 (UInt32.ofNat (Bytes.toNat [b₀, b₁, b₂, b₃])) ++
      Bytes.ofUInt16 (UInt16.ofNat (Bytes.toNat [b₄, b₅])) ++
      Bytes.ofUInt16 (UInt16.ofNat (Bytes.toNat [b₆, b₇])) ++
      [b₈, b₉, b₁₀, b₁₁, b₁₂, b₁₃, b₁₄, b₁₅] = _
    rw [Bytes.ofUInt32_ofNat rfl, Bytes.ofUInt16_ofNat rfl, Bytes.ofUInt16_ofNat rfl]
    rfl

/-- A run of bytes spells a GUID exactly if it is the wire bytes of that GUID. -/
theorem ofBytes?_eq_some_iff {bs : List UInt8} {g : Guid} :
    ofBytes? bs = some g ↔ bs = g.toBytes := by
  constructor
  · intro h
    by_cases hl : bs.length = 16
    · rw [ofBytes?, dif_pos hl] at h
      rw [← Option.some.inj h, toBytes_ofBytes]
      rfl
    · rw [ofBytes?, dif_neg hl] at h
      cases h
  · rintro rfl
    exact ofBytes?_toBytes g

/-- A GUID is known by its wire bytes. -/
theorem toBytes_injective {g g' : Guid} (h : g.toBytes = g'.toBytes) : g = g' :=
  Option.some.inj ((ofBytes?_toBytes g).symm.trans (ofBytes?_eq_some_iff.mpr h))

/-! ## Groups of digits

A spelling is what a well-formed text is made of. Its groups need not be in lower case, so several
spellings may belong to one GUID; all of them have the same bytes.
-/

/-- The five groups of digits that spell a GUID. -/
structure Spelling where
  /-- the first group -/
  first : Digits 8
  /-- the second group -/
  second : Digits 4
  /-- the third group -/
  third : Digits 4
  /-- the fourth group -/
  fourth : Digits 4
  /-- the fifth group -/
  fifth : Digits 12

namespace Spelling

/-- The groups in their order. -/
def groups (s : Spelling) : List (List Char) :=
  [s.first.chars, s.second.chars, s.third.chars, s.fourth.chars, s.fifth.chars]

/-- The groups joined by hyphens. -/
def text (s : Spelling) : String := String.ofList (['-'].intercalate s.groups)

/-- The bytes that each group spells. -/
def bytes (s : Spelling) : List (List UInt8) :=
  [s.first.bytes, s.second.bytes, s.third.bytes, s.fourth.bytes, s.fifth.bytes]

/-- The bytes of all groups in a row, those of each of the first three groups last one first. -/
def wire (s : Spelling) : List UInt8 :=
  s.first.bytes.reverse ++ s.second.bytes.reverse ++ s.third.bytes.reverse ++
    s.fourth.bytes ++ s.fifth.bytes

/-- The row comes apart into the bytes of the groups, whose numbers are known. -/
theorem bytes_eq_of_wire {s s' : Spelling} (h : s.wire = s'.wire) : s.bytes = s'.bytes := by
  have hl {n : Nat} (d d' : Digits n) : d.bytes.length = d'.bytes.length :=
    d.length_bytes.trans d'.length_bytes.symm
  have hrev {n : Nat} (d d' : Digits n) : d.bytes.reverse.length = d'.bytes.reverse.length := by
    rw [List.length_reverse, List.length_reverse, hl]
  obtain ⟨h, hfifth⟩ := List.append_inj' h (hl ..)
  obtain ⟨h, hfourth⟩ := List.append_inj' h (hl ..)
  obtain ⟨h, hthird⟩ := List.append_inj' h (hrev ..)
  obtain ⟨hfirst, hsecond⟩ := List.append_inj' h (hrev ..)
  rw [bytes, List.reverse_inj.mp hfirst, List.reverse_inj.mp hsecond, List.reverse_inj.mp hthird,
    hfourth, hfifth]
  rfl

/-- The groups in lower case are written for the bytes of the groups. -/
theorem lower_groups (s : Spelling) :
    s.groups.map (List.map Char.toLower) = s.bytes.map Hex.ofBytes := by
  simp only [groups, bytes, List.map_cons, List.map_nil, s.first.lower_chars (by decide),
    s.second.lower_chars (by decide), s.third.lower_chars (by decide),
    s.fourth.lower_chars (by decide), s.fifth.lower_chars (by decide)]

/-- The text in lower case joins the groups in lower case. -/
theorem toLower_text (s : Spelling) :
    s.text.toLower = String.ofList (['-'].intercalate (s.groups.map (List.map Char.toLower))) := by
  apply String.toList_inj.mp
  show (s.text.map Char.toLower).toList = _
  rw [String.toList_map, text, String.toList_ofList, String.toList_ofList]
  have hhyphen : '-'.toLower = '-' := rfl
  simp only [groups, List.map_cons, List.map_nil, List.intercalate_cons_cons,
    List.intercalate_singleton, List.map_append, hhyphen]

/-- The last two groups spell the last eight bytes together. -/
def tail (s : Spelling) : Vector UInt8 8 :=
  ⟨(s.fourth.bytes ++ s.fifth.bytes).toArray, by
    rw [List.size_toArray, List.length_append, s.fourth.length_bytes, s.fifth.length_bytes]⟩

/-- The GUID that the groups spell. -/
def guid (s : Spelling) : Guid where
  data1 := UInt32.ofNat (Bytes.toNat s.first.bytes.reverse)
  data2 := UInt16.ofNat (Bytes.toNat s.second.bytes.reverse)
  data3 := UInt16.ofNat (Bytes.toNat s.third.bytes.reverse)
  data4 := s.tail

/-- The GUID of a spelling has the bytes of the groups on the wire. -/
theorem toBytes_guid (s : Spelling) : s.guid.toBytes = s.wire := by
  have hrev {n : Nat} (d : Digits n) : d.bytes.reverse.length = n / 2 :=
    List.length_reverse.trans d.length_bytes
  have htail : s.guid.data4.toList = s.fourth.bytes ++ s.fifth.bytes := rfl
  rw [toBytes, guid, Bytes.ofUInt32_ofNat (hrev s.first), Bytes.ofUInt16_ofNat (hrev s.second),
    Bytes.ofUInt16_ofNat (hrev s.third), wire, List.append_assoc _ s.fourth.bytes, ← htail]
  rfl

end Spelling

/-- The groups of the text of a GUID. -/
def spelling (g : Guid) : Spelling where
  first := .ofBytes (Bytes.ofUInt32 g.data1).reverse (by simp)
  second := .ofBytes (Bytes.ofUInt16 g.data2).reverse (by simp)
  third := .ofBytes (Bytes.ofUInt16 g.data3).reverse (by simp)
  fourth := .ofBytes (g.data4.toList.take 2) (by simp)
  fifth := .ofBytes (g.data4.toList.drop 2) (by simp)

/-- The text of a GUID joins its groups. -/
theorem text_spelling (g : Guid) : g.spelling.text = g.text := by
  have hfirst : fixed 8 g.data1.toNat = g.spelling.first.chars := by
    simpa [spelling] using g.spelling.first.fixed_bytes (by decide)
  have hsecond : fixed 4 g.data2.toNat = g.spelling.second.chars := by
    simpa [spelling] using g.spelling.second.fixed_bytes (by decide)
  have hthird : fixed 4 g.data3.toNat = g.spelling.third.chars := by
    simpa [spelling] using g.spelling.third.fixed_bytes (by decide)
  rw [text, chars, hfirst, hsecond, hthird, Spelling.text]
  simp only [Spelling.groups, List.intercalate_cons_cons, List.intercalate_singleton,
    List.append_assoc, List.cons_append]
  rfl

/-- The groups of a GUID have its wire bytes. -/
theorem wire_spelling (g : Guid) : g.spelling.wire = g.toBytes := by
  simp [Spelling.wire, spelling, toBytes]

/-- The groups of a GUID are written for their bytes. -/
theorem groups_spelling (g : Guid) : g.spelling.groups = g.spelling.bytes.map Hex.ofBytes := by
  simp only [Spelling.bytes, spelling, Digits.bytes_ofBytes]
  rfl

/-- A GUID is written as the lower-case form of any groups that spell its wire bytes. -/
theorem text_of_wire {g : Guid} {s : Spelling} (h : g.toBytes = s.wire) :
    g.text = s.text.toLower := by
  have hbytes : g.spelling.bytes = s.bytes := Spelling.bytes_eq_of_wire ((wire_spelling g).trans h)
  rw [← text_spelling, Spelling.text, groups_spelling, hbytes, ← Spelling.lower_groups,
    Spelling.toLower_text]

/-! ## Reading a text

The text is cut at its hyphens and each group is read for itself. No digit is a hyphen, so cutting a
joined text gives the groups back.
-/

/-- Cutting at hyphens is splitting a list at a separator. -/
theorem groups_eq_splitOn (cs : List Char) : groups cs = cs.splitOn '-' := by
  induction cs with
  | nil => rfl
  | cons c cs ih =>
    rw [List.splitOn_cons_eq_if_modifyHead, ← ih, groups]
    by_cases hc : c = '-'
    · rw [if_pos hc, if_pos (beq_iff_eq.mpr hc)]
    · rw [if_neg hc, if_neg (mt beq_iff_eq.mp hc)]
      cases hgs : groups cs with
      | nil => exact absurd (ih.symm.trans hgs) (List.splitOn_ne_nil _ _)
      | cons g gs => rfl

/-- The joined groups are cut apart again. -/
theorem Spelling.cut_text (s : Spelling) : Guid.groups s.text.toList = s.groups := by
  rw [groups_eq_splitOn, text, String.toList_ofList]
  refine List.splitOn_intercalate '-' ?_ (List.cons_ne_nil _ _)
  simp only [Spelling.groups, List.forall_mem_cons]
  exact ⟨s.first.hyphen_not_mem, s.second.hyphen_not_mem, s.third.hyphen_not_mem,
    s.fourth.hyphen_not_mem, s.fifth.hyphen_not_mem, List.forall_mem_nil _⟩

/-- A text is cut into the groups that it joins. -/
theorem Spelling.text_eq_iff {s : Spelling} {text : String} :
    s.text = text ↔ s.groups = Guid.groups text.toList := by
  constructor
  · rintro rfl
    exact s.cut_text.symm
  · intro h
    rw [Spelling.text, h, groups_eq_splitOn, List.intercalate_splitOn, String.ofList_toList]

/-- Groups that are read as a GUID are a spelling. -/
theorem exists_spelling_of_ofGroups? {gs : List (List Char)} {g : Guid}
    (h : ofGroups? gs = some g) : ∃ s : Spelling, s.groups = gs := by
  unfold ofGroups? at h
  split at h
  next a b c d e =>
    split at h
    next hl =>
      obtain ⟨ha, hb, hc, hd, he⟩ := hl
      obtain ⟨_, hfirst, h⟩ := Option.bind_eq_some_iff.mp h
      obtain ⟨_, hsecond, h⟩ := Option.bind_eq_some_iff.mp h
      obtain ⟨_, hthird, h⟩ := Option.bind_eq_some_iff.mp h
      obtain ⟨_, htail, -⟩ := Option.bind_eq_some_iff.mp h
      have hpaired := (toBytes?_eq_some_iff.mp htail).1
      obtain ⟨hfourth, hfifth⟩ := List.forall_mem_append.mp hpaired.lower_mem
      exact ⟨⟨⟨a, ha, lower_mem_of_valueFrom? hfirst⟩, ⟨b, hb, lower_mem_of_valueFrom? hsecond⟩,
        ⟨c, hc, lower_mem_of_valueFrom? hthird⟩, ⟨d, hd, hfourth⟩, ⟨e, he, hfifth⟩⟩, rfl⟩
    next => cases h
  next => cases h

/-- Groups are read as the GUID that they spell. -/
theorem ofGroups?_groups (s : Spelling) : ofGroups? s.groups = some s.guid := by
  have hfirst := value?_pairs (s.first.paired (by decide))
  have hsecond := value?_pairs (s.second.paired (by decide))
  have hthird := value?_pairs (s.third.paired (by decide))
  have hfourth := s.fourth.paired (by decide)
  have hfifth := s.fifth.paired (by decide)
  have htail : toBytes? (s.fourth.chars ++ s.fifth.chars) = some s.tail.toList :=
    toBytes?_eq_some_iff.mpr ⟨hfourth.append hfifth, pairs_append hfourth⟩
  rw [Spelling.groups, ofGroups?, if_pos ⟨s.first.length_chars, s.second.length_chars,
    s.third.length_chars, s.fourth.length_chars, s.fifth.length_chars⟩, hfirst, hsecond, hthird,
    htail]
  exact dif_pos s.tail.length_toList

/-- A text is read if its groups are. -/
theorem parse_eq_ok_iff {text : String} {g : Guid} :
    parse text = .ok g ↔ ofGroups? (groups text.toList) = some g := by
  unfold parse
  split
  next h => rw [h, Except.ok.injEq, Option.some.injEq]
  next h => simp [h]

/-- The text of a spelling is read as its GUID. -/
theorem Spelling.parse_text (s : Spelling) : parse s.text = .ok s.guid := by
  rw [parse_eq_ok_iff, s.cut_text, ofGroups?_groups]

/-- A text is read exactly if it is five groups of digits joined by hyphens. -/
theorem exists_parse_iff {text : String} :
    (∃ g, parse text = .ok g) ↔ ∃ s : Spelling, s.text = text := by
  constructor
  · rintro ⟨g, hg⟩
    obtain ⟨s, hs⟩ := exists_spelling_of_ofGroups? (parse_eq_ok_iff.mp hg)
    exact ⟨s, Spelling.text_eq_iff.mpr hs⟩
  · rintro ⟨s, rfl⟩
    exact ⟨s.guid, s.parse_text⟩

/-- The text of a GUID is read as that GUID. -/
theorem parse_text (g : Guid) : parse g.text = .ok g := by
  have hg : g.spelling.guid = g := toBytes_injective (g.spelling.toBytes_guid.trans g.wire_spelling)
  rw [← text_spelling, Spelling.parse_text, hg]

/-- A text that is not read is named in the fault. -/
theorem parse_eq_error {text : String} (h : ¬ ∃ g, parse text = .ok g) :
    parse text = .error (.invalidGuid text) := by
  unfold parse at h ⊢
  split at h
  next g _ => exact absurd ⟨g, rfl⟩ h
  next => rfl

/-- **Text and wire bytes are inverse encodings.** The text of a GUID is read as that GUID, and so
are its wire bytes. Any sixteen bytes are those of the GUID that is read from them. A text is read
if and only if it is five groups of 8, 4, 4, 4 and 12 digits of either case, joined by hyphens. What
is read from it has the text in lower case, and the bytes that the groups spell: those of the first
three groups last one first, and those of the last two in order. Any other text is refused as an
invalid GUID, and the fault bears the text. -/
theorem forms_inverse :
    (∀ g : Guid, parse g.text = .ok g ∧ ofBytes ⟨g.toBytes.toArray, g.length_toBytes⟩ = g) ∧
      (∀ bytes : Vector UInt8 16, (ofBytes bytes).toBytes = bytes.toList) ∧
      ∀ text : String,
        ((∃ g, parse text = .ok g) ↔ ∃ s : Spelling, s.text = text) ∧
          (∀ s : Spelling, s.text = text →
            ∃ g, parse text = .ok g ∧ g.text = text.toLower ∧ g.toBytes = s.wire) ∧
          ((¬ ∃ s : Spelling, s.text = text) → parse text = .error (.invalidGuid text)) := by
  refine ⟨fun g => ⟨parse_text g, ofBytes_toBytes g⟩, toBytes_ofBytes, fun text => ?_⟩
  refine ⟨exists_parse_iff, ?_, fun h => parse_eq_error (mt exists_parse_iff.mp h)⟩
  rintro s rfl
  exact ⟨s.guid, s.parse_text, text_of_wire s.toBytes_guid, s.toBytes_guid⟩

/-- Digits of both cases are read, and a sign is not one of them. -/
theorem forms_inverse_mixedCase :
    (∃ g, parse "93E6fcd9-8E17-43df-B7F0-913e58B1a789" = .ok g ∧
      g.text = "93e6fcd9-8e17-43df-b7f0-913e58b1a789" ∧ g.toBytes = setupMenu.toBytes) ∧
    parse "+3e6fcd9-8e17-43df-b7f0-913e58b1a789" =
      .error (.invalidGuid "+3e6fcd9-8e17-43df-b7f0-913e58b1a789") := by
  obtain ⟨-, -, hread⟩ := forms_inverse
  obtain ⟨-, hspelled, -⟩ := hread "93E6fcd9-8E17-43df-B7F0-913e58B1a789"
  obtain ⟨hiff, -, hrefused⟩ := hread "+3e6fcd9-8e17-43df-b7f0-913e58b1a789"
  have digits {cs : List Char} (h : cs.all (·.toLower ∈ alphabet)) :
      ∀ c ∈ cs, c.toLower ∈ alphabet :=
    fun c hc => of_decide_eq_true (List.all_eq_true.mp h c hc)
  constructor
  · let s : Spelling :=
      ⟨⟨['9', '3', 'E', '6', 'f', 'c', 'd', '9'], rfl, digits (by decide)⟩,
        ⟨['8', 'E', '1', '7'], rfl, digits (by decide)⟩,
        ⟨['4', '3', 'd', 'f'], rfl, digits (by decide)⟩,
        ⟨['B', '7', 'F', '0'], rfl, digits (by decide)⟩,
        ⟨['9', '1', '3', 'e', '5', '8', 'B', '1', 'a', '7', '8', '9'], rfl, digits (by decide)⟩⟩
    obtain ⟨g, hg, htext, hwire⟩ := hspelled s rfl
    exact ⟨g, hg, htext.trans s.toLower_text, hwire.trans rfl⟩
  · apply hrefused
    rw [← hiff]
    rintro ⟨g, hg⟩
    cases hg

end Guid

end SetupForms
