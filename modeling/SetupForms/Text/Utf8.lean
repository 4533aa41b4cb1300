/-!
# UTF-8

`encode` and `decode?` translate between text and bytes; `decode?` accepts exactly what `encode`
writes (`decode?_eq_some_iff`). `decodeLossy` reads any bytes: it cuts them into `parts`, each one
scalar value or one maximal run that no scalar value continues, and puts U+FFFD for the latter.

The wire holds bytes that need not be text. What must be text is read with `decode?`; arguments of
the command, which come as bytes and are taken as they are, are read with `decodeLossy`.
-/

namespace SetupForms.Text.Utf8

/-- The bytes of a text. -/
def encode (s : String) : List UInt8 := s.toUTF8.data.toList

/-- The text of well-formed bytes. -/
def decode? (bs : List UInt8) : Option String := String.fromUTF8? ⟨bs.toArray⟩

/-- Reading accepts exactly what writing produces. -/
theorem decode?_eq_some_iff {bs : List UInt8} {s : String} :
    decode? bs = some s ↔ encode s = bs := by
  unfold decode? encode String.fromUTF8? String.toUTF8
  split
  next h =>
    simp only [Option.some.injEq]
    constructor
    · rintro rfl
      rfl
    · rintro rfl
      rfl
  next h =>
    simp only [reduceCtorEq, false_iff]
    rintro rfl
    exact h s.isValidUTF8

@[simp] theorem decode?_encode (s : String) : decode? (encode s) = some s :=
  decode?_eq_some_iff.mpr rfl

theorem encode_injective {s t : String} (h : encode s = encode t) : s = t := by
  have := decode?_encode s
  rw [h, decode?_encode] at this
  exact (Option.some.inj this).symm

/-- What may follow a lead byte. -/
structure Continuation where
  /-- how many bytes follow -/
  count : Nat
  /-- the least first byte that follows -/
  low : UInt8 := 0x80
  /-- the greatest first byte that follows -/
  high : UInt8 := 0xbf

/-- The continuation that a lead byte announces; none for a byte that leads nothing. The bounds on
the first byte leave out overlong spellings, surrogates and values above U+10FFFF. -/
def continuation (lead : UInt8) : Continuation :=
  if lead < 0xc2 then ⟨0, 0x80, 0xbf⟩
  else if lead < 0xe0 then ⟨1, 0x80, 0xbf⟩
  else if lead = 0xe0 then ⟨2, 0xa0, 0xbf⟩
  else if lead = 0xed then ⟨2, 0x80, 0x9f⟩
  else if lead < 0xf0 then ⟨2, 0x80, 0xbf⟩
  else if lead = 0xf0 then ⟨3, 0x90, 0xbf⟩
  else if lead < 0xf4 then ⟨3, 0x80, 0xbf⟩
  else if lead = 0xf4 then ⟨3, 0x80, 0x8f⟩
  else ⟨0, 0x80, 0xbf⟩

/-- How many of the bytes continue a scalar value: at most `count`, the first between the bounds and
the others any continuation bytes. -/
def Continuation.taken (c : Continuation) : List UInt8 → Nat
  | [] => 0
  | b :: bs =>
    if c.count = 0 ∨ b < c.low ∨ c.high < b then 0
    else 1 + ((bs.take (c.count - 1)).takeWhile fun b => 0x80 ≤ b && b ≤ 0xbf).length

/-- The bytes cut into scalar values and maximal ill-formed runs. -/
def parts : List UInt8 → List (List UInt8)
  | [] => []
  | lead :: bs =>
    let k := (continuation lead).taken bs
    (lead :: bs.take k) :: parts (bs.drop k)
termination_by bs => bs.length
decreasing_by
  rw [List.length_drop, List.length_cons]
  omega

/-- The text of any bytes, with U+FFFD for each ill-formed run. -/
def decodeLossy (bs : List UInt8) : String :=
  String.join ((parts bs).map fun p => (decode? p).getD "\uFFFD")

end SetupForms.Text.Utf8
