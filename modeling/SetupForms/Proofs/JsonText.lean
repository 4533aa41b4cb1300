import Mathlib.Data.List.Forall2
import SetupForms.Command.Run
import SetupForms.Settings

/-!
# Written JSON reads back

Both layouts of a value are JSON text, and reading the text gives the value again, every number by
its digits and every string by its characters (`Document.parse?_compact`,
`Document.parse?_pretty`). So the menu that the command line prints as JSON can be read by whoever
reads JSON (`Command.parse?_runMenu`), and settings that are written to a file are the settings
that the file is read as (`Settings.ofText?_toJson`).

Reading goes by tokens, and so does the proof. `Document.Spells` says that a text is read as given
tokens in front of any text that does not go on a number; it is closed under the blocks of either
layout, whatever blanks they have (`Document.Spells.block`). From there the layouts are gone: what
is left is that the machine of open containers turns the tokens of a value into its document
(`Json.value?_tokens`).
-/

namespace SetupForms

open Text

namespace Document

/-! ## What a text is read as

A number is the only token that can be longer in front of one text than in front of another. The
texts that may follow a value in JSON start with a mark or a blank and leave a number as it is.
-/

/-- Whether a text does not go on a number that ends in front of it. -/
def EndsNumber (rest : List Char) : Prop :=
  ∀ c ∈ rest.head?, c.isDigit = false ∧ c ≠ '.' ∧ c ≠ 'e' ∧ c ≠ 'E'

/-- A text is read as given tokens, whatever is behind it. -/
def Spells (text : List Char) (ts : List Token) : Prop :=
  ∀ rest, EndsNumber rest → tokens? (text ++ rest) = (tokens? rest).map (ts ++ ·)

theorem tokens?_cons {c : Char} {cs : List Char} {t : Token} {n : Nat} (hc : isBlank c = false)
    (ht : token? c cs = some (t, n)) : tokens? (c :: cs) = (tokens? (cs.drop n)).map (t :: ·) := by
  rw [tokens?, hc, ht]
  rfl

/-- Blanks in front of a text are passed over. -/
theorem tokens?_blanks {gap : List Char} (hgap : ∀ c ∈ gap, isBlank c = true) (cs : List Char) :
    tokens? (gap ++ cs) = tokens? cs := by
  induction gap with
  | nil => rfl
  | cons c gap ih =>
    obtain ⟨hc, hgap⟩ := List.forall_mem_cons.mp hgap
    rw [List.cons_append, tokens?, if_pos hc, ih hgap]

theorem isBlank_iff {c : Char} :
    isBlank c = true ↔ c = ' ' ∨ c = '\t' ∨ c = '\n' ∨ c = '\r' := by
  simp [isBlank, or_assoc]

theorem endsNumber_blanks {gap : List Char} (hgap : ∀ c ∈ gap, isBlank c = true) {cs : List Char}
    (hcs : EndsNumber cs) : EndsNumber (gap ++ cs) := by
  cases gap with
  | nil => exact hcs
  | cons c gap =>
    intro d hd
    obtain rfl : c = d := by simpa using hd
    rcases isBlank_iff.mp (hgap c List.mem_cons_self) with rfl | rfl | rfl | rfl <;> decide

/-! ## Strings

Each character is escaped on its own, and reading the escape gives the units of the character. The
reader counts the characters that it takes, so the count comes along.
-/

theorem units_of_lt {c : Char} (hc : c.toNat < 0x10000) :
    Utf16.units c = [UInt16.ofNat c.toNat] := if_pos hc

theorem value?_unicodeEscape {c : Char} (hc : c.toNat < 0x20) :
    Hex.value? ['0', '0', Nat.digitChar (c.toNat / 16), Nat.digitChar (c.toNat % 16)]
      = some c.toNat := by
  have hfixed : Hex.fixed 4 c.toNat
      = ['0', '0', Nat.digitChar (c.toNat / 16), Nat.digitChar (c.toNat % 16)] := by
    have hhigh : c.toNat / 16 / 16 = 0 := by omega
    have hlow : c.toNat / 16 % 16 = c.toNat / 16 := by omega
    simp only [Hex.fixed, hhigh, hlow]
    rfl
  rw [← hfixed, Hex.value?_fixed, Nat.mod_eq_of_lt (Nat.lt_trans hc (by decide))]

theorem stringBody?_short {c d : Char} (hc : shortEscape? c = some d) (cs : List Char) :
    stringBody? ('\\' :: c :: cs)
      = (stringBody? cs).map fun r => (Utf16.units d ++ r.1, r.2 + 2) := by
  have hu : c ≠ 'u' := by
    rintro rfl
    cases hc
  rw [stringBody?.eq_4 _ _ (by simp [hu]), hc]
  cases stringBody? cs <;> rfl

theorem stringBody?_plain {c : Char} (hquote : c ≠ '"') (hslash : c ≠ '\\') (hc : 0x20 ≤ c.toNat)
    (cs : List Char) :
    stringBody? (c :: cs) = (stringBody? cs).map fun r => (Utf16.units c ++ r.1, r.2 + 1) := by
  rw [stringBody?, if_neg (not_or.mpr ⟨hslash, Nat.not_lt.mpr hc⟩)]
  · cases stringBody? cs <;> rfl
  · exact hquote
  · simp [hslash]
  · simp [hslash]

theorem stringBody?_unicode {a b c d : Char} {n : Nat} (h : Hex.value? [a, b, c, d] = some n)
    (cs : List Char) :
    stringBody? ('\\' :: 'u' :: a :: b :: c :: d :: cs)
      = (stringBody? cs).map fun r => (UInt16.ofNat n :: r.1, r.2 + 6) := by
  rw [stringBody?, h]
  cases stringBody? cs <;> rfl

/-- The escape of a character is read as the character. -/
theorem stringBody?_escape (c : Char) (cs : List Char) :
    stringBody? (Json.escape c ++ cs)
      = (stringBody? cs).map fun r => (Utf16.units c ++ r.1, r.2 + (Json.escape c).length) := by
  unfold Json.escape
  split_ifs with hquote hslash h8 h9 h10 h12 h13 hcontrol
  case pos =>
    subst hquote
    exact stringBody?_short rfl cs
  case pos =>
    subst hslash
    exact stringBody?_short rfl cs
  case pos =>
    subst h8
    exact stringBody?_short rfl cs
  case pos =>
    subst h9
    exact stringBody?_short rfl cs
  case pos =>
    subst h10
    exact stringBody?_short rfl cs
  case pos =>
    subst h12
    exact stringBody?_short rfl cs
  case pos =>
    subst h13
    exact stringBody?_short rfl cs
  case pos =>
    rw [units_of_lt (Nat.lt_trans hcontrol (by decide))]
    exact stringBody?_unicode (value?_unicodeEscape hcontrol) cs
  case neg => exact stringBody?_plain hquote hslash (Nat.not_lt.mp hcontrol) cs

theorem stringBody?_escaped (cs rest : List Char) :
    stringBody? ((cs.flatMap Json.escape ++ ['"']) ++ rest)
      = some (Utf16.encode cs, (cs.flatMap Json.escape ++ ['"']).length) := by
  induction cs with
  | nil => rfl
  | cons c cs ih =>
    have hlength : ((c :: cs).flatMap Json.escape ++ ['"']).length
        = (cs.flatMap Json.escape ++ ['"']).length + (Json.escape c).length := by
      rw [List.flatMap_cons, List.append_assoc, List.length_append, Nat.add_comm]
    rw [hlength, List.flatMap_cons, List.append_assoc, List.append_assoc, stringBody?_escape,
      ← List.append_assoc, ih, Utf16.encode_cons]
    rfl

/-- A text in quotes is read as the text. -/
theorem spells_quote (s : String) : Spells (Json.quote s).toList [.string (some s)] := by
  intro rest _
  have htext : (Json.quote s).toList = '"' :: (s.toList.flatMap Json.escape ++ ['"']) := by
    simp [Json.quote]
  have htoken : token? '"' ((s.toList.flatMap Json.escape ++ ['"']) ++ rest)
      = some (.string (some s), (s.toList.flatMap Json.escape ++ ['"']).length) := by
    simp only [token?, stringBody?_escaped, Option.map_some, Utf16.decode?_encode,
      String.ofList_toList]
  rw [htext, List.cons_append, tokens?_cons rfl htoken, List.drop_left]
  rfl

/-! ## Numbers

A number is written without sign, fraction and exponent, and the reader looks for all three. There
is no sign because the first character is a digit; there is no fraction and no exponent because the
text behind ends the number.
-/

theorem digitCount_append {digits rest : List Char} (hdigits : ∀ c ∈ digits, c.isDigit = true)
    (hrest : EndsNumber rest) : digitCount (digits ++ rest) = digits.length := by
  have htake : rest.takeWhile Char.isDigit = [] := by
    cases rest with
    | nil => rfl
    | cons c cs => exact List.takeWhile_cons_of_neg (by simp [(hrest c rfl).1])
  rw [digitCount, List.takeWhile_append_of_pos hdigits, htake, List.append_nil]

theorem fractionLength?_eq {rest : List Char} (hrest : EndsNumber rest) :
    fractionLength? rest = some 0 := by
  unfold fractionLength?
  split
  · exact absurd rfl (hrest _ rfl).2.1
  · rfl

theorem exponentLength?_eq {rest : List Char} (hrest : EndsNumber rest) :
    exponentLength? rest = some 0 := by
  cases rest with
  | nil => rfl
  | cons c cs =>
    obtain ⟨-, -, he, hE⟩ := hrest c rfl
    exact if_neg (not_or.mpr ⟨he, hE⟩)

/-- The digits of a number start with a zero only if that is the whole number. -/
theorem head?_toDigits (n : Nat) : (Nat.toDigits 10 n).head? = some '0' ↔ n = 0 := by
  -- The digits of a longer number start with the digits of its tenth.
  induction n using Nat.strongRecOn with
  | ind n ih =>
    by_cases hn : n < 10
    · simp [Nat.toDigits_of_lt_base hn]
    · rw [Nat.toDigits_of_base_le (by decide) (Nat.not_lt.mp hn),
        List.head?_append_of_ne_nil _ Nat.toDigits_ne_nil, ih _ (by omega)]
      omega

theorem isDigit_toDigits (n : Nat) : ∀ c ∈ Nat.toDigits 10 n, c.isDigit = true :=
  fun _ hc => Nat.isDigit_of_mem_toDigits (by decide) (by decide) hc

theorem integerLength?_toDigits (n : Nat) {rest : List Char} (hrest : EndsNumber rest) :
    integerLength? (Nat.toDigits 10 n ++ rest) = some (Nat.toDigits 10 n).length := by
  have hhead : (Nat.toDigits 10 n ++ rest).head? = some '0' ↔ n = 0 := by
    rw [List.head?_append_of_ne_nil _ Nat.toDigits_ne_nil, head?_toDigits]
  rw [integerLength?, digitCount_append (isDigit_toDigits n) hrest,
    if_neg (Nat.ne_of_gt Nat.length_toDigits_pos)]
  split
  · next h => rw [hhead.mp h]; rfl
  · rfl

theorem numberLength?_toDigits (n : Nat) {rest : List Char} (hrest : EndsNumber rest) :
    numberLength? (Nat.toDigits 10 n ++ rest) = some (Nat.toDigits 10 n).length := by
  have hsign : (Nat.toDigits 10 n ++ rest).head? ≠ some '-' := by
    rw [List.head?_append_of_ne_nil _ Nat.toDigits_ne_nil]
    intro h
    exact absurd (isDigit_toDigits n _ (List.mem_of_head? h)) (by decide)
  simp only [numberLength?, if_neg hsign, List.drop_zero, Nat.zero_add,
    integerLength?_toDigits n hrest, List.drop_left, fractionLength?_eq hrest,
    exponentLength?_eq hrest, Option.bind_eq_bind, Option.bind_some, Nat.add_zero]
  rfl

theorem isBlank_digit {c : Char} (hc : c.isDigit = true) : isBlank c = false := by
  refine Bool.eq_false_iff.mpr fun hblank => ?_
  rcases isBlank_iff.mp hblank with rfl | rfl | rfl | rfl <;> exact absurd hc (by decide)

theorem token?_digit {c : Char} (hc : c.isDigit = true) (cs : List Char) :
    token? c cs
      = (numberLength? (c :: cs)).map fun n => (.number ((c :: cs).take n), n - 1) := by
  unfold token?
  split
  case h_8 => exact if_pos (.inr hc)
  all_goals exact absurd hc (by decide)

/-- The digits of a number are read as one token. -/
theorem spells_number (n : Nat) :
    Spells (toString n).toList [.number (Nat.toDigits 10 n)] := by
  intro rest hrest
  have hlength := numberLength?_toDigits n hrest
  rw [Nat.toString_eq_ofList_toDigits, String.toList_ofList]
  cases hdigits : Nat.toDigits 10 n with
  | nil => exact absurd hdigits Nat.toDigits_ne_nil
  | cons c cs =>
    rw [hdigits] at hlength
    have hc : c.isDigit = true := isDigit_toDigits n c (hdigits ▸ List.mem_cons_self)
    have htoken : token? c (cs ++ rest) = some (.number (c :: cs), cs.length) := by
      rw [token?_digit hc, ← List.cons_append, hlength, Option.map_some, List.take_left]
      rfl
    rw [List.cons_append, tokens?_cons (isBlank_digit hc) htoken, List.drop_left]
    rfl

/-! ## Blocks

Texts are put together from left to right. A mark is a token of one character and never goes on
another, so it may stand behind any text, and blanks in front of a text change nothing. Both layouts
are blocks of this kind: one has no blanks at all, the other a line break and a margin.
-/

theorem spells_null : Spells "null".toList [.null] := by
  intro rest _
  have htoken : token? 'n' ('u' :: 'l' :: 'l' :: rest) = some (.null, 3) := by
    simp [token?, word?]
  exact tokens?_cons rfl htoken

theorem spells_bool (b : Bool) : Spells (toString b).toList [.bool b] := by
  intro rest _
  cases b with
  | false =>
    have htoken : token? 'f' ('a' :: 'l' :: 's' :: 'e' :: rest) = some (.bool false, 4) := by
      simp [token?, word?]
    exact tokens?_cons rfl htoken
  | true =>
    have htoken : token? 't' ('r' :: 'u' :: 'e' :: rest) = some (.bool true, 3) := by
      simp [token?, word?]
    exact tokens?_cons rfl htoken

theorem Spells.nil : Spells [] [] := by
  intro rest _
  cases h : tokens? rest <;> simp [h]

theorem Spells.append {first second : List Char} {ts us : List Token} (hfirst : Spells first ts)
    (hsecond : Spells second us) (hends : EndsNumber second) :
    Spells (first ++ second) (ts ++ us) := by
  intro rest hrest
  have hbehind : EndsNumber (second ++ rest) := by
    -- What follows the first text starts with the second, unless that is empty.
    cases second with
    | nil => exact hrest
    | cons c second => exact hends
  rw [List.append_assoc, hfirst _ hbehind, hsecond _ hrest, Option.map_map]
  simp only [Function.comp_def, List.append_assoc]

theorem Spells.blanks {gap text : List Char} {ts : List Token}
    (hgap : ∀ c ∈ gap, isBlank c = true) (h : Spells text ts) : Spells (gap ++ text) ts := by
  intro rest hrest
  rw [List.append_assoc, tokens?_blanks hgap, h rest hrest]

/-- A mark in front of a text, which never goes on a token before it. -/
theorem Spells.mark {c : Char} {t : Token} {text : List Char} {ts : List Token}
    (ht : ∀ cs, token? c cs = some (t, 0)) (hc : isBlank c = false) (h : Spells text ts) :
    Spells (c :: text) (t :: ts) := by
  intro rest hrest
  rw [List.cons_append, tokens?_cons hc (ht _), List.drop_zero, h rest hrest, Option.map_map]
  rfl

theorem endsNumber_cons {c : Char} {cs : List Char}
    (hc : c.isDigit = false ∧ c ≠ '.' ∧ c ≠ 'e' ∧ c ≠ 'E') : EndsNumber (c :: cs) := by
  intro d hd
  obtain rfl : c = d := by simpa using hd
  exact hc

/-- Texts with commas and blanks between them. -/
theorem spells_joined {gap : List Char} (hgap : ∀ c ∈ gap, isBlank c = true)
    {texts : List (List Char)} {tss : List (List Token)} (h : List.Forall₂ Spells texts tss) :
    Spells ((',' :: gap).intercalate texts) ([.comma].intercalate tss) := by
  induction h with
  | nil => exact .nil
  | cons hhead htail ih =>
    -- A comma stands in front of every text but the first, so the cases are one text and more.
    cases htail with
    | nil => simpa only [List.intercalate_singleton] using hhead
    | cons _ _ =>
      rw [List.intercalate_cons_cons, List.intercalate_cons_cons, List.append_assoc,
        List.append_assoc]
      exact hhead.append (.mark (fun _ => rfl) rfl (.blanks hgap ih)) (endsNumber_cons (by decide))

section Blocks

variable {gap margin : List Char} {texts : List (List Char)} {tss : List (List Token)}

/-- Texts between brackets, with blanks behind the opening bracket and every comma and in front of
the closing bracket. -/
theorem Spells.block {first last : Char} {t u : Token}
    (ht : ∀ cs, token? first cs = some (t, 0)) (hfirst : isBlank first = false)
    (hu : ∀ cs, token? last cs = some (u, 0)) (hlast : isBlank last = false)
    (hends : EndsNumber [last]) (hgap : ∀ c ∈ gap, isBlank c = true)
    (hmargin : ∀ c ∈ margin, isBlank c = true) (h : List.Forall₂ Spells texts tss) :
    Spells (first :: (gap ++ ((',' :: gap).intercalate texts ++ (margin ++ [last]))))
      (t :: ([.comma].intercalate tss ++ [u])) :=
  .mark ht hfirst (.blanks hgap ((spells_joined hgap h).append
    (.blanks hmargin (.mark hu hlast .nil)) (endsNumber_blanks hmargin hends)))

theorem Spells.array (hgap : ∀ c ∈ gap, isBlank c = true) (hmargin : ∀ c ∈ margin, isBlank c = true)
    (h : List.Forall₂ Spells texts tss) :
    Spells ('[' :: (gap ++ ((',' :: gap).intercalate texts ++ (margin ++ [']']))))
      (.openArray :: ([.comma].intercalate tss ++ [.closeArray])) :=
  .block (fun _ => rfl) rfl (fun _ => rfl) rfl (endsNumber_cons (by decide)) hgap hmargin h

theorem Spells.object (hgap : ∀ c ∈ gap, isBlank c = true)
    (hmargin : ∀ c ∈ margin, isBlank c = true) (h : List.Forall₂ Spells texts tss) :
    Spells ('\x7b' :: (gap ++ ((',' :: gap).intercalate texts ++ (margin ++ ['\x7d']))))
      (.openObject :: ([.comma].intercalate tss ++ [.closeObject])) :=
  .block (fun _ => rfl) rfl (fun _ => rfl) rfl (endsNumber_cons (by decide)) hgap hmargin h

/-- A member: its key, a colon with blanks behind it, and its value. -/
theorem Spells.member (hgap : ∀ c ∈ gap, isBlank c = true) (k : String) {text : List Char}
    {ts : List Token} (h : Spells text ts) :
    Spells ((Json.quote k).toList ++ ':' :: (gap ++ text)) (.string (some k) :: .colon :: ts) :=
  (spells_quote k).append (.mark (fun _ => rfl) rfl (.blanks hgap h)) (endsNumber_cons (by decide))

end Blocks

end Document

/-! ## The tokens of a value

The tokens do not tell the layouts apart.
-/

namespace Json

open Document

mutual

/-- The tokens of a value. -/
def tokens : Json → List Token
  | null => [.null]
  | bool b => [.bool b]
  | number n => [.number (Nat.toDigits 10 n)]
  | string s => [.string (some s)]
  | array vs => .openArray :: ([.comma].intercalate (elementTokens vs) ++ [.closeArray])
  | object ms => .openObject :: ([.comma].intercalate (memberTokens ms) ++ [.closeObject])

/-- The tokens of elements. -/
def elementTokens : List Json → List (List Token)
  | [] => []
  | v :: vs => tokens v :: elementTokens vs

/-- The tokens of members. -/
def memberTokens : List (String × Json) → List (List Token)
  | [] => []
  | (k, v) :: ms => ([.string (some k)] ++ .colon :: tokens v) :: memberTokens ms

end

mutual

theorem spells_compact : ∀ v : Json, Spells v.compact.toList v.tokens
  | null => spells_null
  | bool b => spells_bool b
  | number n => spells_number n
  | string s => spells_quote s
  | array vs => by
    have h := Spells.array (List.forall_mem_nil _) (List.forall_mem_nil _)
      (spells_compactElements vs)
    simpa [compact, tokens, String.toList_intercalate] using h
  | object ms => by
    have h := Spells.object (List.forall_mem_nil _) (List.forall_mem_nil _)
      (spells_compactMembers ms)
    simpa [compact, tokens, String.toList_intercalate] using h

theorem spells_compactElements : ∀ vs : List Json,
    List.Forall₂ Spells ((compactElements vs).map String.toList) (elementTokens vs)
  | [] => .nil
  | v :: vs => .cons (spells_compact v) (spells_compactElements vs)

theorem spells_compactMembers : ∀ ms : List (String × Json),
    List.Forall₂ Spells ((compactMembers ms).map String.toList) (memberTokens ms)
  | [] => .nil
  | (k, v) :: ms => by
    refine .cons ?_ (spells_compactMembers ms)
    simpa using Spells.member (List.forall_mem_nil _) k (spells_compact v)

end

/-! ## The layout with lines

A block without lines is only its brackets, and one with lines has a margin before each line and
before the closing bracket. Either is a block with some blanks.
-/

theorem isBlank_pushn (n : Nat) : ∀ c ∈ ("".pushn ' ' n).toList, isBlank c = true := by
  rw [String.pushn_eq_repeat_push]
  induction n with
  | zero => exact fun c hc => absurd hc List.not_mem_nil
  | succ n ih =>
    intro c hc
    have hpush : Nat.repeat (fun s => s.push ' ') (n + 1) ""
        = (Nat.repeat (fun s => s.push ' ') n "").push ' ' := rfl
    rw [hpush, String.toList_push, List.mem_append] at hc
    rcases hc with hc | hc
    · exact ih c hc
    · rw [List.mem_singleton.mp hc]
      rfl

theorem isBlank_margin (n : Nat) : ∀ c ∈ ("\n" ++ "".pushn ' ' n).toList, isBlank c = true := by
  intro c hc
  rw [String.toList_append, List.mem_append] at hc
  rcases hc with hc | hc
  · obtain rfl : c = '\n' := by simpa using hc
    rfl
  · exact isBlank_pushn n c hc

/-- Whether there are lines or not, a block is its texts with commas and blanks between. -/
theorem exists_block_eq (opening closing : String) (level : Nat) (lines : List String) :
    ∃ gap margin : List Char, (∀ c ∈ gap, isBlank c = true) ∧ (∀ c ∈ margin, isBlank c = true) ∧
      (block opening closing level lines).toList = opening.toList ++
        (gap ++ ((',' :: gap).intercalate (lines.map String.toList) ++
          (margin ++ closing.toList))) := by
  cases lines with
  | nil =>
    exact ⟨[], [], (List.forall_mem_nil _), (List.forall_mem_nil _), by simp [block]⟩
  | cons line lines =>
    exact ⟨_, _, isBlank_margin (2 * (level + 1)), isBlank_margin (2 * level),
      by simp [block, String.toList_intercalate]⟩

mutual

theorem spells_pretty : ∀ (v : Json) (level : Nat), Spells (v.pretty level).toList v.tokens
  | null, _ => spells_null
  | bool b, _ => spells_bool b
  | number n, _ => spells_number n
  | string s, _ => spells_quote s
  | array vs, level => by
    obtain ⟨gap, margin, hgap, hmargin, htext⟩ :=
      exists_block_eq "[" "]" level (prettyElements (level + 1) vs)
    rw [pretty, htext, tokens]
    exact .array hgap hmargin (spells_prettyElements vs (level + 1))
  | object ms, level => by
    obtain ⟨gap, margin, hgap, hmargin, htext⟩ :=
      exists_block_eq "\x7b" "\x7d" level (prettyMembers (level + 1) ms)
    rw [pretty, htext, tokens]
    exact .object hgap hmargin (spells_prettyMembers ms (level + 1))

theorem spells_prettyElements : ∀ (vs : List Json) (level : Nat),
    List.Forall₂ Spells ((prettyElements level vs).map String.toList) (elementTokens vs)
  | [], _ => .nil
  | v :: vs, level => .cons (spells_pretty v level) (spells_prettyElements vs level)

theorem spells_prettyMembers : ∀ (ms : List (String × Json)) (level : Nat),
    List.Forall₂ Spells ((prettyMembers level ms).map String.toList) (memberTokens ms)
  | [], _ => .nil
  | (k, v) :: ms, level => by
    refine .cons ?_ (spells_prettyMembers ms level)
    have hgap : ∀ c ∈ [' '], isBlank c = true := List.forall_mem_singleton.mpr rfl
    simpa using Spells.member hgap k (spells_pretty v level)

end

/-! ## The document of a value

The machine that reads values keeps the containers that are still open, the parts that it has read
in reverse. After the tokens of a value it stands where it would if it had been given the value
itself, whatever containers are around; that is what goes through the induction over values. The
parts of a container that are still to come start with a comma each, which is how the induction over
them meets the machine: it has just read one part.
-/

mutual

/-- A value as a document. -/
def document : Json → Document
  | null => .null
  | bool b => .bool b
  | number n => .number (Nat.toDigits 10 n)
  | string s => .string (some s)
  | array vs => .array (elementDocuments vs)
  | object ms => .object (memberDocuments ms)

/-- Elements as documents. -/
def elementDocuments : List Json → List Document
  | [] => []
  | v :: vs => document v :: elementDocuments vs

/-- Members as they stand in a document. -/
def memberDocuments : List (String × Json) → List (Option String × Document)
  | [] => []
  | (k, v) :: ms => (some k, document v) :: memberDocuments ms

end

/-- A value does not start by closing an array, so an array with an element is not empty. -/
theorem value?_openArray (v : Json) (open? : List Container) (ts : List Token) :
    value? open? (.openArray :: (v.tokens ++ ts))
      = value? (.array [] :: open?) (v.tokens ++ ts) := by
  cases v <;> rw [tokens] <;> rfl

theorem intercalate_cons_eq_flatMap {α : Type} (x : α) (xs : List α) (xss : List (List α)) :
    [x].intercalate (xs :: xss) = xs ++ xss.flatMap (x :: ·) := by
  induction xss generalizing xs with
  | nil => simp
  | cons ys xss ih => rw [List.intercalate_cons_cons, ih ys, List.flatMap_cons]; simp

mutual

/-- Reading the tokens of a value gives its document to the containers around it. -/
theorem value?_tokens : ∀ (v : Json) (open? : List Container) (ts : List Token),
    value? open? (v.tokens ++ ts) = resume? v.document open? ts
  | null, open?, ts => rfl
  | bool b, open?, ts => rfl
  | number n, open?, ts => rfl
  | string s, open?, ts => rfl
  | array [], open?, ts => rfl
  | array (v :: vs), open?, ts => by
    rw [tokens, elementTokens, intercalate_cons_eq_flatMap, List.cons_append, List.append_assoc,
      List.append_assoc, value?_openArray, value?_tokens v]
    exact resume?_elements vs v.document [] open? ts
  | object [], open?, ts => rfl
  | object ((k, v) :: ms), open?, ts => by
    rw [tokens, memberTokens, intercalate_cons_eq_flatMap, List.cons_append, List.append_assoc,
      List.append_assoc]
    exact (value?_tokens v _ _).trans (resume?_members ms k v.document [] open? ts)

theorem resume?_elements : ∀ (vs : List Json) (d : Document) (read : List Document)
    (open? : List Container) (ts : List Token),
    resume? d (.array read :: open?)
        ((elementTokens vs).flatMap (.comma :: ·) ++ ([.closeArray] ++ ts))
      = resume? (.array (read.reverse ++ d :: elementDocuments vs)) open? ts
  | [], d, read, open?, ts => by
    rw [elementDocuments, ← List.reverse_cons]
    rfl
  | v :: vs, d, read, open?, ts => by
    have h := resume?_elements vs v.document (d :: read) open? ts
    rw [List.reverse_cons, List.append_assoc] at h
    rw [elementTokens, List.flatMap_cons, List.append_assoc, List.cons_append]
    exact (value?_tokens v _ _).trans h

theorem resume?_members : ∀ (ms : List (String × Json)) (k : String) (d : Document)
    (read : List (Option String × Document)) (open? : List Container) (ts : List Token),
    resume? d (.object read (some k) :: open?)
        ((memberTokens ms).flatMap (.comma :: ·) ++ ([.closeObject] ++ ts))
      = resume? (.object (read.reverse ++ (some k, d) :: memberDocuments ms)) open? ts
  | [], k, d, read, open?, ts => by
    rw [memberDocuments, ← List.reverse_cons]
    rfl
  | (l, v) :: ms, k, d, read, open?, ts => by
    have h := resume?_members ms l v.document ((some k, d) :: read) open? ts
    rw [List.reverse_cons, List.append_assoc] at h
    rw [memberTokens, List.flatMap_cons, List.append_assoc, List.cons_append]
    exact (value?_tokens v _ _).trans h

end

end Json

/-! ## Whole texts

Nothing is open at the start and nothing is left at the end.
-/

/-- A text that is read as the tokens of a value is the text of its document. -/
theorem Document.parse?_eq_some {text : String} {v : Json} (h : Spells text.toList v.tokens) :
    parse? text = some v.document := by
  have htokens := h [] (fun _ hc => nomatch hc)
  have hvalue := v.value?_tokens [] []
  rw [List.append_nil] at htokens hvalue
  rw [parse?, htokens, tokens?, Option.map_some, Option.bind_some, List.append_nil, hvalue]
  rfl

theorem Document.parse?_compact (v : Json) : parse? v.compact = some v.document :=
  parse?_eq_some v.spells_compact

theorem Document.parse?_pretty (v : Json) (level : Nat) :
    parse? (v.pretty level) = some v.document :=
  parse?_eq_some (v.spells_pretty level)

theorem Document.parse?_line (v : Json) (level : Nat) :
    parse? (v.pretty level ++ "\n") = some v.document := by
  have hblank : ∀ c ∈ ['\n'], isBlank c = true := List.forall_mem_singleton.mpr rfl
  have hbreak : Spells ("\n".toList ++ []) [] := .blanks hblank .nil
  have h := (v.spells_pretty level).append hbreak (endsNumber_cons (by decide))
  rw [List.append_nil, List.append_nil, ← String.toList_append] at h
  exact parse?_eq_some h

/-- The JSON that the command line prints for a menu, its line break included, reads back as the
menu. -/
theorem Command.parse?_runMenu (settings : Settings) (trees : List Tree) :
    Document.parse? (runMenu settings true trees).stdout
      = some (menuToJson (Menu.build settings.menu settings.walk .store trees {}).1).document :=
  Document.parse?_line _ 0

/-! ## Settings

A setting is written as a number, a text or a truth value, and each is read back by the reading
that the setting has.
-/

theorem Document.toNat?_toDigits {n max : Nat} (hn : n ≤ max) :
    toNat? max (.number (Nat.toDigits 10 n)) = some n := by
  have hall : (Nat.toDigits 10 n).all Char.isDigit = true :=
    List.all_eq_true.mpr (isDigit_toDigits n)
  have hvalue : (Nat.toDigits 10 n).foldl (fun n c => 10 * n + (c.toNat - '0'.toNat)) 0 = n :=
    Nat.ofDigitChars_ten_toDigits
  rw [toNat?, if_pos hall, hvalue, if_pos hn]

theorem Document.toUInt16?_toDigits (w : UInt16) :
    toUInt16? (.number (Nat.toDigits 10 w.toNat)) = some w := by
  rw [toUInt16?, toNat?_toDigits (Nat.le_of_lt_succ w.toNat_lt), Option.map_some,
    UInt16.ofNat_toNat]

theorem Limits.ofDocument?_toJson (l : Limits) (hdepth : l.maxDepth ≤ 0xffffffffffffffff) :
    Limits.ofDocument? l.toJson.document = some l := by
  have hfields : l.toJson.document.fields? ["max_default_len", "max_depth"]
      = some [some (.number (Nat.toDigits 10 l.maxDefaultLength.toNat)),
        some (.number (Nat.toDigits 10 l.maxDepth))] := rfl
  have hlength : l.maxDefaultLength.toNat ≤ 0xffffffff :=
    Nat.le_of_lt_succ l.maxDefaultLength.toNat_lt
  simp only [Limits.ofDocument?, hfields, Document.orElse?, Document.toNat?_toDigits hlength,
    Document.toNat?_toDigits hdepth, Option.bind_eq_bind, Option.bind_some, UInt32.ofNat_toNat]
  rfl

theorem Menu.Settings.ofDocument?_toJson (s : Menu.Settings) :
    Menu.Settings.ofDocument? s.toJson.document = some s := by
  have hfields : s.toJson.document.fields? ["component_start", "component_end", "invalid_string",
      "reset_required", "tree_separator"]
      = some [some (.number (Nat.toDigits 10 s.componentStart.toNat)),
        some (.number (Nat.toDigits 10 s.componentEnd.toNat)),
        some (.string (some s.invalidString)), some (.bool s.resetRequired),
        some (.bool s.treeSeparator)] := rfl
  simp only [Menu.Settings.ofDocument?, hfields, Document.orElse?, Document.toUInt16?_toDigits,
    Document.toText?, Document.toBool?, Option.bind_eq_bind, Option.bind_some]
  rfl

/-- A settings file that holds written settings is read as those settings. The depth is a machine
word in the file. -/
theorem Settings.ofText?_toJson (s : Settings) (hdepth : s.walk.maxDepth ≤ 0xffffffffffffffff)
    (level : Nat) :
    Settings.ofText? ((Json.object [("walk", s.walk.toJson), ("menu", s.menu.toJson)]).pretty level)
      = some s := by
  have hfields : (Json.object [("walk", s.walk.toJson), ("menu", s.menu.toJson)]).document.fields?
      ["walk", "menu"] = some [some s.walk.toJson.document, some s.menu.toJson.document] := rfl
  rw [Settings.ofText?, Document.parse?_pretty, Option.bind_some, Settings.ofDocument?, hfields]
  simp only [Document.orElse?, Limits.ofDocument?_toJson s.walk hdepth,
    Menu.Settings.ofDocument?_toJson, Option.bind_eq_bind, Option.bind_some]
  rfl

end SetupForms
