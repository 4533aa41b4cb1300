import SetupForms.Proofs.WireOutline

/-!
# What blueprints write

A blueprint is well formed if it overrides nothing and gives every record the fields of its kind.
What such a blueprint writes is a spelling of the node it describes, `Blueprint.node`, in which all
offsets and sizes are those of the written bytes (`Blueprint.spells_encode`).

A blueprint says what is to be written and may say it wrongly, with sizes and tags of its own
choice. Well formed are those that leave this to the writer. For them the description of what is
written has to follow the writer in one thing only, the places: each part stands where the parts in
front of it end.
-/

namespace SetupForms

open Text

/-- A numeric option is neither a comment nor a text option. -/
theorem NumericKind.kind_ne (k : NumericKind) : k.kind ≠ .comment ∧ k.kind ≠ .varchar := by
  cases k <;> decide

/-! ## Texts that are closed by a NUL

A text is written with a NUL behind it and read up to the first one. No byte of a text without NUL
is zero, so that reading stops at the right one.
-/

namespace Text.Utf8

/-- A text is encoded character by character. -/
theorem encode_eq_flatMap (s : String) : encode s = s.toList.flatMap String.utf8EncodeChar := by
  unfold encode String.toUTF8
  rw [← String.utf8Encode_toList]
  simp [List.utf8Encode]

/-- No character but NUL is written with a zero. -/
theorem ne_zero_of_mem_utf8EncodeChar {c : Char} (hc : c ≠ '\x00') :
    ∀ b ∈ String.utf8EncodeChar c, b ≠ 0 := by
  have hpos : 0 < c.val.toNat := by
    apply Nat.pos_of_ne_zero
    intro h
    exact hc (Char.ext (UInt32.toNat_inj.mp h))
  have hbyte : ∀ n, 0 < n → n < 256 → UInt8.ofNat n ≠ 0 := by
    intro n hn hlt h
    have hnat := congrArg UInt8.toNat h
    rw [UInt8.toNat_ofNat', Nat.mod_eq_of_lt hlt] at hnat
    exact absurd hnat (Nat.ne_of_gt hn)
  fun_cases String.utf8EncodeChar c <;>
    simp only [List.mem_cons, List.not_mem_nil, or_false, forall_eq_or_imp, forall_eq] <;>
    refine_lift ?_
  all_goals repeat' apply And.intro
  all_goals exact hbyte _ (by omega) (by omega)

/-- A text without a NUL is written without zero bytes. -/
theorem ne_zero_of_mem_encode {s : String} (hs : '\x00' ∉ s.toList) : ∀ b ∈ encode s, b ≠ 0 := by
  intro b hb
  rw [encode_eq_flatMap] at hb
  obtain ⟨c, hc, hb⟩ := List.mem_flatMap.mp hb
  exact ne_zero_of_mem_utf8EncodeChar (fun h => hs (h ▸ hc)) b hb

/-- A text that is closed by a NUL is read back up to its first NUL. -/
theorem untilNul_encode (s : String) :
    Field.untilNul (encode s ++ [0]) =
      encode (String.ofList (s.toList.takeWhile (· ≠ '\x00'))) := by
  rw [encode_eq_flatMap, encode_eq_flatMap, String.toList_ofList, Field.untilNul]
  induction s.toList with
  | nil => rfl
  | cons c cs ih =>
    by_cases hc : c = '\x00'
    · rw [hc, List.takeWhile_cons_of_neg (by decide)]
      rfl
    · rw [List.takeWhile_cons_of_pos (by simpa using hc), List.flatMap_cons, List.flatMap_cons,
        List.append_assoc, List.takeWhile_append_of_pos, ih]
      intro b hb
      simpa using ne_zero_of_mem_utf8EncodeChar hc b hb

end Text.Utf8

namespace Blueprint

variable {limits : Limits} {kind : Kind} {offset : Nat}

theorem toNat_wireLength {n : Nat} (h : n < 0x100000000) : (wireLength n).toNat = n := by
  rw [wireLength, if_pos h]
  exact UInt32.toNat_ofNat_of_lt' h

theorem isRecord_frame {tag : UInt32} {body : List UInt8}
    (hl : (frame tag none body).length < 0x100000000) :
    IsRecord tag (wireLength (frame tag none body).length) body (frame tag none body) := by
  refine ⟨?_, toNat_wireLength hl⟩
  rw [length_frame]
  rfl

/-! ## Fields

A field is a record with a length of its own, behind which there may be padding. It says a text if
its payload up to the first NUL is one.
-/

namespace FieldSpec

/-- The text of the payload up to its first NUL, if it is one. -/
def words? (f : FieldSpec) : Option String := Utf8.decode? (Field.untilNul f.payload)

/-- A field of a kind that declares its own length. -/
structure Plain (kind : Kind) (f : FieldSpec) : Prop where
  /-- the tag is that of the kind -/
  tag : f.tag = kind.tag
  /-- there is no override -/
  dataLength : f.dataLength = none

/-- A plain field whose payload is a text. -/
structure Says (kind : Kind) (f : FieldSpec) : Prop extends Plain kind f where
  /-- the payload is a text up to its first NUL -/
  decodes : f.words?.isSome

/-- The field that is read back at `offset`. -/
def field (offset : Nat) (f : FieldSpec) : Field where
  tag := f.tag
  offset := offset
  size := wireLength f.encode.length
  dataLength := wireLength f.payload.length
  data := f.payload

theorem length_payload_le (f : FieldSpec) : f.payload.length ≤ f.encode.length := by
  rw [encode, length_frame, List.length_append, List.length_append]
  omega

/-- A field that declares its own length is read back with its payload. -/
theorem spells_field {f : FieldSpec} (hf : f.dataLength = none)
    (hl : f.encode.length < 0x100000000) : (f.field offset).Spells f.encode := by
  have hle := f.length_payload_le
  have he : f.encode = frame f.tag none (Bytes.ofUInt32 (wireLength f.payload.length) ++
      f.payload ++ List.replicate f.padding 0) := by
    rw [encode, hf]
    rfl
  refine ⟨toNat_wireLength (by omega), List.replicate f.padding 0, ?_⟩
  show IsRecord f.tag (wireLength f.encode.length) _ _
  rw [he] at hl ⊢
  exact isRecord_frame hl

/-- A field without overrides is spelled. -/
theorem Plain.spells {f : FieldSpec} (hf : f.Plain kind) (hl : f.encode.length < 0x100000000) :
    (f.field offset).Spells f.encode :=
  spells_field hf.dataLength hl

/-- The text that is read back. -/
def words (f : FieldSpec) : String := f.words?.getD ""

/-- A field that says a text is read as that text. -/
theorem Says.isText {f : FieldSpec} (hf : f.Says kind) (hl : f.encode.length < 0x100000000) :
    Field.IsText kind.tag f.words f.encode := by
  obtain ⟨s, hs⟩ := Option.isSome_iff_exists.mp hf.decodes
  refine ⟨f.field 0, hf.tag, ?_, hf.toPlain.spells hl⟩
  show Field.untilNul f.payload = Utf8.encode (f.words?.getD "")
  rw [hs]
  exact (Utf8.decode?_eq_some_iff.mp hs).symm

/-- A mandatory field is there and says something. -/
def Given (kind : Kind) (f : Option FieldSpec) : Prop := ∃ g, f = some g ∧ g.Says kind

/-- A field that is given says a text. -/
theorem Given.isText {f : Option FieldSpec} (hf : Given kind f)
    (hl : (encodeField? f).length < 0x100000000) :
    Field.IsText kind.tag ((f.map words).getD "") (encodeField? f) := by
  obtain ⟨g, rfl, hg⟩ := hf
  exact hg.isText hl

/-- A field that may be missing says a text or is not there. -/
theorem isOptionalText {f : Option FieldSpec} (hf : ∀ g, f = some g → g.Says kind)
    (hl : (encodeField? f).length < 0x100000000) :
    Field.IsOptionalText kind.tag (f.map words) (encodeField? f) := by
  cases f with
  | none => rfl
  | some g => exact (hf g rfl).isText hl

/-! ### What a field says

`words` is stated with the reader's own functions. What they find is fixed by the payload alone: a
payload that is the UTF-8 form of a text without a NUL, up to its end or to its first zero byte, is
read as this text. Whatever follows the zero byte may be any bytes at all.
-/

/-- The payload is a text without a NUL, and behind it there is nothing or a zero byte. -/
structure Carries (f : FieldSpec) (s : String) : Prop where
  /-- the text has no NUL of its own -/
  nul_not_mem : '\x00' ∉ s.toList
  /-- its bytes stand at the front of the payload, closed by a zero byte or by the end -/
  payload : ∃ rest, f.payload = Utf8.encode s ++ rest ∧ ∀ b ∈ rest.head?, b = 0

/-- A field is read back as the text that it carries. -/
theorem Carries.words_eq {f : FieldSpec} {s : String} (h : f.Carries s) : f.words = s := by
  obtain ⟨hnul, rest, hpayload, hrest⟩ := h
  have htext : ∀ b ∈ Utf8.encode s, (b != 0) = true := fun b hb =>
    bne_iff_ne.mpr (Utf8.ne_zero_of_mem_encode hnul b hb)
  have hclosed : rest.takeWhile (· != 0) = [] := by
    cases rest with
    | nil => rfl
    | cons b rest =>
      obtain rfl := hrest b rfl
      rfl
  have huntil : Field.untilNul f.payload = Utf8.encode s := by
    rw [hpayload, Field.untilNul, List.takeWhile_append_of_pos htext, hclosed, List.append_nil]
  rw [words, words?, huntil, Utf8.decode?_encode]
  rfl

/-- A field that is made of a text without a NUL carries it. -/
theorem carries_text {s : String} (hs : '\x00' ∉ s.toList) : (text kind s).Carries s :=
  ⟨hs, [0], rfl, fun _ hb => (Option.some.inj hb).symm⟩

/-- A field that is made of a text says it, up to its first NUL. -/
theorem words?_text (kind : Kind) (s : String) :
    (text kind s).words? = some (String.ofList (s.toList.takeWhile (· ≠ '\x00'))) := by
  rw [words?, text, Utf8.untilNul_encode, Utf8.decode?_encode]

theorem says_text (kind : Kind) (s : String) : (text kind s).Says kind :=
  ⟨⟨rfl, rfl⟩, by rw [words?_text]; rfl⟩

theorem given_text (kind : Kind) (s : String) : Given kind (some (text kind s)) :=
  ⟨_, rfl, says_text kind s⟩

end FieldSpec

/-! ## Options

The fields of an option come in the order in which they are read, and an option of an enum goes on
with its values.
-/

namespace ValueSpec

/-- An enum value that overrides nothing and has a label. -/
structure WellFormed (v : ValueSpec) : Prop where
  /-- there is no override -/
  size : v.size = none
  /-- the label is there -/
  label : FieldSpec.Given .label v.label

/-- The value that is read back at `offset`. -/
def enumValue (offset : Nat) (v : ValueSpec) : EnumValue :=
  ⟨offset, v.value, (v.label.map FieldSpec.words).getD ""⟩

/-- The values that are read back one after the other, the first of them at `cursor`. -/
def valuesAt : Nat → List ValueSpec → List EnumValue
  | _, [] => []
  | cursor, v :: vs => v.enumValue cursor :: valuesAt (cursor + v.encode.length) vs

theorem WellFormed.spells {v : ValueSpec} (hv : v.WellFormed) (hl : v.encode.length < 0x100000000) :
    (v.enumValue offset).Spells v.encode := by
  have he : v.encode = frame Kind.enumValue.tag none
      (Bytes.ofUInt32 v.value ++ encodeField? v.label) := by
    rw [encode, hv.size]
  rw [he] at hl ⊢
  refine ⟨_, encodeField? v.label, hv.label.isText ?_, isRecord_frame hl⟩
  rw [length_frame, List.length_append] at hl
  omega

/-- The values are spelled one behind the other. -/
theorem spellAll_valuesAt {cursor : Nat} {vs : List ValueSpec} (hv : ∀ v ∈ vs, v.WellFormed)
    (hl : (vs.flatMap encode).length < 0x100000000) :
    EnumValue.SpellAll cursor (valuesAt cursor vs) (vs.flatMap encode) := by
  induction vs generalizing cursor with
  | nil => rfl
  | cons v vs ih =>
    rw [List.flatMap_cons, List.length_append] at hl
    exact ⟨v.encode, vs.flatMap encode, List.flatMap_cons, rfl,
      (hv v List.mem_cons_self).spells (by omega),
      ih (fun v hm => hv v (List.mem_cons_of_mem _ hm)) (by omega)⟩

end ValueSpec

namespace OptionSpec

/-- An option that overrides nothing and has the fields of its kind: a name unless it is a comment,
a label, perhaps a help text, a default field only if it is a text option, and values only if it is
an enum. -/
structure WellFormed (limits : Limits) (o : OptionSpec) : Prop where
  /-- the record is an option or comment -/
  kind : o.kind.isNumeric || o.kind.isText
  /-- there is no override -/
  size : o.size = none
  /-- all but comments have a name -/
  name : if o.kind = .comment then o.name = none else FieldSpec.Given .optionName o.name
  /-- the label is there -/
  label : FieldSpec.Given .label o.label
  /-- the help text is one, if it is there -/
  help : ∀ g, o.help = some g → g.Says .help
  /-- text options have a default that the limits allow -/
  defaultField : if o.kind = .varchar then
      ∃ g, o.defaultField = some g ∧ g.Plain .defaultValue ∧
        g.payload.length ≤ limits.maxDefaultLength.toNat
    else o.defaultField = none
  /-- enums have labelled values -/
  values : if o.kind = .enum then ∀ v ∈ o.values, v.WellFormed else o.values = []

variable {o : OptionSpec}

/-- The numeric option that is read back at `offset`. -/
def numericAt (offset : Nat) (kind : NumericKind) (o : OptionSpec) : NumericOption where
  offset := offset
  size := wireLength o.encode.length
  kind := kind
  fields := o.fields
  default := o.default
  name := (o.name.map FieldSpec.words).getD ""
  label := (o.label.map FieldSpec.words).getD ""
  help := o.help.map FieldSpec.words
  values := ValueSpec.valuesAt (offset + Layout.numericLength + (encodeField? o.name).length +
    (encodeField? o.label).length + (encodeField? o.help).length) o.values

/-- The text option that is read back at `offset`. -/
def textAt (offset : Nat) (kind : TextKind) (o : OptionSpec) : TextOption where
  offset := offset
  size := wireLength o.encode.length
  kind := kind
  fields := o.fields
  default := o.defaultField.map (FieldSpec.field (offset + Layout.textLength))
  name := o.name.map FieldSpec.words
  label := (o.label.map FieldSpec.words).getD ""
  help := o.help.map FieldSpec.words

/-- The node that is read back at `offset`. -/
def node (offset : Nat) (o : OptionSpec) : Node :=
  match o.kind with
  | .enum => .numeric (o.numericAt offset .enum)
  | .number => .numeric (o.numericAt offset .number)
  | .bool => .numeric (o.numericAt offset .bool)
  | .varchar => .text (o.textAt offset .varchar)
  | .comment => .text (o.textAt offset .comment)
  | kind => .unrecognized offset kind.tag

theorem WellFormed.spells_numeric {kind : NumericKind} (ho : o.WellFormed limits)
    (hk : o.kind = kind.kind) (hl : o.encode.length < 0x100000000) :
    (o.numericAt offset kind).Spells o.encode := by
  have hname := ho.name
  have hdef := ho.defaultField
  have hvalues := ho.values
  have hnum : o.kind.isNumeric = true := by
    rw [hk]
    cases kind <;> rfl
  rw [hk, if_neg kind.kind_ne.1] at hname
  rw [hk, if_neg kind.kind_ne.2] at hdef
  -- without a default field the body has just the parts of a numeric option
  have he : o.encode = frame kind.kind.tag none (encodeFields o.fields ++
      Bytes.ofUInt32 o.default ++ encodeField? o.name ++ encodeField? o.label ++
      encodeField? o.help ++ o.values.flatMap ValueSpec.encode) := by
    rw [encode, body, ho.size, hdef, if_pos hnum, hk]
    simp only [encodeField?, Option.map_none, Option.getD_none, List.append_nil]
  have hlen := hl
  rw [he, length_frame] at hlen
  simp only [List.length_append] at hlen
  have hw : ∀ v ∈ o.values, v.WellFormed := by
    split at hvalues
    · exact hvalues
    · rw [hvalues]
      nofun
  refine ⟨_, _, _, _, hname.isText (by omega), ho.label.isText (by omega),
    FieldSpec.isOptionalText ho.help (by omega), ValueSpec.spellAll_valuesAt hw (by omega),
    fun hne => ?_, ?_⟩
  · rw [hk, if_neg (by cases kind <;> first | decide | exact absurd rfl hne)] at hvalues
    show ValueSpec.valuesAt _ o.values = []
    rw [hvalues]
    rfl
  · simp only [numericAt]
    rw [he] at hl ⊢
    exact isRecord_frame hl

/-- What a text option has in front of its label. -/
theorem WellFormed.spellsValue {kind : TextKind} (ho : o.WellFormed limits)
    (hk : o.kind = kind.kind)
    (hl : (encodeField? o.defaultField).length + (encodeField? o.name).length < 0x100000000) :
    (o.textAt offset kind).SpellsValue limits
      (encodeField? o.defaultField ++ encodeField? o.name) := by
  have hname := ho.name
  have hdef := ho.defaultField
  cases kind with
  | varchar =>
    -- a text has a default and then a name, both of them required
    replace hk : o.kind = .varchar := hk
    rw [if_neg (by rw [hk]; decide)] at hname
    rw [if_pos hk] at hdef
    obtain ⟨g, hg, hplain, hle⟩ := hdef
    obtain ⟨n, hn, hsays⟩ := hname
    have hpayload := g.length_payload_le
    rw [hg, hn] at hl
    simp only [encodeField?, Option.map_some, Option.getD_some] at hl
    have hlen : wireLength g.payload.length ≤ limits.maxDefaultLength := by
      rw [UInt32.le_iff_toNat_le, toNat_wireLength (by omega)]
      exact hle
    simp only [TextOption.SpellsValue, textAt, hg, hn, Option.map_some]
    exact ⟨g.encode, n.encode, rfl, rfl, hplain.tag, hlen, hplain.spells (by omega),
      hsays.isText (by omega)⟩
  | comment =>
    -- a comment has neither
    replace hk : o.kind = .comment := hk
    rw [if_pos hk] at hname
    rw [if_neg (by rw [hk]; decide)] at hdef
    simp only [TextOption.SpellsValue, textAt, hname, hdef, Option.map_none]
    rfl

theorem WellFormed.spells_text {kind : TextKind} (ho : o.WellFormed limits)
    (hk : o.kind = kind.kind) (hl : o.encode.length < 0x100000000) :
    (o.textAt offset kind).Spells limits o.encode := by
  have hvalues := ho.values
  have hnum : ¬o.kind.isNumeric = true := by
    rw [hk]
    cases kind <;> decide
  rw [if_neg (by rw [hk]; cases kind <;> decide)] at hvalues
  -- without values the body has just the parts of a text option
  have he : o.encode = frame kind.kind.tag none (encodeFields o.fields ++
      (encodeField? o.defaultField ++ encodeField? o.name) ++ encodeField? o.label ++
      encodeField? o.help) := by
    rw [encode, body, ho.size, hvalues, if_neg hnum, hk]
    simp only [List.flatMap_nil, List.append_nil, List.append_assoc]
  have hlen := hl
  rw [he, length_frame] at hlen
  simp only [List.length_append] at hlen
  refine ⟨_, _, _, ho.spellsValue hk (by omega), ho.label.isText (by omega),
    FieldSpec.isOptionalText ho.help (by omega), ?_⟩
  simp only [textAt]
  rw [he] at hl ⊢
  exact isRecord_frame hl

theorem offset_node : (o.node offset).offset = offset := by
  unfold node
  split <;> rfl

theorem WellFormed.spells {depth : Nat} (ho : o.WellFormed limits)
    (hl : o.encode.length < 0x100000000) : (o.node offset).Spells limits depth o.encode := by
  have hkind := ho.kind
  unfold node
  cases hk : o.kind with
  | enum => exact ho.spells_numeric (show o.kind = NumericKind.enum.kind from hk) hl
  | number => exact ho.spells_numeric (show o.kind = NumericKind.number.kind from hk) hl
  | bool => exact ho.spells_numeric (show o.kind = NumericKind.bool.kind from hk) hl
  | varchar => exact ho.spells_text (show o.kind = TextKind.varchar.kind from hk) hl
  | comment => exact ho.spells_text (show o.kind = TextKind.comment.kind from hk) hl
  | form | enumValue | optionName | label | help | defaultValue =>
    rw [hk] at hkind
    exact absurd hkind (by decide)

end OptionSpec

/-! ## Forms

A form is described around what it holds, so that the descriptions go along the blueprint. The
induction is on the blueprint and, inside of it, on the rows of what the forms hold.
-/

mutual

/-- Nothing is overridden or verbatim, every record has the fields of its kind, and no form stands
deeper than the limits allow. -/
def WellFormed (limits : Limits) (depth : Nat) : Blueprint → Prop
  | form _ label children size =>
    depth ≤ limits.maxDepth ∧ size = none ∧ FieldSpec.Given .label label ∧
      WellFormedAll limits (depth + 1) children
  | option o => o.WellFormed limits
  | verbatim _ => False

/-- All of some blueprints are well formed. -/
def WellFormedAll (limits : Limits) (depth : Nat) : List Blueprint → Prop
  | [] => True
  | b :: bs => WellFormed limits depth b ∧ WellFormedAll limits depth bs

end

/-- The form that is read back at `offset`, if it is `length` bytes long. -/
def formAt (depth offset length : Nat) (fields : CommonFields) (label : Option FieldSpec) :
    Form where
  offset := offset
  size := wireLength length
  fields := fields
  name := (label.map FieldSpec.words).getD ""
  depth := depth
  childrenStart := offset + Layout.formLength + (encodeField? label).length
  stop := offset + length

mutual

/-- The node that is read back at `offset`. Verbatim bytes are not described. -/
def node (depth offset : Nat) : Blueprint → Node
  | form fields label children size =>
    .form (formAt depth offset (encode (form fields label children size)).length fields label)
      (nodes (depth + 1) (offset + Layout.formLength + (encodeField? label).length) children)
  | option o => o.node offset
  | verbatim _ => .unrecognized offset 0

/-- The nodes that are read back one after the other, the first of them at `cursor`. -/
def nodes (depth cursor : Nat) : List Blueprint → List Node
  | [] => []
  | b :: bs => node depth cursor b :: nodes depth (cursor + (encode b).length) bs

end

/-- A form is spelled around what its children write. -/
theorem spellsAround_formAt {fields : CommonFields} {label : Option FieldSpec}
    {children : List Blueprint} {depth : Nat} (hlabel : FieldSpec.Given .label label)
    (hl : (encode (form fields label children none)).length < 0x100000000) :
    (formAt depth offset (encode (form fields label children none)).length fields
      label).SpellsAround (encodeAll children) (encode (form fields label children none)) := by
  have hlen := hl
  rw [encode, length_frame] at hlen
  simp only [List.length_append] at hlen
  refine ⟨_, hlabel.isText (by omega), ?_, rfl, rfl⟩
  simp only [formAt]
  rw [encode] at hl ⊢
  exact isRecord_frame hl

theorem offset_node {depth : Nat} (b : Blueprint) : (b.node depth offset).offset = offset := by
  cases b with
  | form fields label children size => rfl
  | option o => exact OptionSpec.offset_node
  | verbatim bytes => rfl

mutual

/-- **Spelling.** What a well-formed blueprint writes spells its node. -/
theorem spells_encode : ∀ {b : Blueprint} {depth offset : Nat}, b.WellFormed limits depth →
    b.encode.length < 0x100000000 → (b.node depth offset).Spells limits depth b.encode
  | form fields label children size, depth, offset, ⟨hdepth, hsize, hlabel, hchildren⟩, hl => by
    obtain rfl := hsize
    have hlen := hl
    rw [encode, length_frame] at hlen
    simp only [List.length_append] at hlen
    exact ⟨rfl, hdepth, _, spellAll_encodeAll hchildren (by omega), spellsAround_formAt hlabel hl⟩
  | option o, _, _, ho, hl => OptionSpec.WellFormed.spells ho hl

/-- What well-formed blueprints write spells their nodes. -/
theorem spellAll_encodeAll : ∀ {bs : List Blueprint} {depth cursor : Nat},
    WellFormedAll limits depth bs → (encodeAll bs).length < 0x100000000 →
    Node.SpellAll limits depth cursor (nodes depth cursor bs) (encodeAll bs)
  | [], _, _, _, _ => rfl
  | b :: bs, _, _, ⟨hb, hbs⟩, hl => by
    rw [encodeAll, List.length_append] at hl
    exact ⟨encode b, encodeAll bs, rfl, offset_node b, spells_encode hb (by omega),
      spellAll_encodeAll hbs (by omega)⟩

end

end Blueprint

end SetupForms
