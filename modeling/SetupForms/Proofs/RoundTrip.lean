import SetupForms.Proofs.WireBlueprint

/-!
# Reading back what blueprints write

A form that is written from a well-formed blueprint makes a tree that ends with the written bytes,
and a walk through it calls back for exactly what the blueprint describes (`walk_encode`). The
induction over the blueprint is `spells_encode`: the written bytes spell the node that the blueprint
describes, from which both the tree and the walk follow.

The usual constructors of options give well-formed ones. The names, labels and help texts of the
events are the texts that the fields carry (`FieldSpec.Carries`), which is part of the result.
-/

namespace SetupForms.Blueprint

open Text

universe u

variable {σ : Type u} {limits : Limits}

/-! ## Constructors

A blueprint may be malformed on purpose, to write trees that are to be refused. The constructors
that write what is usual are well-formed for every text, with the one limit on the length of a
default.
-/

/-- A value with a label is well-formed. -/
theorem ValueSpec.wellFormed_labelled (value : UInt32) (label : String) :
    (labelled value label).WellFormed := ⟨rfl, FieldSpec.given_text ..⟩

namespace OptionSpec

/-- A numeric option with a name and a label is well-formed. -/
theorem wellFormed_numeric (kind : NumericKind) (fields : CommonFields) (name label : String)
    (default : UInt32) : (numeric kind fields name label default).WellFormed limits where
  kind := by cases kind <;> rfl
  size := rfl
  name := by
    have hk : (numeric kind fields name label default).kind ≠ .comment := kind.kind_ne.1
    rw [if_neg hk]
    exact FieldSpec.given_text ..
  label := FieldSpec.given_text ..
  help := nofun
  defaultField := by
    have hk : (numeric kind fields name label default).kind ≠ .varchar := kind.kind_ne.2
    rw [if_neg hk]
    rfl
  values := by
    split
    · -- an option without values lists none, and an enum without values is one
      nofun
    · rfl

/-- A text option is, if its default is short enough. -/
theorem wellFormed_varchar {fields : CommonFields} {name label default : String}
    (hd : (Utf8.encode default).length + 1 ≤ limits.maxDefaultLength.toNat) :
    (varchar fields name label default).WellFormed limits where
  kind := rfl
  size := rfl
  name := FieldSpec.given_text ..
  label := FieldSpec.given_text ..
  help := nofun
  defaultField := ⟨_, rfl, (FieldSpec.says_text ..).toPlain, by simpa [FieldSpec.text] using hd⟩
  values := rfl

/-- A comment is. -/
theorem wellFormed_comment (fields : CommonFields) (label : String) :
    (comment fields label).WellFormed limits where
  kind := rfl
  size := rfl
  name := rfl
  label := FieldSpec.given_text ..
  help := nofun
  defaultField := rfl
  values := rfl

end OptionSpec

/-! ## The round trip

What is written is spelled, and what is spelled is read. `walk_encode` is both halves for the whole
of a form, and says besides what the texts of the events are.
-/

/-- **Reading back.** Let a well-formed form fit a 32-bit size. Then the written bytes make a tree
that ends with them, and a callback that refuses nothing is called back for just the events of the
node that the form describes, without a diagnostic. In these events a field stands for the text
that it carries, and a field that is made of a text without a NUL carries it. -/
theorem walk_encode {f : Callback σ} (hf : f.Willing) (s : σ) (limits : Limits) (index : Nat)
    {fields : CommonFields} {label : Option FieldSpec} {children : List Blueprint}
    {size : Option UInt32} (hb : (form fields label children size).WellFormed limits 0)
    (hl : (form fields label children size).encode.length < 0x100000000) :
    ∃ t, Tree.ofBytes (form fields label children size).encode.toArray = .ok t ∧
      t.root.stop = (form fields label children size).encode.length ∧
      (Walk.tree f limits index t s).1.diagnostics = [] ∧
      (Walk.tree f limits index t s).2 =
        f.feed s ((form fields label children size).node 0 0).events ∧
      (∀ (field : FieldSpec) (text : String), field.Carries text → field.words = text) ∧
      ∀ (kind : Kind) (text : String), '\x00' ∉ text.toList →
        (FieldSpec.text kind text).Carries text := by
  have hs : Node.Spells limits 0 (node 0 0 (form fields label children size))
    (form fields label children size).encode := spells_encode hb hl
  obtain ⟨ht, hn, hstop⟩ := Tree.ofBytes_of_spells hs rfl (List.prefix_refl _)
  refine ⟨_, ht, hstop, ?_, ?_, fun _ _ => FieldSpec.Carries.words_eq,
    fun _ _ => FieldSpec.carries_text⟩
  · rw [Walk.tree_of_willing hf, hn]
    exact Node.clean_of_spells hs
  · rw [Walk.tree_of_willing hf, hn]
    rfl

/-- An enum whose name is followed by padding. -/
def sampleEnum : OptionSpec where
  kind := .enum
  fields := ⟨7, 2, ⟨0xffffffff⟩⟩
  default := 2
  name := some { FieldSpec.text .optionName "mode" with padding := 3 }
  label := some (.text .label "Mode")
  values := [.labelled 1 "One", .labelled 2 "Two"]

theorem wellFormed_sampleEnum : sampleEnum.WellFormed limits where
  kind := rfl
  size := rfl
  name := ⟨_, rfl, ⟨rfl, rfl⟩, (FieldSpec.says_text .optionName "mode").decodes⟩
  label := FieldSpec.given_text ..
  help := nofun
  defaultField := rfl
  values := by
    intro v hv
    rcases List.mem_cons.mp hv with rfl | hv
    · exact ValueSpec.wellFormed_labelled ..
    · rw [List.mem_singleton.mp hv]
      exact ValueSpec.wellFormed_labelled ..

/-- A form in a form, an enum with padding in one of its fields, and an option of each kind. The
name of the enum is read back in spite of the padding. -/
theorem walk_encode_sample :
    let sample := form ⟨1, 0, ⟨0⟩⟩ (some (.text .label "Setup"))
      [.option (.numeric .bool ⟨2, 0, ⟨4⟩⟩ "on" "On" 1),
        .form ⟨3, 2, ⟨0⟩⟩ (some (.text .label "Inner"))
          [.option sampleEnum, .option (.comment ⟨0, 0, ⟨0⟩⟩ "Note")] none,
        .option (.varchar ⟨4, 0, ⟨1⟩⟩ "host" "Host" "box")] none
    ∃ t, Tree.ofBytes sample.encode.toArray = .ok t ∧ t.root.stop = sample.encode.length ∧
      (Walk.tree (.recorder fun _ => none) {} 0 t #[]).1.diagnostics = [] ∧
      (Walk.tree (.recorder fun _ => none) {} 0 t #[]).2 =
        Callback.feed (.recorder fun _ => none) #[] (sample.node 0 0).events ∧
      sampleEnum.name.map FieldSpec.words = some "mode" := by
  intro sample
  have hwell : sample.WellFormed {} 0 :=
    ⟨Nat.zero_le _, rfl, FieldSpec.given_text .., OptionSpec.wellFormed_numeric ..,
      ⟨by decide, rfl, FieldSpec.given_text .., wellFormed_sampleEnum,
        OptionSpec.wellFormed_comment .., trivial⟩,
      OptionSpec.wellFormed_varchar (by decide +kernel), trivial⟩
  obtain ⟨t, ht, hstop, hclean, hevents, hwords, -⟩ :=
    walk_encode Callback.willing_recorder #[] {} 0 hwell (by decide +kernel)
  have hmode : FieldSpec.Carries { FieldSpec.text .optionName "mode" with padding := 3 } "mode" :=
    ⟨by decide, [0], rfl, fun _ hb => (Option.some.inj hb).symm⟩
  exact ⟨t, ht, hstop, hclean, hevents, congrArg some (hwords _ _ hmode)⟩

end SetupForms.Blueprint
