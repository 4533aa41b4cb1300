import Mathlib.Data.List.Forall2
import SetupForms.Menu.Draft
import SetupForms.Proofs.Agreement
import SetupForms.Proofs.LookupAgreement

/-!
# Behind the root

The buffer of a tree may go on behind its root form, and nobody looks there. Trees are `Tree.Alike`
when they have the same root and show the same bytes up to its end. Walks, lookups and menus do not
tell such trees apart (`Walk.trees_congr`, `Lookup.find_congr`, `Menu.build_congr`), and a buffer
with more behind it is a tree like the buffer alone (`Tree.ofBytes_append`).

Nothing is read behind the end of the root, because every record in the root is framed in it and
every field in its record. `AgreeFrom` and `AgreeInside` (from `Agreement`) say that two windows
show the same bytes from a place on or in a record, and each reader gives the same on windows that
agree.
-/

namespace SetupForms

universe u

variable {w w' : Window} {lo cursor depth : Nat} {h : Header} {name : String}
  {limits : Limits}

/-! ## Lookups look into windows that agree alike

Outlines were compared this way in `Agreement`; lookups are a recursion of their own and are
compared here, with one lemma for each reader that they use.
-/

namespace Lookup

theorem numeric_congr (ha : h.AgreeInside w w') : numeric w h name = numeric w' h name := by
  rw [numeric, numeric, Layout.numeric_congr ha]
  simp only [Field.require_congr ha (Nat.le_add_right ..),
    ha.slice_eq (show h.offset ≤ Layout.defaultOffset h from Nat.le_add_right ..)]

theorem varchar_congr (ha : h.AgreeInside w w') : varchar w h name = varchar w' h name := by
  rw [varchar, varchar, Layout.text_congr ha]
  refine bind_congr_ok fun fields _ => ?_
  simp only [← Field.require_congr ha (Nat.le_add_right h.offset Layout.textLength)]
  refine bind_congr_ok fun default hd => ?_
  have hle := (Field.require_stop hd).2.1
  simp only [Field.require_congr ha (show h.offset ≤ default.stop by omega)]

theorem comment_congr (ha : h.AgreeInside w w') : comment w h name = comment w' h name := by
  rw [comment, comment, Layout.text_congr ha]
  simp only [Field.require_congr ha (Nat.le_add_right ..)]

theorem record_of_badForm {f : Fault} {search : (form : Form) →
      Form.decode w h.offset (depth + 1) = .ok form → Except Fault (Option Hit)}
    (hr : Role.ofTag h.tag = .form) (hm : ¬limits.maxDepth < depth + 1)
    (hd : Form.decode w h.offset (depth + 1) = .error f) :
    record w limits.maxDepth name depth h search = .error f := by
  simp only [record, hr, if_neg hm]
  split
  next g hd' =>
    obtain rfl := Except.error.inj (hd.symm.trans hd')
    rfl
  next form hd' => cases hd.symm.trans hd'

/-- A record is compared alike if the frames agree and the search inside nested forms is the
same. -/
theorem record_congr {search : (form : Form) →
      Form.decode w h.offset (depth + 1) = .ok form → Except Fault (Option Hit)}
    {search' : (form : Form) →
      Form.decode w' h.offset (depth + 1) = .ok form → Except Fault (Option Hit)}
    (hp : Header.parse w cursor = .ok h) (hp' : Header.parse w' cursor = .ok h)
    (ha : h.AgreeInside w w') (hin : ∀ form hd hd', search form hd = search' form hd') :
    record w limits.maxDepth name depth h search =
      record w' limits.maxDepth name depth h search' := by
  obtain ⟨rfl, -⟩ := Header.parse_eq_ok hp
  have hd : Form.decode w h.offset (depth + 1) = Form.decode w' h.offset (depth + 1) :=
    Form.decode_congr hp hp' ha
  cases hr : Role.ofTag h.tag with
  | form =>
    by_cases hm : limits.maxDepth < depth + 1
    · simp only [record, hr, if_pos hm]
    cases hw : Form.decode w h.offset (depth + 1) with
    | error f => rw [record_of_badForm hr hm hw, record_of_badForm hr hm (hd ▸ hw)]
    | ok form =>
      rw [record_of_form hr hm hw, record_of_form hr hm (hd ▸ hw), hin]
  | numeric kind => simp only [record, hr, numeric_congr ha]
  | text kind => cases kind <;> simp only [record, hr, varchar_congr ha, comment_congr ha]
  | unrecognized => simp only [record, hr]

/-- A search through records that agree finds the same. -/
theorem children_congr (ha : Window.AgreeFrom lo w w') (hlo : lo ≤ cursor) :
    children w limits.maxDepth name depth cursor =
      children w' limits.maxDepth name depth cursor := by
  -- A search goes on behind a record and into nested forms. The bytes that are left to search get
  -- fewer either way, so the induction is on their number.
  induction hn : w.stop - cursor using Nat.strongRecOn generalizing w w' depth cursor with
  | ind n ih =>
    by_cases hlt : cursor < w.stop
    · cases hp : Header.parse w cursor with
      | error f =>
        rw [children_of_torn hlt hp, children_of_torn (ha.stop ▸ hlt)
          (Header.parse_congr ha hlo ▸ hp)]
      | ok h =>
        have hs := Header.lt_stop_of_parse hp
        have ho := (Header.parse_eq_ok hp).1
        have hw : w.limit ≤ w.stop := Nat.min_le_left ..
        have hp' := (Header.parse_congr ha hlo).symm.trans hp
        rw [children_of_framed hlt hp, children_of_framed (ha.stop ▸ hlt) hp',
          record_congr hp hp' (ha.inside hlo hp) fun form hd _ => ?_]
        · rw [ih _ (by omega) ha (by omega) rfl]
        · obtain ⟨-, -, -, hlow, -, hfs⟩ := Form.decode_eq_ok hd
          simp only [Field.headerLength, Header.length] at hlow
          refine ih _ ?_ (ha.upTo hfs) (by omega) rfl
          simp only [Window.upTo]
          omega
    · rw [children_of_le (by omega), children_of_le (by have := ha.stop; omega)]

end Lookup

/-! ## Trees that are alike

A tree is its bytes and its root. All that walks, lookups and builds have of a tree is its outline
or a search in its window, and both are the same for trees that are alike.
-/

/-- Two trees with the same root over the same bytes, whatever their buffers hold behind it. -/
structure Tree.Alike (t t' : Tree) : Prop where
  /-- the roots are equal -/
  root : t.root = t'.root
  /-- up to the end of the root the same can be read -/
  agree : Window.AgreeFrom 0 t.window t'.window

variable {t t' : Tree} {ts ts' : List Tree}

namespace Tree.Alike

/-- Trees that are alike have the same outline. -/
theorem ofTree_eq (ht : Alike t t') : Node.ofTree limits t = Node.ofTree limits t' := by
  rw [Node.ofTree, Node.ofTree, Node.children_congr ht.agree (Nat.zero_le _), ht.root]

/-- Lookups in trees that are alike are the same. -/
theorem lookup_eq (ht : Alike t t') : Lookup.tree limits t name = Lookup.tree limits t' name := by
  rw [Lookup.tree, Lookup.tree, Lookup.children_congr ht.agree (Nat.zero_le _), Tree.name,
    Tree.name, ht.root]

end Tree.Alike

/-- Walks of trees that are alike are the same. -/
theorem Walk.trees_congr {σ : Type u} (f : Callback σ) (first : Nat) (s : σ)
    (hts : List.Forall₂ Tree.Alike ts ts') :
    trees f limits first ts s = trees f limits first ts' s := by
  induction hts generalizing first s with
  | nil => rfl
  | cons ht _ ih => simp only [trees, tree, ht.ofTree_eq, ih]

/-- Lookups over trees that are alike are the same. -/
theorem Lookup.find_congr (form? : Option String) (hts : List.Forall₂ Tree.Alike ts ts') :
    find limits form? name ts = find limits form? name ts' := by
  induction hts with
  | nil => rfl
  | cons ht _ ih => rw [find, find, ih, ht.lookup_eq, Tree.name, Tree.name, ht.root]

/-- Builds of trees that are alike are the same. -/
theorem Menu.build_congr (settings : Settings) (policy : Policy) (store : Store)
    (hts : List.Forall₂ Tree.Alike ts ts') :
    build settings limits policy ts store = build settings limits policy ts' store := by
  rw [build, build, Walk.trees_congr _ _ _ hts]

/-! ## Buffers that go on

A longer buffer shows everything that the shorter one shows.
-/

namespace Window

theorem limit_append (b more : Array UInt8) : (ofBytes b).limit ≤ (ofBytes (b ++ more)).limit := by
  rw [limit_ofBytes, limit_ofBytes, Array.size_append]
  exact Nat.le_add_right ..

theorem Holds.append {b more : Array UInt8} {offset : Nat} {bs : List UInt8}
    (hb : (ofBytes b).Holds offset bs) : (ofBytes (b ++ more)).Holds offset bs := by
  refine ⟨Nat.le_trans hb.1 (limit_append b more), fun i hi => ?_⟩
  have hlt : offset + i < b.size := by
    have := hb.1
    rw [limit_ofBytes] at this
    omega
  rw [← hb.2 i hi]
  exact Array.getElem?_append_left hlt

/-- Up to an end inside the buffer nothing behind the buffer is seen. -/
theorem agreeFrom_append {b more : Array UInt8} {stop : Nat} (hs : stop ≤ b.size) :
    AgreeFrom lo ⟨b, stop⟩ ⟨b ++ more, stop⟩ := by
  have hlimit : limit ⟨b, stop⟩ = stop := Nat.min_eq_left hs
  have hlimit' : limit ⟨b ++ more, stop⟩ = stop :=
    Nat.min_eq_left (Nat.le_trans hs (by rw [Array.size_append]; exact Nat.le_add_right ..))
  refine ⟨rfl, hlimit.trans hlimit'.symm, fun i _ hi => (Array.getElem?_append_left ?_).symm⟩
  rw [hlimit] at hi
  exact Nat.lt_of_lt_of_le hi hs

end Window

/-- **What stands behind the root does not matter.** A buffer that is a tree is one with anything
behind it, and the two trees are alike. -/
theorem Tree.ofBytes_append {b : Array UInt8} (more : Array UInt8) (ht : ofBytes b = .ok t) :
    ∃ t', ofBytes (b ++ more) = .ok t' ∧ Alike t t' := by
  obtain ⟨rfl, hd⟩ := ofBytes_eq_ok_iff.mp ht
  obtain ⟨h, hp, -⟩ := bind_eq_ok_iff.mp hd
  obtain ⟨ho, ha, hm, hs, hb⟩ := Header.parse_eq_ok_iff.mp hp
  have hp' : Header.parse (.ofBytes (t.bytes ++ more)) 0 = .ok h :=
    Header.parse_eq_ok_iff.mpr ⟨ho, ha, hm, Nat.le_trans hs (Window.limit_append ..), hb.append⟩
  rw [Window.limit_ofBytes] at hs
  have hd' : Form.decode (.ofBytes (t.bytes ++ more)) 0 0 = .ok t.root :=
    (Form.decode_congr hp hp' (Window.agreeFrom_append hs)).symm.trans hd
  exact ⟨⟨t.bytes ++ more, t.root⟩, ofBytes_eq_ok_iff.mpr ⟨rfl, hd'⟩, rfl,
    Window.agreeFrom_append (Form.stop_of_decode hp hd ▸ hs)⟩

end SetupForms
