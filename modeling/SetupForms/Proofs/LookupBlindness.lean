import SetupForms.Proofs.Blindness
import SetupForms.Proofs.FaultClasses
import SetupForms.Proofs.Padding

/-!
# Lookups do not look at ids and flags

A lookup in a stamped window finds what it finds without the stamp, at the same place and with the
same fault (`Lookup.children_stamped`). Only the new default of a numeric option shows, and only to
who asks for this option. With the walks, this makes `Tree.walk_find_stamped`: nothing that is told
of a tree rests on the ids and flags of a record.

A search runs through the stamped window side by side with one through the window as it was. In
front of the record nothing differs, behind it the two windows agree, and in the record itself the
readers do not look at the bytes of the stamp, save for the default of a numeric option. That
default is an answer in itself, and so the answers are compared up to `stampAnswer`, which puts the
new default into an answer that was found at the record.
-/

namespace SetupForms

variable {w w' : Window} {cursor depth offset lo hi : Nat} {h : Header} {walked limits : Limits}
  {v : Stamp} {name : String}

/-! ## Answers

Whether an answer was found at the stamped record shows in the place of its default. That it can be
seen there needs that defaults are found inside the frames of their records, `FindsWithin`.
-/

/-- The default as a stamp on the record at `offset` leaves it: new, if it is the word behind the
flags of this record and the stamp has a new one. -/
def DefaultValue.stampAt (v : Stamp) (offset : Nat) (d : DefaultValue) : DefaultValue :=
  if d.offset = offset + Layout.formLength then
    { d with bytes := (v.default?.map Bytes.ofUInt32).getD d.bytes }
  else d

/-- A stamp of ids and flags leaves all defaults as they are. -/
theorem DefaultValue.stampAt_of_none (hn : v.default? = none) (d : DefaultValue) :
    d.stampAt v offset = d := by
  rw [stampAt, hn]
  exact ite_self d

namespace Lookup

/-- What was found, as a stamp on the record at `offset` leaves it. -/
def Hit.stampAt (v : Stamp) (offset : Nat) : Hit → Hit
  | value d => value (d.stampAt v offset)
  | bare kind => bare kind

/-- The answer of a search as a stamp on the record at `offset` leaves it. -/
def stampAnswer (v : Stamp) (offset : Nat) (x : Except Fault (Option Hit)) :
    Except Fault (Option Hit) :=
  x.map (Option.map (Hit.stampAt v offset))

/-- A stamp without a default changes no answer. -/
theorem stampAnswer_of_none (hn : v.default? = none) (x : Except Fault (Option Hit)) :
    stampAnswer v offset x = x := by
  rcases x with f | _ | d | kind
  · rfl
  · rfl
  · rw [stampAnswer, Except.map, Option.map, Hit.stampAt, DefaultValue.stampAt_of_none hn]
  · rfl

/-- The default that a search finds stands between two places. -/
def FindsWithin (lo hi : Nat) (x : Except Fault (Option Hit)) : Prop :=
  ∀ d, x = .ok (some (.value d)) → lo ≤ d.offset ∧ d.offset ≤ hi

theorem FindsWithin.error (f : Fault) : FindsWithin lo hi (.error f) := nofun

theorem FindsWithin.nothing : FindsWithin lo hi (.ok none) := nofun

theorem FindsWithin.bare (kind : Undefaulted) : FindsWithin lo hi (.ok (some (.bare kind))) := nofun

theorem FindsWithin.mono {lo' hi' : Nat} {x : Except Fault (Option Hit)} (hx : FindsWithin lo hi x)
    (hlo : lo' ≤ lo) (hhi : hi ≤ hi') : FindsWithin lo' hi' x := fun d hd =>
  ⟨Nat.le_trans hlo (hx d hd).1, Nat.le_trans (hx d hd).2 hhi⟩

/-- A stamp elsewhere does not show. -/
theorem FindsWithin.stampAnswer_eq {x : Except Fault (Option Hit)} (hx : FindsWithin lo hi x)
    (hout : hi ≤ offset ∨ offset + Layout.formLength < lo) : stampAnswer v offset x = x := by
  rcases x with f | _ | d | kind
  · rfl
  · rfl
  · have hd := hx d rfl
    have hpos : 0 < Layout.formLength := by decide
    have hne : d.offset ≠ offset + Layout.formLength := by omega
    rw [stampAnswer, Except.map, Option.map, Hit.stampAt, DefaultValue.stampAt, if_neg hne]
  · rfl

/-! ## Where defaults are found

One lemma for each reader, then one for a record, and from there by induction one for whatever a
form holds.
-/

/-- The default of a numeric option is in its frame. -/
theorem numeric_findsWithin (hp : Header.parse w cursor = .ok h) :
    FindsWithin h.offset h.stop (numeric w h name) := by
  intro d hd
  obtain ⟨fixed, -, hd⟩ := bind_eq_ok_iff.mp hd
  obtain ⟨field, -, hd⟩ := bind_eq_ok_iff.mp hd
  split at hd
  · obtain ⟨bs, hbs, hd⟩ := map_eq_ok_iff.mp hd
    obtain rfl := Hit.value.inj (Option.some.inj hd)
    obtain ⟨-, hle, -⟩ := Window.slice_eq_ok_iff.mp hbs
    rw [Header.limit_upTo_stop hp] at hle
    exact ⟨Nat.le_add_right .., Nat.le_of_add_right_le hle⟩
  · cases Except.ok.inj hd

/-- The default of a text option is in its frame. -/
theorem varchar_findsWithin (hp : Header.parse w cursor = .ok h) :
    FindsWithin h.offset h.stop (varchar w h name) := by
  intro d hd
  obtain ⟨fixed, -, hd⟩ := bind_eq_ok_iff.mp hd
  obtain ⟨default, hr, hd⟩ := bind_eq_ok_iff.mp hd
  obtain ⟨field, -, hd⟩ := bind_eq_ok_iff.mp hd
  obtain ⟨ho, hlow, hhigh⟩ := Field.require_stop hr
  rw [Header.limit_upTo_stop hp] at hhigh
  have hfound := pure_eq_ok_iff.mp hd
  split at hfound
  · obtain rfl := Hit.value.inj (Option.some.inj hfound)
    simp only [Field.dataOffset, ho]
    omega
  · cases hfound

theorem comment_findsWithin : FindsWithin lo hi (comment w h name) := by
  intro d hd
  obtain ⟨fixed, -, hd⟩ := bind_eq_ok_iff.mp hd
  obtain ⟨field, -, hd⟩ := bind_eq_ok_iff.mp hd
  have hfound := pure_eq_ok_iff.mp hd
  split at hfound <;> cases hfound

/-- A default is found in the frame of its record. -/
theorem record_findsWithin {search : (form : Form) →
      Form.decode w h.offset (depth + 1) = .ok form → Except Fault (Option Hit)}
    (hp : Header.parse w cursor = .ok h)
    (hin : ∀ form hd, FindsWithin form.childrenStart form.stop (search form hd)) :
    FindsWithin h.offset h.stop (record w limits.maxDepth name depth h search) := by
  -- The cases are the roles of a record. Only a form goes on, with what it holds.
  cases hr : Role.ofTag h.tag with
  | form =>
    by_cases hm : limits.maxDepth < depth + 1
    · simp only [record, hr, if_pos hm]
      exact .error _
    cases hd : Form.decode w h.offset (depth + 1) with
    | error f =>
      rw [record_of_badForm hr hm hd]
      exact .error f
    | ok form =>
      rw [record_of_form hr hm hd]
      split
      · exact .bare _
      · obtain ⟨-, -, -, hlow, -, -⟩ := Form.decode_eq_ok hd
        obtain ⟨ho, -⟩ := Header.parse_eq_ok hp
        have hstop := Form.stop_of_decode hp (ho ▸ hd)
        exact (hin form hd).mono (by omega) (Nat.le_of_eq hstop)
  | numeric kind =>
    simp only [record, hr]
    exact numeric_findsWithin hp
  | text kind =>
    simp only [record, hr]
    cases kind with
    | varchar => exact varchar_findsWithin hp
    | comment => exact comment_findsWithin
  | unrecognized =>
    simp only [record, hr]
    exact .nothing

/-- What is found from a cursor on stands between the cursor and the end of the window. -/
theorem children_findsWithin :
    FindsWithin cursor w.stop (children w limits.maxDepth name depth cursor) := by
  fun_induction children w limits.maxDepth name depth cursor with
  | case1 w depth cursor hlt f hp => exact .error f
  | case2 w depth cursor hlt h hp hrec ihin ihrest =>
    exact ihrest.mono (Nat.le_of_lt (Header.lt_stop_of_parse hp)) (Nat.le_refl _)
  | case3 w depth cursor hlt h hp hrec ihin =>
    obtain ⟨ho, -, hle, -⟩ := Header.parse_eq_ok hp
    have hw : w.limit ≤ w.stop := Nat.min_le_left ..
    exact (record_findsWithin hp ihin).mono (Nat.le_of_eq ho.symm) (Nat.le_trans hle hw)
  | case4 w depth cursor hge => exact .nothing

/-! ## Searches in stamped windows

Again one lemma for each reader and one for a record. The induction is on where the stamped record
stands: it is the next record, or in a later one, or in what the next one holds.
-/

/-- A stamp on a numeric option shows only in its default. -/
theorem numeric_stamped (hs : v.Stamped h w w') :
    numeric w' h name = stampAnswer v h.offset (numeric w h name) := by
  rw [numeric, numeric]
  refine bind_of_map hs.numeric_layout fun fixed hf => ?_
  obtain ⟨-, hf⟩ := guard_eq_ok_iff.mp hf
  have hlong := Header.requireMin_eq_ok_iff.mp (guard_eq_ok_iff.mp hf).1
  simp only [← Field.require_congr hs.agreeFrom_upTo (v.stop_le h)]
  refine bind_eq_map fun field _ => ?_
  by_cases hname : field.textBytes = Text.Utf8.encode name
  · -- the default that is read is the stamped one
    rw [if_pos hname, if_pos hname, hs.slice_default hlong]
    cases (w.upTo h.stop).slice (Layout.defaultOffset h) 4 with
    | error f => rfl
    | ok bs =>
      exact congrArg (fun d => Except.ok (some (Hit.value d))) (if_pos rfl).symm
  · rw [if_neg hname, if_neg hname]
    rfl

/-- A stamp on a text option does not show. -/
theorem varchar_stamped (hs : v.Stamped h w w') (hn : v.default? = none) :
    varchar w' h name = varchar w h name := by
  have ha := hs.agreeFrom_upTo
  have h₀ : v.stop h ≤ h.offset + Layout.textLength := Nat.le_of_eq (Stamp.stop_of_none hn)
  rw [varchar, varchar, hs.text_layout]
  cases Layout.text w h with
  | error f => rfl
  | ok fields =>
    simp only [Except.map, ← Field.require_congr ha h₀]
    refine bind_congr_ok fun _ _ => bind_congr_ok fun default hd => ?_
    have hle := (Field.require_stop hd).2.1
    simp only [← Field.require_congr ha (show v.stop h ≤ default.stop by omega)]

/-- A stamp on a comment does not show. -/
theorem comment_stamped (hs : v.Stamped h w w') (hn : v.default? = none) :
    comment w' h name = comment w h name := by
  have h₀ : v.stop h ≤ h.offset + Layout.textLength := Nat.le_of_eq (Stamp.stop_of_none hn)
  rw [comment, comment, hs.text_layout]
  cases Layout.text w h with
  | error f => rfl
  | ok fields =>
    simp only [Except.map, ← Field.require_congr hs.agreeFrom_upTo h₀]
    rfl

/-- A stamped record is compared as without the stamp. -/
theorem record_stamped (hs : v.Stamped h w w') {search : (form : Form) →
      Form.decode w h.offset (depth + 1) = .ok form → Except Fault (Option Hit)}
    {search' : (form : Form) →
      Form.decode w' h.offset (depth + 1) = .ok form → Except Fault (Option Hit)}
    (hin : v.default? = none → ∀ form hd hd', search' (form.stamp v) hd' = search form hd) :
    record w' limits.maxDepth name depth h search' =
      stampAnswer v h.offset (record w limits.maxDepth name depth h search) := by
  cases hr : Role.ofTag h.tag with
  | form =>
    have hn : v.default? = none := hs.fits.default_eq_none fun kind hkind => by simp [hr] at hkind
    rw [stampAnswer_of_none hn]
    by_cases hm : limits.maxDepth < depth + 1
    · simp only [record, hr, if_pos hm]
    have hd' : Form.decode w' h.offset (depth + 1) = _ := hs.form_decode hn
    cases hd : Form.decode w h.offset (depth + 1) with
    | error f =>
      rw [hd] at hd'
      rw [record_of_badForm hr hm hd, record_of_badForm hr hm hd']
    | ok form =>
      rw [hd] at hd'
      rw [record_of_form hr hm hd, record_of_form hr hm hd', hin hn form hd hd']
      rfl
  | numeric kind =>
    simp only [record, hr]
    exact numeric_stamped hs
  | text kind =>
    have hn : v.default? = none := hs.fits.default_eq_none fun kind hkind => by simp [hr] at hkind
    rw [stampAnswer_of_none hn]
    simp only [record, hr]
    cases kind with
    | varchar => exact varchar_stamped hs hn
    | comment => exact comment_stamped hs hn
  | unrecognized => exact absurd hr hs.fits.role

/-- A search gives the same answer, but for the stamp, if it does so in the first record and, from
there, in the later ones. -/
theorem children_of_step {g : Header} (hc : cursor < w.stop) (hp : Header.parse w cursor = .ok g)
    (hc' : cursor < w'.stop) (hp' : Header.parse w' cursor = .ok g)
    (hrecord : (record w' limits.maxDepth name depth g fun form _ =>
        children (w'.upTo form.stop) limits.maxDepth name (depth + 1) form.childrenStart) =
      stampAnswer v offset (record w limits.maxDepth name depth g fun form _ =>
        children (w.upTo form.stop) limits.maxDepth name (depth + 1) form.childrenStart))
    (hrest : children w' limits.maxDepth name depth g.stop =
      stampAnswer v offset (children w limits.maxDepth name depth g.stop)) :
    children w' limits.maxDepth name depth cursor =
      stampAnswer v offset (children w limits.maxDepth name depth cursor) := by
  rw [children_of_framed hc hp, children_of_framed hc' hp', hrecord, hrest]
  rcases record w limits.maxDepth name depth g _ with f | _ | d | kind <;> rfl

/-- Where the windows agree, a stamp in front of what is searched does not show. -/
theorem children_behind (ha : Window.AgreeFrom lo w w') (hlo : lo ≤ cursor)
    (hlt : offset + Layout.formLength < cursor ∨ v.default? = none) :
    children w' limits.maxDepth name depth cursor =
      stampAnswer v offset (children w limits.maxDepth name depth cursor) := by
  rw [← children_congr ha hlo]
  rcases hlt with hlt | hn
  · exact (children_findsWithin.stampAnswer_eq (.inr hlt)).symm
  · exact (stampAnswer_of_none hn _).symm

/-- **Lookups are blind.** A search in a stamped window gives the same answer, but for the stamp.
Its limits need not be those of the walk that frames the record. -/
theorem children_stamped (hf : Node.Frames walked h w depth cursor) (ho : v.Over h w w')
    (hv : v.Fits h) (hw : w.limit < Window.addressSpace) :
    children w' limits.maxDepth name depth cursor =
      stampAnswer v h.offset (children w limits.maxDepth name depth cursor) := by
  have hs := ho.spares hv
  induction hf generalizing w' with
  | @here w depth cursor hc hp =>
    refine children_of_step hc hp (ho.stop ▸ hc) (ho.parse hp) ?_ ?_
    · refine record_stamped (ho.stamped hv hw hp) fun hn form hd _ => ?_
      -- what the stamped form holds stands behind the stamp
      have hbehind : v.stop h ≤ form.childrenStart := Stamp.stop_le_childrenStart hn hd
      exact (children_congr (ho.agreeFrom.upTo (Form.decode_eq_ok hd).2.2.2.2.2) hbehind).symm
    · exact children_behind hs.agreeFrom_after (Nat.le_refl _) hv.default_lt_stop
  | @later w depth cursor g hc hp hf ih =>
    -- nothing in the record in front of the stamp has changed
    have hg := hf.bounds.1
    have hp' := hs.parse_earlier hp hg
    refine children_of_step hc hp (ho.stop ▸ hc) hp' ?_ (ih ho hw hs)
    rw [FindsWithin.stampAnswer_eq (record_findsWithin hp fun _ _ => children_findsWithin)
      (.inl hg)]
    refine (record_congr hp hp' (hs.agreeFrom_before hg) fun form hd _ => ?_).symm
    exact children_congr (hs.agreeFrom_earlier hp hd hg) (Nat.zero_le _)
  | @inside w depth cursor g form hc hp hr hm hd hf ih =>
    -- the form around the stamp is searched in both windows
    have ha := hs.around hw hp hd hf
    have hin := ih (ho.upTo form.stop) ha.limit_lt (hs.upTo form.stop)
    refine children_of_step hc hp (ho.stop ▸ hc) ha.parse ?_ ?_
    · by_cases hdeep : limits.maxDepth < depth + 1
      · simp only [record, hr, if_pos hdeep]
        rfl
      · rw [record_of_form hr hdeep hd, record_of_form hr hdeep ha.decode, hin]
        split <;> rfl
    · exact children_behind ha.agreeFrom (Nat.le_refl _)
        (hv.default_lt_stop.imp_left fun hlt => Nat.lt_of_lt_of_le hlt ha.stop_le)

/-- A lookup in trees goes on behind some of them if it has found nothing in these. -/
theorem find_append (limits : Limits) (form? : Option String) (name : String) (ts us : List Tree) :
    find limits form? name (ts ++ us) =
      match find limits form? name ts with
      | .error (.optionNotFound _) => find limits form? name us
      | answer => answer := by
  induction ts with
  | nil => rfl
  | cons t ts ih =>
    rw [List.cons_append, find, find, ih]
    split
    · rfl
    cases ht : tree limits t name with
    | ok found => rcases found with _ | d | kind <;> rfl
    | error f =>
      -- malformed bytes are not a missing option
      have hs := tree_failsOnBytes f ht
      cases f <;> first | rfl | cases hs

/-- A tree that answers with a stamp, where another does without, shows it only if the lookup ends
in this tree. -/
theorem find_of_stamped {t t' : Tree} (hname : t'.name = t.name)
    (ht : tree limits t' name = stampAnswer v offset (tree limits t name)) (form? : Option String)
    (before after : List Tree) :
    let found ts := find limits form? name ts
    (v.default? = none → found (before ++ t' :: after) = found (before ++ t :: after)) ∧
    found (before ++ t' :: after) =
      match found before, found [t] with
      | .error (.optionNotFound _), .ok d => .ok (d.stampAt v offset)
      | _, _ => found (before ++ t :: after) := by
  simp only [find_append]
  refine ⟨fun hn => ?_, ?_⟩
  · rw [find, find, hname, ht, stampAnswer_of_none hn]
  cases find limits form? name before with
  | ok d => rfl
  | error f =>
    by_cases hf : ∃ s, f = .optionNotFound s
    · obtain ⟨s, rfl⟩ := hf
      -- the answer is up to this tree and those behind it
      simp only [find, hname, ht]
      split
      · rfl
      rcases tree limits t name with f | _ | d | kind <;> rfl
    · cases f <;> first | rfl | exact absurd ⟨_, rfl⟩ hf

end Lookup

/-! ## Trees

A tree may be stamped on its root or on a record in a form that is entered. On the root the stamp
changes what the tree says of itself, its ids and flags, but not its name or what it holds.
-/

namespace Tree

/-- The walk of a tree reads the record `h`: it is the root, or framed in a form that is entered. -/
def Meets (limits : Limits) (t : Tree) (h : Header) : Prop :=
  Header.parse (.ofBytes t.bytes) 0 = .ok h ∨ t.Frames limits h

/-- The tree with a stamp on its record `h`. -/
def stamp (v : Stamp) (h : Header) (t : Tree) : Tree :=
  ⟨v.on h t.bytes, t.root.stampAt v h.offset⟩

variable {b : Array UInt8} {t : Tree}

theorem window_stamp :
    (t.stamp v h).window = (Window.ofBytes (v.on h t.bytes)).upTo t.root.stop := by
  rw [window, stamp, (Form.stampAt_eq t.root).2.2.2]
  rfl

theorem childrenStart_stamp : (t.stamp v h).root.childrenStart = t.root.childrenStart :=
  (Form.stampAt_eq t.root).2.2.1

theorem name_stamp : (t.stamp v h).name = t.name := (Form.stampAt_eq t.root).2.1

/-- A record that the walk reads lies in the buffer. -/
theorem Meets.stop_le (hm : t.Meets limits h) : h.stop ≤ t.bytes.size := by
  rcases hm with hp | hf
  · exact Window.limit_ofBytes _ ▸ (Header.parse_eq_ok hp).2.2.1
  · exact Nat.le_trans hf.bounds.2 (Nat.min_le_right ..)

/-- The stamped buffer shows the stamp. -/
theorem Meets.over (hm : t.Meets limits h) (hv : v.Fits h) :
    v.Over h (.ofBytes t.bytes) (.ofBytes (v.on h t.bytes)) :=
  Stamp.over_on (Nat.le_trans hv.stop_le_stop hm.stop_le)

/-- A stamp on the root is one of ids and flags, and everything else stands behind it. -/
theorem stamped_root (ht : ofBytes t.bytes = .ok t) (hp : Header.parse (.ofBytes t.bytes) 0 = .ok h)
    (hv : v.Fits h) :
    v.Stamped h (.ofBytes t.bytes) (.ofBytes (v.on h t.bytes)) ∧ h.offset = 0 ∧
      v.default? = none ∧ v.stop h ≤ t.root.childrenStart := by
  have hd := (ofBytes_eq_ok_iff.mp ht).2
  obtain ⟨ho, -⟩ := Header.parse_eq_ok hp
  have hstop : h.stop < Window.addressSpace := Form.stop_of_decode hp hd ▸ stop_lt_addressSpace ht
  -- a root has the tag of a form, which has no default to stamp
  have hrole : Role.ofTag h.tag = .form := by
    obtain ⟨h', hp', hd⟩ := bind_eq_ok_iff.mp hd
    obtain rfl := Except.ok.inj (hp.symm.trans hp')
    obtain ⟨fields, hf, -⟩ := bind_eq_ok_iff.mp hd
    rw [Header.requireTag_eq_ok_iff.mp (guard_eq_ok_iff.mp hf).1]
    exact Role.ofTag_form
  have hn : v.default? = none := hv.default_eq_none fun kind hkind => by simp [hrole] at hkind
  exact ⟨⟨Meets.over (.inl hp : t.Meets {} h) hv, hv, ho ▸ hp, hstop⟩, ho, hn,
    Stamp.stop_le_childrenStart hn (ho ▸ hd)⟩

/-- A stamped buffer is the stamped tree. -/
theorem ofBytes_stamp (ht : ofBytes t.bytes = .ok t) (hm : t.Meets limits h) (hv : v.Fits h) :
    ofBytes (v.on h t.bytes) = .ok (t.stamp v h) := by
  have hd := (ofBytes_eq_ok_iff.mp ht).2
  refine ofBytes_eq_ok_iff.mpr ⟨rfl, ?_⟩
  have hroot : t.root.offset = 0 := (Form.decode_eq_ok hd).1
  show _ = Except.ok (t.root.stampAt v h.offset)
  rcases hm with hp | hf
  · obtain ⟨hs, ho, hn, -⟩ := stamped_root ht hp hv
    have hstamped : Form.decode (.ofBytes (v.on h t.bytes)) h.offset 0 = _ := hs.form_decode hn
    rw [ho, hd] at hstamped
    rw [Form.stampAt, if_pos (hroot.trans ho.symm)]
    exact hstamped
  · have hs := (Meets.over (.inr hf) hv).spares hv
    obtain ⟨-, -, -, hlow, -⟩ := Form.decode_eq_ok hd
    -- the record stands behind the header of the root
    have hne : t.root.offset ≠ h.offset := by
      have := hf.bounds.1
      simp only [Field.headerLength] at hlow
      omega
    rw [Form.stampAt, if_neg hne]
    exact hs.decode_before (stop_lt_addressSpace ht) hd hf.bounds.1

/-- The outline of the stamped tree is the outline with the stamp. -/
theorem ofTree_stamp (ht : ofBytes t.bytes = .ok t) (hm : t.Meets limits h) (hv : v.Fits h) :
    Node.ofTree limits (t.stamp v h) = (Node.ofTree limits t).stampAt v h.offset := by
  have hd := (ofBytes_eq_ok_iff.mp ht).2
  obtain ⟨-, -, -, -, -, hle⟩ := Form.decode_eq_ok hd
  rw [Node.ofTree, Node.ofTree, Node.stampAt, window_stamp, childrenStart_stamp]
  refine congrArg (Node.form _) ?_
  rcases hm with hp | hf
  · obtain ⟨hs, ho, hn, hbehind⟩ := stamped_root ht hp hv
    rw [Node.stampAll_children (Nat.lt_of_lt_of_le (v.lt_stop h) hbehind)]
    exact (Node.children_congr (hs.agreeFrom.upTo hle) hbehind).symm
  · have hw := Nat.lt_of_le_of_lt (Nat.le_of_eq (limit_window ht)) (stop_lt_addressSpace ht)
    exact Node.children_stamped hf ((Meets.over (.inr hf) hv).upTo t.root.stop) hv hw

/-- A lookup in the stamped tree answers as in the tree, but for the stamp. -/
theorem lookup_stamp (ht : ofBytes t.bytes = .ok t) (hm : t.Meets walked h) (hv : v.Fits h) :
    Lookup.tree limits (t.stamp v h) name =
      Lookup.stampAnswer v h.offset (Lookup.tree limits t name) := by
  have hd := (ofBytes_eq_ok_iff.mp ht).2
  obtain ⟨-, -, -, -, -, hle⟩ := Form.decode_eq_ok hd
  rw [Lookup.tree, Lookup.tree, name_stamp, window_stamp, childrenStart_stamp]
  split
  · rfl
  rcases hm with hp | hf
  · obtain ⟨hs, -, hn, hbehind⟩ := stamped_root ht hp hv
    exact Lookup.children_behind (hs.agreeFrom.upTo hle) hbehind (.inr hn)
  · have hw := Nat.lt_of_le_of_lt (Nat.le_of_eq (limit_window ht)) (stop_lt_addressSpace ht)
    exact Lookup.children_stamped hf ((Meets.over (.inr hf) hv).upTo t.root.stop) hv hw

/-- **Ids and flags are not looked at.** Let the walk of a tree read the record `h`, and write new
ids and flags on it, and perhaps a new default if it is a numeric option. Then the buffer is a tree
again. Its walk leaves the same report and makes the same calls, but for the stamp on the record
`h`, as far as the callback does not ask for the stamp itself. Under any limits, each lookup gives
the same answer. A new default shows in the bytes of the answer if the lookup ends at the option
that got it. -/
theorem walk_find_stamped (ht : ofBytes b = .ok t) (hm : t.Meets limits h) (hv : v.Fits h) :
    ∃ t', ofBytes (v.on h b) = .ok t' ∧
      (∀ (index : Nat) (refusal? : Event → Option Fault),
        (∀ e, refusal? (e.stampAt v h.offset) = refusal? e) →
        let walk u := Walk.tree (.recorder refusal?) limits index u #[]
        (walk t').1 = (walk t).1 ∧ (walk t').2 = (walk t).2.map (Event.stampAt v h.offset)) ∧
      ∀ (asked : Limits) (form? : Option String) (name : String) (before after : List Tree),
        let found ts := Lookup.find asked form? name ts
        (v.default? = none → found (before ++ t' :: after) = found (before ++ t :: after)) ∧
        found (before ++ t' :: after) =
          match found before, found [t] with
          | .error (.optionNotFound _), .ok d => .ok (d.stampAt v h.offset)
          | _, _ => found (before ++ t :: after) := by
  obtain ⟨rfl, -⟩ := ofBytes_eq_ok_iff.mp ht
  refine ⟨t.stamp v h, ofBytes_stamp ht hm hv, fun index refusal? hblind => ?_,
    fun asked form? name before after =>
      Lookup.find_of_stamped name_stamp (lookup_stamp ht hm hv) form? before after⟩
  have hwalk := Walk.node_blind hblind index (Node.ofTree limits t) #[]
  rw [← ofTree_stamp ht hm hv, Array.map_empty] at hwalk
  exact Prod.mk.inj hwalk

/-- The first number gets other ids and flags and the default 5. -/
theorem walk_find_stamped_twoNumbers :
    let v : Stamp := ⟨⟨7, 8, ⟨9⟩⟩, some 5⟩
    let walk u := Walk.tree (.recorder fun _ => none) {} 0 u #[]
    ∃ t', ofBytes (v.on ⟨45, 0x0104, 60⟩ twoNumbers.bytes) = .ok t' ∧
      ((walk t').1 = (walk twoNumbers).1 ∧
        (walk t').2 = (walk twoNumbers).2.map (Event.stampAt v 45)) ∧
      Lookup.find {} none "a" [t'] = .ok ⟨[5, 0, 0, 0], 73, .numeric⟩ := by
  have ht : ofBytes twoNumbers.bytes = .ok twoNumbers :=
    ofBytes_eq_ok_iff.mpr ⟨rfl, toOption_eq_some_iff.mp (by decide +kernel)⟩
  have hm : twoNumbers.Meets {} ⟨45, 0x0104, 60⟩ :=
    .inr (.here (by decide +kernel) (toOption_eq_some_iff.mp (by decide +kernel)))
  have hfound : Lookup.find {} none "a" [twoNumbers] = .ok ⟨[7, 0, 0, 0], 73, .numeric⟩ :=
    toOption_eq_some_iff.mp (by decide +kernel)
  intro v walk
  obtain ⟨t', ht', hwalk, hfind⟩ := walk_find_stamped ht hm
    (⟨by decide, by decide, fun _ => ⟨⟨.number, by decide⟩, by decide⟩⟩ : v.Fits _)
  refine ⟨t', ht', hwalk 0 (fun _ => none) fun _ => rfl, ?_⟩
  have h := (hfind {} none "a" [] []).2
  simp only [List.nil_append, hfound] at h
  exact h

end Tree

end SetupForms
