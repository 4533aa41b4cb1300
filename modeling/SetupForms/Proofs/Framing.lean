import SetupForms.Proofs.Handover

/-!
# Lists of blocks are framed

Whatever the bytes of a list are, they come apart in one way only: into whole blocks, each of which
starts where the one before ends, and a rest that ends the scan (`Scan.Frames`). The rest is empty,
starts with an end marker, or is malformed, and the fault says how (`Scan.Ending`). A scan finds
just that (`Scan.ofBytes_eq_iff`), and so does whoever asks for one block after the other
(`Iteration.items_eq`). The main statement is `Scan.framing`: what a scan finds, and which bytes
the data of a GUID comes from.

`Scan.Frames` is a specification without an algorithm: it says which rows of blocks, and which rest,
fit the bytes. Two things have to be shown of it. There is such a row for all bytes
(`Scan.exists_frames`), by induction on their number; and a scan finds any such row
(`Scan.blocksFrom_of_frames`), by induction on the row. Together they say that there is no other
row.
-/

namespace SetupForms

/-- What is held is what stands between its ends. -/
theorem Window.Holds.eq_extract {w : Window} {offset : Nat} {bs : List UInt8}
    (h : w.Holds offset bs) : bs = (w.bytes.extract offset (offset + bs.length)).toList := by
  obtain ⟨hl, hx⟩ := holds_extract h.1
  exact h.unique hx hl.symm

namespace Block

variable {type : UInt16} {n : Nat} {bs : List UInt8}

/-- Enough bytes for a header are a header. -/
theorem exists_headed (hl : headerLength ≤ bs.length) : ∃ type n, Headed type n bs := by
  simp only [headerLength] at hl
  have htype : (bs.take 2).length = 2 := List.length_take_of_le (by omega)
  have hlength : ((bs.drop 2).take 2).length = 2 :=
    List.length_take_of_le (by rw [List.length_drop]; omega)
  have hn := Bytes.toNat_lt ((bs.drop 2).take 2)
  rw [hlength] at hn
  refine ⟨UInt16.ofNat (Bytes.toNat (bs.take 2)), Bytes.toNat ((bs.drop 2).take 2), hl, hn, ?_⟩
  have hofNat := Bytes.ofNat_toNat ((bs.drop 2).take 2)
  rw [hlength] at hofNat
  rw [Bytes.ofUInt16_ofNat htype, hofNat]
  refine ⟨(bs.drop 2).drop 2, ?_⟩
  rw [List.append_assoc, List.take_append_drop, List.take_append_drop]

/-- A header is seen in its eight bytes, whatever stands behind them. -/
theorem Headed.append (more : List UInt8) (hb : Headed type n (bs.take headerLength)) :
    Headed type n (bs.take headerLength ++ more) :=
  ⟨by rw [List.length_append]; exact Nat.le_add_right_of_le hb.header, hb.length,
    hb.front.trans (List.prefix_append ..)⟩

/-- The header of a block is in its first eight bytes. -/
theorem Headed.take (hb : Headed type n bs) : Headed type n (bs.take headerLength) := by
  have hl : (bs.take headerLength).length = headerLength := List.length_take_of_le hb.header
  refine ⟨Nat.le_of_eq hl.symm, hb.length, ?_⟩
  refine List.prefix_of_prefix_length_le hb.front (List.take_prefix ..) ?_
  rw [hl, List.length_append, Bytes.length_ofUInt16, Bytes.length_ofNat]
  decide

/-- A block that is read ends before the limit. -/
theorem inside_of_read {w : Window} {offset : Nat} {b : Block}
    (h : read w offset = .ok (some b)) : offset + b.bytes.length ≤ w.limit := by
  obtain ⟨header, -, h⟩ := bind_eq_ok_iff.mp h
  dsimp only at h
  split at h
  · cases h
  · split at h
    · cases h
    · obtain ⟨bytes, hb, hs⟩ := map_eq_ok_iff.mp h
      obtain rfl := Option.some.inj hs
      rw [Window.length_of_slice hb]
      exact (Window.slice_eq_ok_iff.mp hb).2.1

/-- A block with a whole spelling of its own that is neither an end marker nor too short for its
type. -/
structure Sound (b : Block) : Prop extends Whole b.type b.bytes where
  /-- it is no end marker -/
  type : b.type ≠ endOfList
  /-- it is as long as its type asks for -/
  min : minLength b.type ≤ b.bytes.length

/-- Each block starts where the one before ends, and the first one at `offset`. -/
def Tile : Nat → List Block → Prop
  | _, [] => True
  | offset, b :: bs => b.offset = offset ∧ Tile (offset + b.bytes.length) bs

/-- A block is cut out of the front of bytes with a header, if there are enough of them. -/
theorem sound_take (offset : Nat) (hb : Headed type n bs) (htype : type ≠ endOfList)
    (hmin : minLength type ≤ n) (hn : n ≤ bs.length) : Sound ⟨type, offset, bs.take n⟩ := by
  have hl : (bs.take n).length = n := List.length_take_of_le hn
  have hheader : headerLength ≤ n := Nat.le_trans (headerLength_le_minLength type) hmin
  refine ⟨⟨Nat.le_trans hheader (Nat.le_of_eq hl.symm),
    Nat.lt_of_le_of_lt (Nat.le_of_eq hl) hb.length, ?_⟩, htype,
    Nat.le_trans hmin (Nat.le_of_eq hl.symm)⟩
  show _ ++ Bytes.ofNat 2 (bs.take n).length <+: bs.take n
  rw [hl]
  refine List.prefix_of_prefix_length_le hb.front (List.take_prefix ..) ?_
  simp only [headerLength] at hheader
  rw [hl, List.length_append, Bytes.length_ofUInt16, Bytes.length_ofNat]
  omega

end Block

open Block

namespace Scan

variable {w : Window} {offset : Nat} {bs rest : List UInt8} {s : Scan} {bytes : Array UInt8}

/-- How the bytes that are left at `offset` end a scan, and with which fault. -/
inductive Ending (offset : Nat) (bs : List UInt8) : Option Fault → Prop where
  /-- nothing is left -/
  | done : bs = [] → Ending offset bs none
  /-- an end marker, whose length does not count -/
  | marked {n : Nat} : Headed endOfList n bs → Ending offset bs none
  /-- something is left, but no header -/
  | torn : bs ≠ [] → bs.length < headerLength →
    Ending offset bs (some (.truncated offset headerLength bs.length))
  /-- a block that is too short for its type -/
  | short {type : UInt16} {n : Nat} : Headed type n bs → type ≠ endOfList → n < minLength type →
    Ending offset bs
      (some (.recordTooSmall offset type.toUInt32 (UInt32.ofNat n) (minLength type)))
  /-- a block that ends behind the list -/
  | overrun {type : UInt16} {n : Nat} : Headed type n bs → type ≠ endOfList →
    minLength type ≤ n → bs.length < n → Ending offset bs (some (.truncated offset n bs.length))

/-- What the blocks of a scan cover. -/
def covered (s : Scan) : List UInt8 := s.blocks.flatMap Block.bytes

/-- A scan frames bytes that start at `offset` and leaves `rest` of them: its blocks are sound and
stand one behind the other, and the rest ends it. -/
structure Frames (offset : Nat) (s : Scan) (rest : List UInt8) : Prop where
  /-- the blocks stand one behind the other -/
  tile : Tile offset s.blocks
  /-- the blocks are sound -/
  sound : ∀ b ∈ s.blocks, b.Sound
  /-- behind the blocks the scan ends -/
  ending : Ending (offset + s.covered.length) rest s.fault

theorem Frames.cons {b : Block} (hb : b.Sound) (ho : b.offset = offset)
    (h : Frames (offset + b.bytes.length) s rest) :
    Frames offset ⟨b :: s.blocks, s.fault⟩ rest := by
  refine ⟨⟨ho, h.tile⟩, List.forall_mem_cons.mpr ⟨hb, h.sound⟩, ?_⟩
  have hending := h.ending
  rw [covered, List.flatMap_cons, List.length_append, ← Nat.add_assoc]
  exact hending

/-- Any bytes are framed. -/
theorem exists_frames (offset : Nat) (bs : List UInt8) :
    ∃ s rest, bs = s.covered ++ rest ∧ Frames offset s rest := by
  induction hl : bs.length using Nat.strongRecOn generalizing offset bs with
  | ind l ih =>
    -- whatever ends the scan here leaves no block and all of the bytes
    have hend : ∀ fault, Ending offset bs fault →
        ∃ s rest, bs = s.covered ++ rest ∧ Frames offset s rest := fun fault h =>
      ⟨⟨[], fault⟩, bs, rfl, trivial, fun _ hb => absurd hb List.not_mem_nil, h⟩
    by_cases hnil : bs = []
    · exact hend _ (.done hnil)
    by_cases hshort : bs.length < headerLength
    · exact hend _ (.torn hnil hshort)
    obtain ⟨type, n, hb⟩ := exists_headed (Nat.le_of_not_lt hshort)
    by_cases htype : type = endOfList
    · exact hend _ (.marked (htype ▸ hb))
    by_cases hmin : n < minLength type
    · exact hend _ (.short hb htype hmin)
    by_cases hn : bs.length < n
    · exact hend _ (.overrun hb htype (Nat.le_of_not_lt hmin) hn)
    -- a whole block stands in front, and what is behind it is shorter
    have hsound := sound_take offset hb htype (Nat.le_of_not_lt hmin)
      (Nat.le_of_not_lt hn)
    have hheader := headerLength_le_minLength type
    simp only [headerLength] at hheader
    obtain ⟨s, rest, hrest, hs⟩ := ih (bs.drop n).length (by rw [List.length_drop]; omega)
      (offset + (bs.take n).length) (bs.drop n) rfl
    refine ⟨_, rest, ?_, hs.cons hsound rfl⟩
    rw [covered, List.flatMap_cons, List.append_assoc]
    exact (List.take_append_drop n bs).symm.trans (congrArg _ hrest)

/-! ## What a scan finds

A scan reads at an offset what stands there, so the bytes are taken as what the window holds from
the offset to its end. The bound on the size keeps the sums of the reader below the end of the
address space.
-/

/-- At the end a scan finds nothing. -/
theorem blocksFrom_of_le (h : w.stop ≤ offset) : blocksFrom w offset = ⟨[], none⟩ := by
  rw [blocksFrom, if_pos h]

/-- A block that cannot be read ends a scan with its fault. -/
theorem blocksFrom_of_error {f : Fault} (hlt : offset < w.stop)
    (hr : Block.read w offset = .error f) : blocksFrom w offset = ⟨[], some f⟩ := by
  rw [blocksFrom, if_neg (Nat.not_le.mpr hlt)]
  split
  next f' hr' =>
    obtain rfl := Except.error.inj (hr.symm.trans hr')
    rfl
  next hr' => cases hr.symm.trans hr'
  next b hr' => cases hr.symm.trans hr'

section

variable (hsize : bytes.size < 0x8000000000000000)

include hsize

/-- A read of more than is left says how much is left. -/
theorem slice_of_rest {n : Nat} (hall : offset + bs.length = bytes.size) (hlt : bs.length < n)
    (hn : n < 0x10000) :
    (Window.ofBytes bytes).slice offset n = .error (.truncated offset n bs.length) := by
  have haddress : Window.addressSpace = 0x10000000000000000 := rfl
  rw [Window.slice, if_neg (by omega), Window.limit_ofBytes, if_pos (by omega), ← hall,
    Nat.add_sub_cancel_left]

/-- What ends a scan ends it with this fault. -/
theorem blocksFrom_of_ending {fault : Option Fault} (hall : offset + bs.length = bytes.size)
    (h : (Window.ofBytes bytes).Holds offset bs) (hend : Ending offset bs fault) :
    blocksFrom (.ofBytes bytes) offset = ⟨[], fault⟩ := by
  have hw : (Window.ofBytes bytes).limit < Window.addressSpace := by
    rw [Window.limit_ofBytes]
    exact Nat.lt_trans hsize (by decide)
  have hleft : bs ≠ [] → offset < (Window.ofBytes bytes).stop := by
    intro hnil
    have hpos := List.length_pos_iff.mpr hnil
    show offset < bytes.size
    omega
  have hheaded : ∀ {type n}, Headed type n bs → bs ≠ [] := by
    rintro type n hb rfl
    exact absurd hb.header (by decide)
  cases hend with
  | done hnil =>
    obtain rfl := hnil
    exact blocksFrom_of_le (Nat.le_of_eq hall.symm)
  | marked hb =>
    apply blocksFrom_of_end
    rw [read_of_headed hw hb h, if_pos rfl]
  | torn hnil hshort =>
    refine blocksFrom_of_error (hleft hnil) ?_
    rw [Block.read, slice_of_rest hsize hall hshort (by decide)]
    rfl
  | short hb htype hmin =>
    refine blocksFrom_of_error (hleft (hheaded hb)) ?_
    rw [read_of_headed hw hb h, if_neg htype, if_pos hmin]
  | overrun hb htype hmin hn =>
    refine blocksFrom_of_error (hleft (hheaded hb)) ?_
    rw [read_of_headed hw hb h, if_neg htype, if_neg (Nat.not_lt.mpr hmin),
      slice_of_rest hsize hall hn hb.length]
    rfl

/-- A scan finds what frames the bytes from its start on. -/
theorem blocksFrom_of_frames (hs : Frames offset s rest)
    (h : (Window.ofBytes bytes).Holds offset (s.covered ++ rest))
    (hall : offset + (s.covered ++ rest).length = bytes.size) :
    blocksFrom (.ofBytes bytes) offset = s := by
  -- the induction is on the blocks, each of which is read at the offset where it stands
  obtain ⟨blocks, fault⟩ := s
  induction blocks generalizing offset with
  | nil => exact blocksFrom_of_ending hsize hall h hs.ending
  | cons b blocks ih =>
    obtain ⟨⟨rfl, htile⟩, hsound, hending⟩ := hs
    obtain ⟨hb, hsound⟩ := List.forall_mem_cons.mp hsound
    rw [covered, List.flatMap_cons, List.append_assoc] at h hall
    rw [covered, List.flatMap_cons, List.length_append, ← Nat.add_assoc] at hending
    rw [List.length_append, ← Nat.add_assoc] at hall
    have hw : (Window.ofBytes bytes).limit < Window.addressSpace := by
      rw [Window.limit_ofBytes]
      exact Nat.lt_trans hsize (by decide)
    obtain ⟨hbehind, hscan⟩ := blocksFrom_of_whole hw hb.toWhole hb.type hb.min h
    rw [hscan, ih ⟨htile, hsound, hending⟩ hbehind hall]

/-- **A scan finds the one way to frame the bytes.** -/
theorem ofBytes_eq_iff :
    ofBytes bytes = s ↔ ∃ rest, bytes.toList = s.covered ++ rest ∧ Frames 0 s rest := by
  have hfinds : ∀ {s rest}, bytes.toList = s.covered ++ rest → Frames 0 s rest →
      ofBytes bytes = s := by
    intro s rest hrest hs
    refine blocksFrom_of_frames hsize hs (Window.holds_ofBytes_iff.mpr ?_) ?_
    · exact hrest ▸ List.prefix_refl _
    · rw [← hrest, Nat.zero_add, Array.length_toList]
  constructor
  · rintro rfl
    obtain ⟨s, rest, hrest, hs⟩ := exists_frames 0 bytes.toList
    rw [hfinds hrest hs]
    exact ⟨rest, hrest, hs⟩
  · rintro ⟨rest, hrest, hs⟩
    exact hfinds hrest hs

/-- A list that starts like another one up to where the blocks of that one end, and ends there too,
has the same blocks. -/
theorem blocks_of_front {more : Array UInt8} {fault : Option Fault} (hfound : ofBytes more = s)
    (hmore : more.size < 0x8000000000000000) (hfront : s.covered <+: bytes.toList)
    (hend : Ending s.covered.length (bytes.toList.drop s.covered.length) fault) :
    (ofBytes bytes).blocks = s.blocks := by
  obtain ⟨_, -, hs⟩ := (ofBytes_eq_iff hmore).mp hfound
  obtain ⟨rest, hrest⟩ := hfront
  rw [← hrest, List.drop_left] at hend
  rw [← Nat.zero_add s.covered.length] at hend
  have hframes : Frames 0 ⟨s.blocks, fault⟩ rest := ⟨hs.tile, hs.sound, hend⟩
  rw [(ofBytes_eq_iff (s := ⟨s.blocks, fault⟩) hsize).mpr ⟨rest, hrest.symm, hframes⟩]

end

/-! ## One block after the other

Whoever asks for one block at a time keeps an offset and a flag. The flag is set by an end marker
and by a fault, so that nothing is brought after either, however often it is asked.
-/

/-- What is found one after the other: the blocks and then the fault, if there is one. -/
def items (s : Scan) : List (Except Fault Block) := s.blocks.map .ok ++ (s.fault.map .error).toList

end Scan

/-- Where an iteration over a list of blocks stands. -/
structure Iteration where
  /-- where the next block starts -/
  offset : Nat
  /-- whether an end marker or a fault was met -/
  done : Bool

namespace Iteration

variable {w : Window} {offset : Nat}

/-- The next block or fault, if there is one, and where the iteration stands then. -/
def next (w : Window) (i : Iteration) : Option (Except Fault Block) × Iteration :=
  if i.done ∨ w.stop ≤ i.offset then (none, i)
  else
    match Block.read w i.offset with
    | .ok none => (none, { i with done := true })
    | .ok (some b) => (some (.ok b), { i with offset := i.offset + b.bytes.length })
    | .error f => (some (.error f), { i with done := true })

/-- What `n` requests for the next item bring, up to the first one that brings none. -/
def items (w : Window) : Nat → Iteration → List (Except Fault Block)
  | 0, _ => []
  | n + 1, i =>
    match i.next w with
    | (none, _) => []
    | (some item, i) => item :: items w n i

/-- An iteration that is done brings nothing more. -/
theorem items_of_done (n : Nat) : items w n ⟨offset, true⟩ = [] := by
  cases n with
  | zero => rfl
  | succ n => rw [items, next, if_pos (.inl rfl)]

/-- Behind a block that is read one round less is needed. -/
theorem rounds_of_read {n : Nat} {b : Block} (hr : Block.read w offset = .ok (some b))
    (hn : (w.stop - offset) / 8 < n + 1) : (w.stop - (offset + b.bytes.length)) / 8 < n := by
  have hlen := length_of_read hr
  have hinside := inside_of_read hr
  have hw : w.limit ≤ w.stop := Nat.min_le_left ..
  simp only [headerLength] at hlen
  omega

/-- **An iteration ends**, and has then brought what a scan finds. A request for every eight bytes
and one more is enough. -/
theorem items_eq {n : Nat} (hn : (w.stop - offset) / 8 < n) :
    items w n ⟨offset, false⟩ = (Scan.blocksFrom w offset).items := by
  induction n generalizing offset with
  | zero => omega
  | succ n ih =>
    rw [items, next]
    by_cases hlt : offset < w.stop
    · rw [if_neg (by simpa using hlt)]
      rcases hr : Block.read w offset with f | _ | b
      · rw [Scan.blocksFrom_of_error hlt hr]
        simp only [items_of_done]
        rfl
      · rw [Scan.blocksFrom_of_end hr]
        rfl
      · rw [Scan.blocksFrom_of_block hlt hr]
        simp only
        rw [ih (rounds_of_read hr hn)]
        rfl
    · rw [if_pos (.inr (Nat.le_of_not_lt hlt)), Scan.blocksFrom_of_le (Nat.le_of_not_lt hlt)]
      rfl

end Iteration

/-! ## What is found, and where it stands

So far a block is known by its bytes. Here it is compared with the list as it lies in memory: the
words of its header are where its offset says, and its bytes are those of the list.
-/

/-- The 16-bit word that stands at `offset`. -/
def Bytes.wordAt (bytes : Array UInt8) (offset : Nat) : Nat :=
  toNat (bytes.extract offset (offset + 2)).toList

/-- A block as its own header cuts it out of a list. -/
structure Block.CutFrom (list : Array UInt8) (b : Block) : Prop where
  /-- the type stands in front -/
  type : b.type.toNat = Bytes.wordAt list b.offset
  /-- it is no end marker -/
  unmarked : b.type ≠ 0xffff
  /-- it has room for a header -/
  header : 8 ≤ Bytes.wordAt list (b.offset + 2)
  /-- and for a GUID if it is a GUID extension -/
  extension : b.type = 0x0004 → 24 ≤ Bytes.wordAt list (b.offset + 2)
  /-- it ends in the list -/
  inside : b.offset + Bytes.wordAt list (b.offset + 2) ≤ list.size
  /-- it is what stands there, as long as its length says -/
  bytes : b.bytes = (list.extract b.offset (b.offset + Bytes.wordAt list (b.offset + 2))).toList

namespace Block

variable {bytes : Array UInt8} {offset : Nat}

/-- Blocks that stand one behind the other stand each at its offset. -/
theorem Tile.holds {w : Window} {blocks : List Block} (ht : Tile offset blocks)
    (h : w.Holds offset (blocks.flatMap Block.bytes)) : ∀ b ∈ blocks, w.Holds b.offset b.bytes := by
  induction blocks generalizing offset with
  | nil => exact fun _ hb => absurd hb List.not_mem_nil
  | cons b blocks ih =>
    obtain ⟨rfl, ht⟩ := ht
    rw [List.flatMap_cons, Window.holds_append] at h
    exact List.forall_mem_cons.mpr ⟨h.1, ih ht h.2⟩

/-- A word that is held can be seen. -/
theorem wordAt_of_holds {n : Nat} (h : (Window.ofBytes bytes).Holds offset (Bytes.ofNat 2 n))
    (hn : n < 0x10000) : Bytes.wordAt bytes offset = n := by
  have hword := h.eq_extract
  rw [Bytes.length_ofNat] at hword
  show Bytes.toNat ((Window.ofBytes bytes).bytes.extract offset (offset + 2)).toList = n
  rw [← hword, Bytes.toNat_ofNat]
  exact Nat.mod_eq_of_lt hn

/-- A sound block is cut out of the list in which it stands. -/
theorem Sound.cutFrom {b : Block} (hb : b.Sound)
    (h : (Window.ofBytes bytes).Holds b.offset b.bytes) : b.CutFrom bytes := by
  obtain ⟨rest, hrest⟩ := hb.front
  have hfront := h
  rw [← hrest, List.append_assoc, Window.holds_append, Window.holds_append,
    Bytes.length_ofUInt16] at hfront
  have hlength := wordAt_of_holds hfront.2.1 hb.length
  refine ⟨(wordAt_of_holds hfront.1 b.type.toNat_lt).symm, hb.type, ?_, fun htype => ?_, ?_, ?_⟩
  · exact hlength ▸ hb.header
  · have hmin := hb.min
    rw [minLength, if_pos (show b.type = guidExtension from htype)] at hmin
    exact hlength ▸ hmin
  · rw [hlength]
    exact Nat.le_trans h.1 (Nat.le_of_eq (Window.limit_ofBytes bytes))
  · rw [hlength]
    exact h.eq_extract

/-- A block has data under a GUID exactly if it is a GUID extension that bears the wire bytes of
that GUID. -/
theorem guid?_eq_some_iff {b : Block} {g : Guid} {data : List UInt8} :
    b.guid? = some (g, data) ↔
      (b.type = 0x0004 ∧ (b.bytes.drop 8).take 16 = g.toBytes) ∧ data = b.bytes.drop 24 := by
  by_cases htype : b.type = guidExtension
  · rw [guid?, if_pos htype, Option.map_eq_some_iff]
    constructor
    · rintro ⟨g', hg, hb⟩
      obtain ⟨rfl, rfl⟩ := Prod.mk.inj hb
      exact ⟨⟨htype, Guid.ofBytes?_eq_some_iff.mp hg⟩, rfl⟩
    · rintro ⟨⟨-, hg⟩, rfl⟩
      exact ⟨g, Guid.ofBytes?_eq_some_iff.mpr hg, rfl⟩
  · rw [guid?, if_neg htype]
    constructor
    · intro h
      cases h
    · rintro ⟨⟨h, -⟩, -⟩
      exact absurd h htype

end Block

namespace Scan

variable {bytes : Array UInt8} {s : Scan} {g : Guid}

/-- The data of a GUID is what stands behind the first 24 bytes of the GUID extensions that bear
it. -/
theorem guidData_eq (s : Scan) (g : Guid) :
    s.guidData g =
      (s.blocks.filter fun b =>
        b.type = 0x0004 ∧ (b.bytes.drop 8).take 16 = g.toBytes).map fun b => b.bytes.drop 24 := by
  obtain ⟨blocks, fault⟩ := s
  induction blocks with
  | nil => rfl
  | cons b blocks ih =>
    rw [List.filter_cons]
    by_cases hbears : b.type = 0x0004 ∧ (b.bytes.drop 8).take 16 = g.toBytes
    · rw [if_pos (decide_eq_true hbears), List.map_cons, ← ih,
        guidData_cons_of_some (guid?_eq_some_iff.mpr ⟨hbears, rfl⟩), if_pos rfl]
    · rw [if_neg (by simpa using hbears), ← ih]
      cases hb : b.guid? with
      | none => exact guidData_cons_of_none hb
      | some named =>
        have hname : named.1 ≠ g := by
          rintro rfl
          exact hbears (guid?_eq_some_iff.mp hb).1
        rw [guidData_cons_of_some hb, if_neg hname]

/-- The bytes at `offset` end a scan with a fault. -/
def Malformed (offset : Nat) (bs : List UInt8) : Prop := ∃ f, Ending offset bs (some f)

/-- **A scan frames any list.** Its blocks are found one after the other, with at most one fault
behind them. They stand one behind the other from the start on, each as its own header cuts it out
of the list, and behind them the list is at its end, at an end marker or malformed. The data of a
GUID comes from the extensions that bear it. It is the same in every list that goes the same way up
to and with the header of the end marker, or up to the first malformed block if it is malformed
there too. -/
theorem framing (bytes : Array UInt8) (hsize : bytes.size < 0x8000000000000000) :
    let s := ofBytes bytes
    let stop := s.covered.length
    (∀ n, bytes.size / 8 < n → Iteration.items (.ofBytes bytes) n ⟨0, false⟩ = s.items) ∧
      Tile 0 s.blocks ∧ (∀ b ∈ s.blocks, b.CutFrom bytes) ∧
      Ending stop (bytes.toList.drop stop) s.fault ∧
      (∀ g, s.guidData g =
        (s.blocks.filter fun b =>
          b.type = 0x0004 ∧ (b.bytes.drop 8).take 16 = g.toBytes).map fun b => b.bytes.drop 24) ∧
      ∀ bytes' : Array UInt8, bytes'.size < 0x8000000000000000 →
        ((∃ n, Headed endOfList n (bytes.toList.drop stop)) ∧
            bytes.toList.take (stop + 8) <+: bytes'.toList ∨
          Malformed stop (bytes.toList.drop stop) ∧ Malformed stop (bytes'.toList.drop stop) ∧
            bytes.toList.take stop <+: bytes'.toList) →
        ∀ g, (ofBytes bytes').guidData g = s.guidData g := by
  intro s stop
  obtain ⟨rest, hrest, hs⟩ := (ofBytes_eq_iff hsize).mp (show ofBytes bytes = s from rfl)
  have hcovered : (Window.ofBytes bytes).Holds 0 s.covered :=
    Window.holds_ofBytes_iff.mpr ⟨rest, hrest.symm⟩
  have hdrop : bytes.toList.drop stop = rest := by rw [hrest, List.drop_left]
  refine ⟨fun n hn => ?_, hs.tile, fun b hb => ?_, ?_, guidData_eq s, ?_⟩
  · exact Iteration.items_eq hn
  · exact (hs.sound b hb).cutFrom (hs.tile.holds hcovered b hb)
  · rw [hdrop, ← Nat.zero_add stop]
    exact hs.ending
  · intro bytes' hsize' halike g
    suffices hblocks : (ofBytes bytes').blocks = s.blocks by
      rw [guidData, hblocks]
      rfl
    have htake : bytes.toList.take stop = s.covered := by rw [hrest, List.take_left]
    have hfront : s.covered <+: bytes.toList.take stop := htake ▸ List.prefix_refl _
    rcases halike with ⟨⟨n, hmark⟩, hsame⟩ | ⟨-, ⟨f, hmalformed⟩, hsame⟩
    · rw [hdrop] at hmark
      have htake : bytes.toList.take (stop + 8) = s.covered ++ rest.take 8 := by
        rw [hrest, List.take_length_add_append]
      obtain ⟨more, hmore⟩ := hsame
      rw [htake, List.append_assoc] at hmore
      have hending : Ending stop (bytes'.toList.drop stop) none := by
        rw [← hmore, List.drop_left]
        exact .marked (hmark.take.append more)
      exact blocks_of_front hsize' rfl hsize (hmore ▸ List.prefix_append ..) hending
    · exact blocks_of_front hsize' rfl hsize (hfront.trans hsame) hmalformed

/-- A block of another type, a GUID extension and an end marker, with something behind them. -/
def sampleList (behind : List UInt8) : Array UInt8 :=
  ([2, 0, 9, 0, 0, 0, 0, 0, 7] ++
    ([4, 0, 26, 0, 0, 0, 0, 0] ++ Guid.setupMenu.toBytes ++ [1, 2]) ++ encodeEnd ++ behind).toArray

/-- Behind an end marker nothing counts, not even the start of another block. -/
theorem framing_sampleList :
    (ofBytes (sampleList [])).guidData Guid.setupMenu = [[1, 2]] ∧
      ∀ g, (ofBytes (sampleList [4, 0])).guidData g = (ofBytes (sampleList [])).guidData g := by
  have hscan : ofBytes (sampleList []) =
      ⟨[⟨2, 0, [2, 0, 9, 0, 0, 0, 0, 0, 7]⟩,
        ⟨4, 9, [4, 0, 26, 0, 0, 0, 0, 0] ++ Guid.setupMenu.toBytes ++ [1, 2]⟩], none⟩ := by
    decide +kernel
  obtain ⟨-, -, -, -, hdata, hsame⟩ := framing (sampleList []) (by decide +kernel)
  refine ⟨?_, hsame (sampleList [4, 0]) (by decide +kernel) (.inl ⟨⟨8, ?_, by decide, ?_⟩, ?_⟩)⟩
  · rw [hdata, hscan]
    decide +kernel
  all_goals
    rw [hscan]
    decide +kernel

end Scan

end SetupForms
