import SetupForms.Blueprint
import SetupForms.Handoff
import SetupForms.Proofs.GuidForms
import SetupForms.Proofs.Padding

/-!
# The hand-off is transparent

Blobs are handed over in blocks under a GUID, between blocks of other GUIDs and of other types
(`Block.Packs`). A scan gives out just these blobs, each with the zeros that fill up its block
(`Scan.guidData_of_packs`). The zeros stand behind the root, where nobody looks, so that walks,
lookups and menus are those of the blobs themselves (`Scan.handover`).

Three facts make the hand-off transparent. The header of a block is found where the block before it
ends, whatever the block holds, so blocks of other kinds are passed over. The payload of a block is
the blob with fewer than eight zeros behind it. And a tree does not depend on what follows its root
(`Tree.ofBytes_append`, from `Padding`), so that the zeros change nothing.
-/

namespace SetupForms

universe u

namespace Block

variable {w : Window} {g g' : Guid} {offset : Nat} {type : UInt16} {bs data : List UInt8}

/-! ## Whole blocks

A block is read in two steps: the header says how long it is, and then as many bytes are taken. The
statements are about bytes that are held, so that they can be put one behind the other.
-/

/-- What is read where the header of a block stands. -/
theorem read_of_header {n : Nat} {reserved : List UInt8} (hr : reserved.length = 4)
    (hn : n < 0x10000) (ha : offset + headerLength < Window.addressSpace)
    (h : w.Holds offset (Bytes.ofUInt16 type ++ (Bytes.ofNat 2 n ++ reserved))) :
    read w offset =
      if type = endOfList then .ok none
      else if n < minLength type then
        .error (.recordTooSmall offset type.toUInt32 (UInt32.ofNat n) (minLength type))
      else (w.slice offset n).map fun bytes => some ⟨type, offset, bytes⟩ := by
  have hs : w.slice offset headerLength = .ok _ :=
    Window.slice_eq_ok_iff_holds.mpr ⟨ha, by simp [headerLength, hr], h⟩
  have hn' : Bytes.toNat (Bytes.ofNat 2 n) = n := by
    rw [Bytes.toNat_ofNat]
    exact Nat.mod_eq_of_lt hn
  rw [read, hs]
  simp only [bind, Except.bind, List.take_left' (Bytes.length_ofUInt16 type),
    List.drop_left' (Bytes.length_ofUInt16 type), List.take_left' (Bytes.length_ofNat 2 n),
    Bytes.toNat_ofUInt16, UInt16.ofNat_toNat, hn']
  rfl

/-- Bytes that start with the header of a block, which gives its type and its length. -/
structure Headed (type : UInt16) (n : Nat) (bs : List UInt8) : Prop where
  /-- there is a header -/
  header : headerLength ≤ bs.length
  /-- the length is a 16-bit word -/
  length : n < 0x10000
  /-- type and length stand in front -/
  front : Bytes.ofUInt16 type ++ Bytes.ofNat 2 n <+: bs

/-- Bytes that are a whole block: a type, the length of all of them and whatever follows. -/
structure Whole (type : UInt16) (bs : List UInt8) : Prop where
  /-- there is a header -/
  header : headerLength ≤ bs.length
  /-- the length is a 16-bit word -/
  length : bs.length < 0x10000
  /-- type and length stand in front -/
  front : Bytes.ofUInt16 type ++ Bytes.ofNat 2 bs.length <+: bs

/-- A whole block starts with a header that gives its own length. -/
theorem Whole.headed (hb : Whole type bs) : Headed type bs.length bs :=
  ⟨hb.header, hb.length, hb.front⟩

/-- What is read where bytes with a header stand. -/
theorem read_of_headed {n : Nat} (hw : w.limit < Window.addressSpace) (hb : Headed type n bs)
    (h : w.Holds offset bs) :
    read w offset =
      if type = endOfList then .ok none
      else if n < minLength type then
        .error (.recordTooSmall offset type.toUInt32 (UInt32.ofNat n) (minLength type))
      else (w.slice offset n).map fun bytes => some ⟨type, offset, bytes⟩ := by
  obtain ⟨rest, hrest⟩ := hb.front
  have hl := h.1
  have hlen : 2 + (2 + rest.length) = bs.length := by simpa using congrArg List.length hrest
  have hheader := hb.header
  simp only [headerLength] at hheader
  -- the header ends with the first four bytes behind type and length
  rw [← hrest, List.append_assoc, Window.holds_append, Window.holds_append] at h
  obtain ⟨htypes, hlengths, hrests⟩ := h
  obtain ⟨reserved, body, rfl, hr, hreserved, -⟩ := hrests.split (n := 4) (by omega)
  have hhead := Window.holds_append.mpr ⟨htypes, Window.holds_append.mpr ⟨hlengths, hreserved⟩⟩
  exact read_of_header hr hb.length (by simp only [headerLength]; omega) hhead

/-- A whole block is read where it stands. -/
theorem read_of_whole (hw : w.limit < Window.addressSpace) (hb : Whole type bs)
    (htype : type ≠ endOfList) (hmin : minLength type ≤ bs.length) (h : w.Holds offset bs) :
    read w offset = .ok (some ⟨type, offset, bs⟩) := by
  have hl := h.1
  rw [read_of_headed hw hb.headed h, if_neg htype, if_neg (Nat.not_lt.mpr hmin),
    Window.slice_eq_ok_iff_holds.mpr ⟨by omega, rfl, h⟩]
  rfl

/-- The end marker is read where it stands. -/
theorem read_encodeEnd (hw : w.limit < Window.addressSpace) (h : w.Holds offset encodeEnd) :
    read w offset = .ok none := by
  have hl := h.1
  rw [encodeEnd, List.append_assoc] at h
  rw [read_of_header rfl (by decide) (Nat.lt_of_le_of_lt hl hw) h, if_pos rfl]

/-! ## Encoded blocks

A block is filled up with zeros to a multiple of eight bytes, and its length counts them. What a
reader takes out of it is therefore the data with zeros, and it cannot tell how many of them were
put there.
-/

/-- The data of a block is what was to be handed over and up to seven zeros, with which the block is
a multiple of eight bytes long. -/
def Padded (blob data : List UInt8) : Prop :=
  ∃ n < 8, data = blob ++ List.replicate n 0 ∧ 8 ∣ extensionLength + data.length

/-- Data is too long for a block exactly if the padded block has no 16-bit length. -/
theorem encode_eq_error_iff :
    (∃ f, encode g data = .error f) ↔ 65535 < (24 + data.length + 7) / 8 * 8 := by
  have hlen : paddedLength data.length = (24 + data.length + 7) / 8 * 8 := rfl
  rw [encode, hlen]
  constructor
  · rintro ⟨f, hf⟩
    split at hf
    · cases hf
    · omega
  · intro h
    exact ⟨_, if_neg (by omega)⟩

/-- The parts of an encoded block, of which the zeros at the end are fewer than eight. -/
theorem parts_of_encode (h : encode g data = .ok bs) :
    ∃ n < 8, 8 ∣ bs.length ∧ bs.length < 0x10000 ∧
      bs = Bytes.ofUInt16 guidExtension ++ Bytes.ofNat 2 bs.length ++ List.replicate 4 0 ++
        (g.toBytes ++ (data ++ List.replicate n 0)) := by
  -- rounding up adds fewer than eight
  have hround : extensionLength + data.length ≤ paddedLength data.length ∧
      paddedLength data.length < extensionLength + data.length + 8 ∧
        8 ∣ paddedLength data.length := by
    rw [paddedLength]
    omega
  rw [encode] at h
  split at h
  next hfits =>
    have hbs := Except.ok.inj h
    have hlen : bs.length = paddedLength data.length := by
      rw [← hbs]
      simp only [List.length_append, Bytes.length_ofUInt16, Bytes.length_ofNat,
        List.length_replicate, Guid.length_toBytes]
      simp only [extensionLength, headerLength, Guid.size] at hround ⊢
      omega
    refine ⟨paddedLength data.length - (extensionLength + data.length), by omega, ?_, ?_, ?_⟩
    · exact hlen ▸ hround.2.2
    · exact hlen ▸ hfits
    · rw [hlen, ← hbs]
      simp only [List.append_assoc]
  next => cases h

/-- An encoded block is a whole GUID extension and carries its data with padding. -/
theorem exists_of_encode (h : encode g data = .ok bs) :
    Whole guidExtension bs ∧ extensionLength ≤ bs.length ∧
      ∃ padded, Padded data padded ∧
        ∀ offset, guid? ⟨guidExtension, offset, bs⟩ = some (g, padded) := by
  obtain ⟨n, hn, hdvd, hlt, hbs⟩ := parts_of_encode h
  have hlen : bs.length = extensionLength + (data ++ List.replicate n 0).length := by
    have hparts := congrArg List.length hbs
    simp only [List.length_append, Bytes.length_ofUInt16, Bytes.length_ofNat,
      List.length_replicate, Guid.length_toBytes] at hparts
    simp only [List.length_append, List.length_replicate, extensionLength, headerLength, Guid.size]
    omega
  have hmin : extensionLength ≤ bs.length := by omega
  refine ⟨⟨Nat.le_trans (Nat.le_add_right ..) hmin, hlt, ?_⟩, hmin,
    data ++ List.replicate n 0, ⟨n, hn, rfl, hlen ▸ hdvd⟩, fun offset => ?_⟩
  · refine ⟨List.replicate 4 0 ++ (g.toBytes ++ (data ++ List.replicate n 0)), ?_⟩
    rw [← List.append_assoc]
    exact hbs.symm
  · have hname : bs.drop headerLength = g.toBytes ++ (data ++ List.replicate n 0) := by
      rw [hbs]
      exact List.drop_left' (by simp [headerLength])
    have hdata : bs.drop extensionLength = data ++ List.replicate n 0 := by
      rw [extensionLength, ← List.drop_drop, hname]
      exact List.drop_left' (Guid.length_toBytes g)
    have htake : (bs.drop headerLength).take Guid.size = g.toBytes := by
      rw [hname]
      exact List.take_left' (Guid.length_toBytes g)
    rw [guid?, if_pos rfl, htake, hdata, Guid.ofBytes?_toBytes]
    rfl

/-- A list is packed from blocks in any order: blocks of a GUID with the given blobs, blocks of
other GUIDs, and blocks that are neither GUID extensions nor end markers. -/
inductive Packs (g : Guid) : List UInt8 → List (List UInt8) → Prop where
  /-- an empty list holds no blob -/
  | nil : Packs g [] []
  /-- a block of the GUID adds its blob -/
  | own {blob bs rest : List UInt8} {blobs : List (List UInt8)} :
      encode g blob = .ok bs → Packs g rest blobs → Packs g (bs ++ rest) (blob :: blobs)
  /-- a block of another GUID adds nothing -/
  | foreign {g' : Guid} {data bs rest : List UInt8} {blobs : List (List UInt8)} :
      g' ≠ g → encode g' data = .ok bs → Packs g rest blobs → Packs g (bs ++ rest) blobs
  /-- nor does a block of another type -/
  | other {type : UInt16} {bs rest : List UInt8} {blobs : List (List UInt8)} :
      type ≠ guidExtension → type ≠ endOfList → Whole type bs → Packs g rest blobs →
      Packs g (bs ++ rest) blobs

end Block

open Block

namespace Scan

variable {w : Window} {g : Guid} {offset : Nat} {bs : List UInt8} {blobs : List (List UInt8)}

/-- At an end marker a scan finds nothing more. -/
theorem blocksFrom_of_end (hr : Block.read w offset = .ok none) :
    blocksFrom w offset = ⟨[], none⟩ := by
  rw [blocksFrom]
  split
  · rfl
  · split
    next f hr' => cases hr.symm.trans hr'
    next => rfl
    next b hr' => cases hr.symm.trans hr'

/-- A block that is read is found first, and then what a scan from its end on finds. -/
theorem blocksFrom_of_block {b : Block} (hlt : offset < w.stop)
    (hr : Block.read w offset = .ok (some b)) :
    blocksFrom w offset =
      ⟨b :: (blocksFrom w (offset + b.bytes.length)).blocks,
        (blocksFrom w (offset + b.bytes.length)).fault⟩ := by
  rw [blocksFrom, if_neg (by omega)]
  split
  next f hr' => cases hr.symm.trans hr'
  next hr' => cases hr.symm.trans hr'
  next b' hr' =>
    obtain rfl := Option.some.inj (Except.ok.inj (hr.symm.trans hr'))
    rfl

/-- A block with data counts for its own GUID only. -/
theorem guidData_cons_of_some {b : Block} {blocks : List Block} {fault : Option Fault} {name : Guid}
    {data : List UInt8} (hb : b.guid? = some (name, data)) :
    guidData ⟨b :: blocks, fault⟩ g =
      if name = g then data :: guidData ⟨blocks, fault⟩ g else guidData ⟨blocks, fault⟩ g := by
  by_cases hn : name = g
  · simp [guidData, hb, hn]
  · simp [guidData, hb, hn]

/-- A block without data does not count. -/
theorem guidData_cons_of_none {b : Block} {blocks : List Block} {fault : Option Fault}
    (hb : b.guid? = none) : guidData ⟨b :: blocks, fault⟩ g = guidData ⟨blocks, fault⟩ g := by
  simp [guidData, hb]

/-- A scan goes on behind a whole block. -/
theorem blocksFrom_of_whole {type : UInt16} {rest : List UInt8} (hw : w.limit < Window.addressSpace)
    (hb : Whole type bs) (htype : type ≠ endOfList) (hmin : minLength type ≤ bs.length)
    (h : w.Holds offset (bs ++ rest)) :
    w.Holds (offset + bs.length) rest ∧
      blocksFrom w offset =
        ⟨⟨type, offset, bs⟩ :: (blocksFrom w (offset + bs.length)).blocks,
          (blocksFrom w (offset + bs.length)).fault⟩ := by
  obtain ⟨hhere, hrest⟩ := Window.holds_append.mp h
  refine ⟨hrest, blocksFrom_of_block ?_ (read_of_whole hw hb htype hmin hhere)⟩
  have hl := hhere.1
  have hheader := hb.header
  have hle : w.limit ≤ w.stop := Nat.min_le_left ..
  simp only [headerLength] at hheader
  omega

/-- A scan that starts where blocks are packed gives out their blobs. -/
theorem guidData_of_packs (hw : w.limit < Window.addressSpace) (hp : Packs g bs blobs)
    (h : w.Holds offset (bs ++ encodeEnd)) :
    List.Forall₂ Padded blobs ((blocksFrom w offset).guidData g) := by
  -- the induction is on how the list was packed; the scan goes on where the block ends
  induction hp generalizing offset with
  | nil =>
    rw [blocksFrom_of_end (read_encodeEnd hw h)]
    exact .nil
  | own he _ ih =>
    obtain ⟨hb, hmin, padded, hpadded, hguid⟩ := exists_of_encode he
    rw [List.append_assoc] at h
    obtain ⟨hrest, hscan⟩ := blocksFrom_of_whole hw hb (by decide) hmin h
    rw [hscan, guidData_cons_of_some (hguid offset), if_pos rfl]
    exact .cons hpadded (ih hrest)
  | foreign hne he _ ih =>
    obtain ⟨hb, hmin, padded, -, hguid⟩ := exists_of_encode he
    rw [List.append_assoc] at h
    obtain ⟨hrest, hscan⟩ := blocksFrom_of_whole hw hb (by decide) hmin h
    rw [hscan, guidData_cons_of_some (hguid offset), if_neg hne]
    exact ih hrest
  | @other type bs _ _ hext hend hb _ ih =>
    have hmin : minLength type ≤ bs.length := by
      rw [minLength, if_neg hext]
      exact hb.header
    have hguid : guid? ⟨type, offset, bs⟩ = none := if_neg hext
    rw [List.append_assoc] at h
    obtain ⟨hrest, hscan⟩ := blocksFrom_of_whole hw hb hend hmin h
    rw [hscan, guidData_cons_of_none hguid]
    exact ih hrest

/-- Of padded blobs the trees are those of the blobs, up to what stands behind the roots. -/
theorem alike_of_padded {datas : List (List UInt8)} (hd : List.Forall₂ Padded blobs datas)
    (hb : ∀ b ∈ blobs, ∃ t, Tree.ofBytes b.toArray = .ok t) :
    ∃ ts, Tree.ofBuffers (blobs.map List.toArray) = .ok ts ∧ ts.length = blobs.length ∧
      List.Forall₂ Tree.Alike ts
        (datas.filterMap fun data => (Tree.ofBytes data.toArray).toOption) := by
  induction hd with
  | nil => exact ⟨[], rfl, rfl, .nil⟩
  | @cons blob _ _ _ hpad _ ih =>
    obtain ⟨⟨t, ht⟩, hrest⟩ := List.forall_mem_cons.mp hb
    obtain ⟨n, -, rfl, -⟩ := hpad
    obtain ⟨ts, hts, hlen, halike⟩ := ih hrest
    obtain ⟨t', ht', htt'⟩ := Tree.ofBytes_append (List.replicate n 0).toArray ht
    rw [List.append_toArray] at ht'
    refine ⟨t :: ts, bind_eq_ok_iff.mpr ⟨t, ht, bind_eq_ok_iff.mpr ⟨ts, hts, rfl⟩⟩,
      congrArg (· + 1) hlen, ?_⟩
    have hsome : (Tree.ofBytes (blob ++ List.replicate n 0).toArray).toOption = some t' :=
      toOption_eq_some_iff.mpr ht'
    rw [List.filterMap_cons, hsome]
    exact .cons htt' halike

/-- **The hand-off is transparent.** Let blobs, each of which is a tree, be packed with other blocks
in a list, with the end marker and anything behind it. Then the data of their GUID is the blobs with
padding, the list has as many trees as there are blobs, with the roots of the blobs, and walks,
lookups and menus over either trees are the same. Data that does not fit in a block is all that
cannot be handed over. -/
theorem handover (trailing : List UInt8) (hp : Packs g bs blobs)
    (hb : ∀ b ∈ blobs, ∃ t, Tree.ofBytes b.toArray = .ok t)
    (hsize : (bs ++ encodeEnd ++ trailing).length < Window.addressSpace) :
    let scan := ofBytes (bs ++ encodeEnd ++ trailing).toArray
    List.Forall₂ Padded blobs (scan.guidData g) ∧
      (∃ ts, Tree.ofBuffers (blobs.map List.toArray) = .ok ts ∧
        (scan.trees g).length = blobs.length ∧
        (scan.trees g).map Tree.root = ts.map Tree.root ∧
        (∀ {σ : Type u} (f : Callback σ) (limits : Limits) (first : Nat) (s : σ),
          Walk.trees f limits first (scan.trees g) s = Walk.trees f limits first ts s) ∧
        (∀ (limits : Limits) (form? : Option String) (name : String),
          Lookup.find limits form? name (scan.trees g) = Lookup.find limits form? name ts) ∧
        ∀ (settings : Menu.Settings) (limits : Limits) (policy : Menu.Policy) (store : Store),
          Menu.build settings limits policy (scan.trees g) store =
            Menu.build settings limits policy ts store) ∧
      ∀ data, (∃ f, encode g data = .error f) ↔ 65535 < (24 + data.length + 7) / 8 * 8 := by
  intro scan
  have hheld : (Window.ofBytes (bs ++ encodeEnd ++ trailing).toArray).Holds 0 (bs ++ encodeEnd) :=
    Window.holds_ofBytes_iff.mpr (List.prefix_append ..)
  have hdata : List.Forall₂ Padded blobs (scan.guidData g) :=
    guidData_of_packs (by simpa using hsize) hp hheld
  obtain ⟨ts, hts, hlen, halike⟩ := alike_of_padded hdata hb
  refine ⟨hdata, ⟨ts, hts, ?_, ?_, ?_, ?_, ?_⟩, fun data => encode_eq_error_iff⟩
  · exact halike.length_eq.symm.trans hlen
  · have hroots : List.Forall₂ (· = ·) (ts.map Tree.root) ((scan.trees g).map Tree.root) :=
      List.forall₂_map_left_iff.mpr <|
        List.forall₂_map_right_iff.mpr (halike.imp fun _ _ h => h.root)
    rw [List.forall₂_eq_eq_eq] at hroots
    exact hroots.symm
  · exact fun f limits first s => (Walk.trees_congr f first s halike).symm
  · exact fun limits form? name => (Lookup.find_congr form? halike).symm
  · exact fun settings limits policy store => (Menu.build_congr settings policy store halike).symm

/-- A form without children. -/
def sampleBlob : List UInt8 :=
  Blueprint.encode (.form ⟨1, 0, ⟨0⟩⟩ (some (.text .label "Boot")) [] none)

/-- The form in a block between one of another GUID and one of another type. -/
def samplePack : Except Fault (List UInt8) := do
  let foreign ← encode ⟨1, 2, 3, #v[0, 0, 0, 0, 0, 0, 0, 0]⟩ [7]
  let own ← encode Guid.setupMenu sampleBlob
  return foreign ++ (own ++ ([2, 0, 9, 0, 0, 0, 0, 0, 7] ++ []))

/-- One blob between a block of another GUID and one of another type. -/
theorem handover_samplePack :
    ∃ bs ts, samplePack = .ok bs ∧ Tree.ofBuffers [sampleBlob.toArray] = .ok ts ∧
      ((ofBytes (bs ++ encodeEnd ++ [4]).toArray).trees Guid.setupMenu).map Tree.root =
        ts.map Tree.root := by
  have hforeign : encode ⟨1, 2, 3, #v[0, 0, 0, 0, 0, 0, 0, 0]⟩ [7] = .ok _ := rfl
  have hown : encode Guid.setupMenu sampleBlob = .ok _ := rfl
  have hother : Whole 2 [2, 0, 9, 0, 0, 0, 0, 0, 7] := ⟨by decide, by decide, by decide⟩
  have htrees : ∀ b ∈ [sampleBlob], ∃ t, Tree.ofBytes b.toArray = .ok t := by
    intro b hb
    obtain rfl := List.mem_singleton.mp hb
    exact ⟨⟨_, ⟨0, 45, ⟨1, 0, ⟨0⟩⟩, "Boot", 0, 45, 45⟩⟩, Tree.ofBytes_eq_ok_iff.mpr
      ⟨rfl, toOption_eq_some_iff.mp (by decide +kernel)⟩⟩
  obtain ⟨-, ⟨ts, hts, -, hroots, -⟩, -⟩ := handover.{0} [4]
    (.foreign (by decide) hforeign (.own hown (.other (by decide) (by decide) hother .nil))) htrees
    (by decide +kernel)
  exact ⟨_, ts, rfl, hts, hroots⟩

end Scan

end SetupForms
