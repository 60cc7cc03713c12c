import DShowServer.Framework.Ram

/-!
# Base relocations

An image is linked for the address that its header names as `ImageBase`. Where it is
loaded at another, `do_relocations` walks a table of blocks, each of which lists the
fields of a page to which a part of the distance is added.

What the table means is `Linked`: a field holds the address of its target, or the low
or the high half of it, if the image lies at a base. The walk over a table that no
field overlaps is a walk over its fields (`blocksFrom_eq`), and takes an image that is linked
for `ImageBase` to one that is linked for where it lies, unless a carry into the high
half of an address is lost (`doRelocations_links`).
-/

namespace DShow.Loader

open Bytes (le32 leBytes ofLeBytes)
open Ram (Within Holds)

/-! ## The walk -/

/-- `PE_HEADER`. -/
def peHeader (m : Ram 32) (module : BitVec 32) : Option (BitVec 32) :=
  (m.readLE (module + 0x3c) 4).map fun e_lfanew => module + BitVec.ofNat 32 e_lfanew

/-- `PE_HEADER(load_addr)->OptionalHeader.ImageBase`. -/
def imageBase (m : Ram 32) (load_addr : BitVec 32) : Option (BitVec 32) := do
  let nt ← peHeader m load_addr
  (m.readLE (nt + 0x34) 4).map (BitVec.ofNat 32)

/-- `IMAGE_REL_BASED_HIGH`, `IMAGE_REL_BASED_LOW` and `IMAGE_REL_BASED_HIGHLOW`. -/
inductive FieldKind
  | high
  | low
  | highLow
deriving DecidableEq

/-- The bytes of a field. -/
def FieldKind.size : FieldKind → Nat
  | high => 2
  | low => 2
  | highLow => 4

/-- What is added to a field: `hdelta`, `ldelta` or `delta`. -/
def FieldKind.addend (delta : BitVec 32) : FieldKind → Nat
  | high => delta.toNat / 65536
  | low => delta.toNat % 65536
  | highLow => delta.toNat

/-- One entry of a block. The types that are not handled leave the page as it is. -/
def fixup (delta page : BitVec 32) (m : Ram 32) (entry : Nat) : Option (Ram 32) :=
  let offset := BitVec.ofNat 32 (entry &&& 0xFFF)
  match entry >>> 12 with
  | 1 => m.add (page + offset) FieldKind.high.size (FieldKind.high.addend delta)
  | 2 => m.add (page + offset) FieldKind.low.size (FieldKind.low.addend delta)
  | 3 => m.add (page + offset) FieldKind.highLow.size (FieldKind.highLow.addend delta)
  | _ => some m

/-- The entries of a block from an address on. -/
def fixupsFrom (delta page : BitVec 32) : Nat → BitVec 32 → Ram 32 → Option (Ram 32)
  | 0, _, m => some m
  | count + 1, entry, m => do
    let e ← m.readLE entry 2
    let m ← fixup delta page m e
    fixupsFrom delta page count (entry + 2) m

/-- The blocks from an address on, to the one of page 0. -/
def blocksFrom (load_addr delta : BitVec 32) : Nat → BitVec 32 → Ram 32 → Option (Ram 32)
  | 0, _, _ => none
  | fuel + 1, r, m => do
    let virtualAddress ← m.readLE r 4
    if virtualAddress = 0 then pure m
    else
      let sizeOfBlock ← m.readLE (r + 4) 4
      let count := (BitVec.ofNat 32 sizeOfBlock - 8).toNat / 2
      let m ← fixupsFrom delta (load_addr + BitVec.ofNat 32 virtualAddress) count (r + 8) m
      -- the size is read again after the fixups
      let sizeOfBlock ← m.readLE (r + 4) 4
      blocksFrom load_addr delta fuel (r + BitVec.ofNat 32 sizeOfBlock) m

/-- `do_relocations`. -/
def doRelocations (fuel : Nat) (load_addr r : BitVec 32) (m : Ram 32) : Option (Ram 32) := do
  let base ← imageBase m load_addr
  let delta := load_addr - base
  if delta = 0 then pure m else blocksFrom load_addr delta fuel r m

/-! ## Tables -/

/-- A field that is relocated. -/
structure Field where
  address : BitVec 32
  kind : FieldKind
deriving DecidableEq

/-- The field that an entry names. -/
def fieldOf (page : BitVec 32) (entry : Nat) : Option Field :=
  let offset := BitVec.ofNat 32 (entry &&& 0xFFF)
  match entry >>> 12 with
  | 1 => some ⟨page + offset, .high⟩
  | 2 => some ⟨page + offset, .low⟩
  | 3 => some ⟨page + offset, .highLow⟩
  | _ => none

/-- A block of a table: a page, and the entries for it. -/
structure RelocBlock where
  virtualAddress : BitVec 32
  typeOffset : List (BitVec 16)
  ne_zero : virtualAddress ≠ 0
  fits : 8 + 2 * typeOffset.length < 2 ^ 32

def RelocBlock.bytes (b : RelocBlock) : List UInt8 :=
  le32 b.virtualAddress ++ (leBytes 4 (8 + 2 * b.typeOffset.length) ++
    b.typeOffset.flatMap fun e => leBytes 2 e.toNat)

/-- The bytes of a table. -/
def tableBytes (blocks : List RelocBlock) : List UInt8 := blocks.flatMap RelocBlock.bytes ++ le32 0

def RelocBlock.fields (load_addr : BitVec 32) (b : RelocBlock) : List Field :=
  b.typeOffset.filterMap fun e => fieldOf (load_addr + b.virtualAddress) e.toNat

def fieldsOf (load_addr : BitVec 32) (blocks : List RelocBlock) : List Field :=
  blocks.flatMap (RelocBlock.fields load_addr)

/-- A byte of a field. -/
def Field.Has (f : Field) (x : BitVec 32) : Prop := Within f.address f.kind.size x

def Field.apply (delta : BitVec 32) (m : Ram 32) (f : Field) : Option (Ram 32) :=
  m.add f.address f.kind.size (f.kind.addend delta)

/-- All fields relocated, one after another. -/
def applyAll (delta : BitVec 32) (m : Ram 32) (fields : List Field) : Option (Ram 32) :=
  fields.foldlM (Field.apply delta) m

variable {m m' : Ram 32} {load_addr delta page r base a : BitVec 32} {f : Field} {fields : List Field}
  {blocks : List RelocBlock} {n : Nat} {bs : List UInt8}

theorem fixup_eq (delta page : BitVec 32) (m : Ram 32) (entry : Nat) :
    fixup delta page m entry = applyAll delta m (fieldOf page entry).toList := by
  unfold fixup fieldOf
  dsimp only
  split <;> simp [applyAll, Field.apply]

theorem Field.size_le (f : Field) : f.kind.size ≤ 2 ^ 32 := by
  cases f.kind <;> decide

/-- Bytes that no field has stay as they are. -/
theorem applyAll_frame (h : applyAll delta m fields = some m') {x : BitVec 32} (hx : ∀ f ∈ fields, ¬ f.Has x) :
    m' x = m x := by
  induction fields generalizing m with
  | nil => cases h; rfl
  | cons f fields ih =>
    obtain ⟨m₁, h₁, h⟩ := Option.bind_eq_some_iff.mp h
    rw [List.forall_mem_cons] at hx
    rw [ih h hx.2]
    obtain ⟨v, hv, -⟩ := Option.bind_eq_some_iff.mp h₁
    obtain ⟨m₂, h₂, -, hf, -⟩ := Ram.add_spec f.size_le hv (f.kind.addend delta)
    cases h₁.symm.trans h₂
    exact hf x hx.1

theorem applyAll_holds (hm : m.Holds a bs) (h : applyAll delta m fields = some m') (hlen : bs.length ≤ 2 ^ 32)
    (hoff : ∀ f ∈ fields, ∀ x, Within a bs.length x → ¬ f.Has x) : m'.Holds a bs :=
  hm.congr hlen fun x hx => applyAll_frame h fun f hf => hoff f hf x hx

theorem applyAll_append (m : Ram 32) (fs gs : List Field) :
    applyAll delta m (fs ++ gs) = (applyAll delta m fs).bind fun m => applyAll delta m gs :=
  List.foldlM_append

theorem flatMap_leBytes_length (es : List (BitVec 16)) :
    (es.flatMap fun e => leBytes 2 e.toNat).length = 2 * es.length := by
  induction es with
  | nil => rfl
  | cons e es ih =>
    rw [List.flatMap_cons, List.length_append, ih, Bytes.length_leBytes, List.length_cons]
    omega

/-- The entries of a block that no field overlaps. -/
theorem fixupsFrom_eq {entry : BitVec 32} {es : List (BitVec 16)} (hlen : 2 * es.length ≤ 2 ^ 32)
    (hm : m.Holds entry (es.flatMap fun e => leBytes 2 e.toNat))
    (hoff : ∀ f ∈ es.filterMap (fun e => fieldOf page e.toNat), ∀ x, Within entry (2 * es.length) x → ¬ f.Has x) :
    fixupsFrom delta page es.length entry m =
      applyAll delta m (es.filterMap fun e => fieldOf page e.toNat) := by
  induction es generalizing m entry with
  | nil => rfl
  | cons e es ih =>
    rw [List.flatMap_cons, Ram.holds_append, Bytes.length_leBytes] at hm
    rw [List.length_cons] at hlen hoff
    have hread : m.readLE entry 2 = some e.toNat := by
      have h := hm.1.readLE
      rwa [Bytes.length_leBytes, Bytes.ofLeBytes_leBytes (show e.toNat < 256 ^ 2 from e.isLt)] at h
    have htail : ∀ x, Within (entry + 2) (2 * es.length) x → Within entry (2 * (es.length + 1)) x := fun x hx => by
      rw [show 2 * (es.length + 1) = 2 + 2 * es.length by omega]
      exact Within.of_add hx
    have hsplit : (e :: es).filterMap (fun e => fieldOf page e.toNat) =
        (fieldOf page e.toNat).toList ++ es.filterMap (fun e => fieldOf page e.toNat) := by
      rw [List.filterMap_cons]
      cases fieldOf page e.toNat <;> rfl
    rw [hsplit] at hoff ⊢
    rw [List.length_cons, fixupsFrom, hread, Option.bind_eq_bind, Option.bind_some, fixup_eq, applyAll_append]
    cases h₁ : applyAll delta m (fieldOf page e.toNat).toList with
    | none => rfl
    | some m₁ =>
      refine ih (by omega) (applyAll_holds hm.2 h₁ ?_ ?_) ?_
      · rw [flatMap_leBytes_length]; omega
      · intro f hf x hx
        rw [flatMap_leBytes_length] at hx
        exact hoff f (List.mem_append_left _ hf) x (htail x hx)
      · exact fun f hf x hx => hoff f (List.mem_append_right _ hf) x (htail x hx)

theorem readLE_le32 {x : BitVec 32} (h : m.Holds a (le32 x)) : m.readLE a 4 = some x.toNat := by
  have h := h.readLE
  rwa [le32, Bytes.length_leBytes, Bytes.ofLeBytes_leBytes (show x.toNat < 256 ^ 4 from x.isLt)] at h

theorem RelocBlock.length_bytes (b : RelocBlock) : b.bytes.length = 8 + 2 * b.typeOffset.length := by
  rw [bytes, List.length_append, List.length_append, le32, Bytes.length_leBytes, Bytes.length_leBytes,
    flatMap_leBytes_length]
  omega

/-- The walk over a table that no field overlaps relocates its fields. -/
theorem blocksFrom_eq {fuel : Nat} (hlen : (tableBytes blocks).length ≤ 2 ^ 32) (hm : m.Holds r (tableBytes blocks))
    (hoff : ∀ f ∈ fieldsOf load_addr blocks, ∀ x, Within r (tableBytes blocks).length x → ¬ f.Has x)
    (hfuel : blocks.length < fuel) :
    blocksFrom load_addr delta fuel r m = applyAll delta m (fieldsOf load_addr blocks) := by
  induction blocks generalizing m r fuel with
  | nil =>
    obtain ⟨fuel, rfl⟩ := Nat.exists_eq_succ_of_ne_zero (Nat.ne_of_gt hfuel)
    rw [blocksFrom, readLE_le32 hm]
    rfl
  | cons b blocks ih =>
    obtain ⟨fuel, rfl⟩ := Nat.exists_eq_succ_of_ne_zero (Nat.ne_of_gt (Nat.lt_of_le_of_lt (Nat.zero_le _) hfuel))
    have hb := b.fits
    have htable : tableBytes (b :: blocks) = b.bytes ++ tableBytes blocks := by
      rw [tableBytes, List.flatMap_cons, List.append_assoc]
      rfl
    rw [htable, List.length_append, RelocBlock.length_bytes] at hlen hoff
    obtain ⟨hblock, hrest⟩ := Ram.holds_append.mp (htable ▸ hm)
    rw [RelocBlock.length_bytes] at hrest
    obtain ⟨hva, hblock⟩ := Ram.holds_append.mp hblock
    obtain ⟨hsize, hes⟩ := Ram.holds_append.mp hblock
    rw [le32, Bytes.length_leBytes] at hsize hes
    rw [Bytes.length_leBytes, BitVec.add_assoc] at hes
    have hes : m.Holds (r + 8) _ := hes
    have hread : ∀ {m : Ram 32}, m.Holds (r + 4) (leBytes 4 (8 + 2 * b.typeOffset.length)) →
        m.readLE (r + 4) 4 = some (8 + 2 * b.typeOffset.length) := fun h => by
      have h := h.readLE
      rwa [Bytes.length_leBytes, Bytes.ofLeBytes_leBytes (show _ < 256 ^ 4 by omega)] at h
    have hne : b.virtualAddress.toNat ≠ 0 := fun e => b.ne_zero (BitVec.eq_of_toNat_eq e)
    have hcount : (BitVec.ofNat 32 (8 + 2 * b.typeOffset.length) - 8).toNat / 2 = b.typeOffset.length := by
      have h8 : (8 : BitVec 32) ≤ BitVec.ofNat 32 (8 + 2 * b.typeOffset.length) := by
        rw [BitVec.le_def, BitVec.toNat_ofNat, Nat.mod_eq_of_lt hb]
        exact Nat.le_add_right _ _
      rw [BitVec.toNat_sub_of_le h8, BitVec.toNat_ofNat, Nat.mod_eq_of_lt hb]
      show (8 + 2 * b.typeOffset.length - 8) / 2 = _
      omega
    -- the parts of the table that are read lie within it
    have hw₁ : ∀ x, Within (r + 4) 4 x → Within r (8 + 2 * b.typeOffset.length + (tableBytes blocks).length) x :=
      fun x hx => (Within.of_add (n := 4) hx).mono (by omega)
    have hw₂ : ∀ x, Within (r + 8) (2 * b.typeOffset.length) x →
        Within r (8 + 2 * b.typeOffset.length + (tableBytes blocks).length) x :=
      fun x hx => (Within.of_add (n := 8) hx).mono (by omega)
    have hw₃ : ∀ x, Within (r + BitVec.ofNat 32 (8 + 2 * b.typeOffset.length)) (tableBytes blocks).length x →
        Within r (8 + 2 * b.typeOffset.length + (tableBytes blocks).length) x := fun x hx => Within.of_add hx
    have hfields : fieldsOf load_addr (b :: blocks) = b.fields load_addr ++ fieldsOf load_addr blocks :=
      List.flatMap_cons
    rw [hfields] at hoff ⊢
    rw [blocksFrom, readLE_le32 hva, Option.bind_eq_bind, Option.bind_some, if_neg hne, hread hsize,
      Option.bind_some]
    dsimp only
    rw [hcount, BitVec.ofNat_toNat, BitVec.setWidth_eq, applyAll_append,
      fixupsFrom_eq (by omega) hes fun f hf x hx => hoff f (List.mem_append_left _ hf) x (hw₂ x hx)]
    show (applyAll delta m (b.fields load_addr)).bind _ = _
    cases h₁ : applyAll delta m (b.fields load_addr) with
    | none => rfl
    | some m₁ =>
      have hoff₁ : ∀ f ∈ b.fields load_addr, ∀ x,
          Within r (8 + 2 * b.typeOffset.length + (tableBytes blocks).length) x → ¬ f.Has x :=
        fun f hf => hoff f (List.mem_append_left _ hf)
      have hsize₁ := applyAll_holds hsize h₁ (by rw [Bytes.length_leBytes]; omega)
        fun f hf x hx => hoff₁ f hf x (hw₁ x (by rwa [Bytes.length_leBytes] at hx))
      rw [Option.bind_some, hread hsize₁, Option.bind_some, Option.bind_some]
      refine ih (by omega) (applyAll_holds hrest h₁ (by omega) fun f hf x hx => hoff₁ f hf x (hw₃ x hx)) ?_
        (by rw [List.length_cons] at hfuel; omega)
      exact fun f hf x hx => hoff f (List.mem_append_right _ hf) x (hw₃ x hx)

/-! ## What the fields mean -/

/-- What a field holds whose target lies at an address. -/
def FieldKind.value (target : BitVec 32) : FieldKind → Nat
  | high => target.toNat / 65536
  | low => target.toNat % 65536
  | highLow => target.toNat

/-- The image lies at `base`: each field holds its target, counted from there. -/
def Linked (m : Ram 32) (base : BitVec 32) (target : Field → BitVec 32) (fields : List Field) : Prop :=
  ∀ f ∈ fields, m.readLE f.address f.kind.size = some (f.kind.value (base + target f))

/-- No carry into the high half of the target's address. -/
def NoCarry (base load_addr : BitVec 32) (target : Field → BitVec 32) (f : Field) : Prop :=
  f.kind = .high → (base + target f).toNat % 65536 + (load_addr - base).toNat % 65536 < 65536

/-- A field that is relocated holds its target from the new base on, unless a carry is lost. -/
theorem value_add_addend (k : FieldKind) (x delta : BitVec 32) :
    (k.value x + k.addend delta) % 256 ^ k.size = k.value (x + delta) ↔
      (k = .high → x.toNat % 65536 + delta.toNat % 65536 < 65536) := by
  have hx := x.isLt
  have hd := delta.isLt
  cases k with
  | high =>
    show (x.toNat / 65536 + delta.toNat / 65536) % 65536 = (x + delta).toNat / 65536 ↔ _
    rw [BitVec.toNat_add, forall_prop_of_true rfl]
    omega
  | low =>
    show (x.toNat % 65536 + delta.toNat % 65536) % 65536 = (x + delta).toNat % 65536 ↔ _
    rw [BitVec.toNat_add]
    exact ⟨fun _ h => (by cases h), fun _ => by omega⟩
  | highLow =>
    show (x.toNat + delta.toNat) % 4294967296 = (x + delta).toNat ↔ _
    exact ⟨fun _ h => (by cases h), fun _ => (BitVec.toNat_add x delta).symm⟩

/-- Fields that are apart are each relocated once. -/
theorem applyAll_spec (delta : BitVec 32) {v : Field → Nat} (hd : fields.Pairwise fun f g => ∀ x, f.Has x → ¬ g.Has x)
    (hv : ∀ f ∈ fields, m.readLE f.address f.kind.size = some (v f)) :
    ∃ m', applyAll delta m fields = some m' ∧ ∀ f ∈ fields,
      m'.readLE f.address f.kind.size = some ((v f + f.kind.addend delta) % 256 ^ f.kind.size) := by
  induction fields generalizing m with
  | nil => exact ⟨m, rfl, List.forall_mem_nil _⟩
  | cons f fields ih =>
    rw [List.pairwise_cons] at hd
    rw [List.forall_mem_cons] at hv
    obtain ⟨m₁, h₁, hr₁, hf₁, -⟩ := Ram.add_spec f.size_le hv.1 (f.kind.addend delta)
    obtain ⟨m', h, hr⟩ := ih (m := m₁) hd.2 fun g hg => by
      rw [Ram.readLE_congr g.size_le fun x hx => hf₁ x fun hxf => hd.1 g hg x hxf hx]
      exact hv.2 g hg
    refine ⟨m', Option.bind_eq_some_iff.mpr ⟨m₁, h₁, h⟩, List.forall_mem_cons.mpr ⟨?_, hr⟩⟩
    rw [Ram.readLE_congr f.size_le fun x hx => applyAll_frame h fun g hg hxg => hd.1 g hg x hx hxg]
    exact hr₁

/-- An image that is linked for its `ImageBase`, with a table whose fields are apart from it and
from one another: `do_relocations` changes nothing but the fields, and the image is linked for
the address where it lies exactly if no `IMAGE_REL_BASED_HIGH` field loses a carry. -/
theorem doRelocations_links {target : Field → BitVec 32} {fuel : Nat} (hbase : imageBase m load_addr = some base)
    (hlen : (tableBytes blocks).length ≤ 2 ^ 32) (htable : m.Holds r (tableBytes blocks))
    (hoff : ∀ f ∈ fieldsOf load_addr blocks, ∀ x, Within r (tableBytes blocks).length x → ¬ f.Has x)
    (hd : (fieldsOf load_addr blocks).Pairwise fun f g => ∀ x, f.Has x → ¬ g.Has x)
    (hl : Linked m base target (fieldsOf load_addr blocks)) (hfuel : blocks.length < fuel) :
    ∃ m', doRelocations fuel load_addr r m = some m' ∧
      (Linked m' load_addr target (fieldsOf load_addr blocks) ↔
        ∀ f ∈ fieldsOf load_addr blocks, NoCarry base load_addr target f) ∧
      ∀ x, (∀ f ∈ fieldsOf load_addr blocks, ¬ f.Has x) → m' x = m x := by
  have hsum : ∀ f, load_addr + target f = base + target f + (load_addr - base) := fun f => by grind
  unfold doRelocations
  rw [hbase, Option.bind_eq_bind, Option.bind_some]
  by_cases h0 : load_addr - base = 0
  · obtain rfl : load_addr = base := by grind
    refine ⟨m, if_pos h0, ⟨fun _ f _ _ => ?_, fun _ => hl⟩, fun _ _ => rfl⟩
    rw [h0]
    exact Nat.mod_lt _ (by decide)
  · rw [if_neg h0, blocksFrom_eq hlen htable hoff hfuel]
    obtain ⟨m', h, hr⟩ := applyAll_spec (load_addr - base) hd hl
    refine ⟨m', h, forall₂_congr fun f hf => ?_, fun x hx => applyAll_frame h hx⟩
    rw [hr f hf, Option.some.injEq, hsum]
    exact value_add_addend f.kind (base + target f) (load_addr - base)

/-- A table of one block with a field of each kind. -/
def oneBlock : RelocBlock := ⟨0x1000, [0x3010, 0x1020, 0x2030], by decide, by decide⟩

/-- An image for 0x10000000 that lies at 0x20000000, with the table at 0x80. -/
def movedImage : Ram 32 := fun x =>
  let o := (x - 0x20000000).toNat
  if o < 0x2000 then some (([(0x3c, 0x40), (0x77, 0x10), (0x81, 0x10), (0x84, 14), (0x88, 0x10), (0x89, 0x30),
    (0x8a, 0x20), (0x8b, 0x10), (0x8c, 0x30), (0x8d, 0x20), (0x1010, 0x34), (0x1011, 0x12), (0x1013, 0x10),
    (0x1021, 0x10), (0x1030, 0x34), (0x1031, 0x12)].lookup o).getD 0) else none

theorem doRelocations_links_moved : ∃ m', doRelocations 2 0x20000000 0x20000080 movedImage = some m' ∧
    Linked m' 0x20000000 (fun _ => 0x1234) (fieldsOf 0x20000000 [oneBlock]) := by
  have hfields : fieldsOf 0x20000000 [oneBlock] =
      [⟨0x20001010, .highLow⟩, ⟨0x20001020, .high⟩, ⟨0x20001030, .low⟩] := by decide
  have hbase : imageBase movedImage 0x20000000 = some 0x10000000 := rfl
  have htable : movedImage.Holds 0x20000080 (tableBytes [oneBlock]) := rfl
  have hlinked : Linked movedImage 0x10000000 (fun _ => 0x1234) (fieldsOf 0x20000000 [oneBlock]) := by
    rw [hfields]
    simp only [Linked, List.forall_mem_cons, List.not_mem_nil, false_imp_iff, implies_true, and_true]
    exact ⟨rfl, rfl, rfl⟩
  obtain ⟨m', h, hl, -⟩ := doRelocations_links hbase (by decide) htable
    (by
      rw [hfields]
      simp only [List.forall_mem_cons, List.not_mem_nil, false_imp_iff, implies_true, and_true]
      exact ⟨fun x => Ram.not_within (by decide) (by decide), fun x => Ram.not_within (by decide) (by decide),
        fun x => Ram.not_within (by decide) (by decide)⟩)
    (by
      rw [hfields]
      simp only [List.pairwise_cons, List.forall_mem_cons, List.not_mem_nil, false_imp_iff, implies_true,
        List.Pairwise.nil, and_true]
      exact ⟨⟨fun x => Ram.not_within (by decide) (by decide), fun x => Ram.not_within (by decide) (by decide)⟩,
        fun x => Ram.not_within (by decide) (by decide)⟩)
    hlinked (Nat.lt_succ_self 1)
  refine ⟨m', h, hl.mpr ?_⟩
  rw [hfields]
  simp only [NoCarry, List.forall_mem_cons, List.not_mem_nil, false_imp_iff, implies_true, and_true]
  exact ⟨by decide, by decide, by decide⟩

end DShow.Loader
