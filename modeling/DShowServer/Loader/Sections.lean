import DShowServer.Loader.Export
import DShowServer.Loader.Virtual

/-!
# The sections of an image

`FILE_dommap` maps a part of a file at a fixed address, or reads it into memory where the offset is not that
of a page. `PE_LoadImage` does so with each section that has bytes in the file, and clears the rest of the last
page of a section that is longer in memory than in the file.

`SectionHeader.byte` says what a section means. In memory that was zero, sections that are apart mean what
they say when all of them are loaded, and nothing else changes (`loadSections_spec`); `calc_vma_size` reaches
as far as every one of them (`le_calcVmaSize`).
-/

namespace DShow.Loader

open Ram (Within)

/-! ## Mappings of a file -/

/-- A number of bytes in whole pages. -/
def pageCeil (n : Nat) : Nat := (n + 4095) / 4096 * 4096

/-- Memory with some bytes replaced. -/
def fill (m : Ram 32) (a : BitVec 32) (n : Nat) (f : Nat → Option UInt8) : Ram 32 := fun x =>
  if (x - a).toNat < n then f (x - a).toNat else m x

/-- A byte of a file, 0 behind its end. -/
def fileByte (file : List UInt8) (i : Nat) : UInt8 := file.getD i 0

/-- The file mapped whole, addressed from its start. -/
def fileView (file : List UInt8) : Ram 32 :=
  fill (fun _ => none) 0 (pageCeil file.length) fun o => some (fileByte file o)

/-- `FILE_dommap` of a file at a fixed address: `mmap`, or, at an offset that is not that of a page, memory
into which the file is read. Whether it was mapped there, and the memory. Pages behind the end of the file
cannot be accessed. That the kernel lacks memory (`ENOMEM`) or does not allow the mapping (`EPERM`) is left out. -/
def fileDommap (file : List UInt8) (m : Ram 32) (start size offset : BitVec 32) : Bool × Ram 32 :=
  let n := pageCeil size.toNat
  if size = 0 ∨ start.toNat % 4096 ≠ 0 then (false, m)
  else if offset.toNat % 4096 = 0 then
    (true, fill m start n fun o => if offset.toNat + o < pageCeil file.length then
      some (fileByte file (offset.toNat + o)) else none)
  else if offset.toNat < 2 ^ 31 then
    (true, fill m start n fun o => some (if o < size.toNat then fileByte file (offset.toNat + o) else 0))
  else (false, fill m start n fun _ => none)

/-! ## Sections -/

/-- `IMAGE_SECTION_HEADER`. -/
structure SectionHeader where
  virtualSize : BitVec 32
  virtualAddress : BitVec 32
  sizeOfRawData : BitVec 32
  pointerToRawData : BitVec 32
  characteristics : BitVec 32
deriving DecidableEq

def sectionHeader (m : Ram 32) (a : BitVec 32) : Option SectionHeader := do
  let virtualSize ← word m (a + 8)
  let virtualAddress ← word m (a + 12)
  let sizeOfRawData ← word m (a + 16)
  let pointerToRawData ← word m (a + 20)
  let characteristics ← word m (a + 36)
  some ⟨virtualSize, virtualAddress, sizeOfRawData, pointerToRawData, characteristics⟩

/-- The headers of a number of sections from an address on. -/
def sectionHeaders (m : Ram 32) : Nat → BitVec 32 → Option (List SectionHeader)
  | 0, _ => some []
  | n + 1, a => do
    let s ← sectionHeader m a
    let ss ← sectionHeaders m n (a + 40)
    some (s :: ss)

/-- The end of the last section in the file; sections with no data are not counted. -/
def rawSize : List SectionHeader → BitVec 32 → BitVec 32
  | [], rawsize => rawsize
  | s :: ss, rawsize =>
    if s.characteristics &&& 0x80 ≠ 0 then rawSize ss rawsize
    else if s.pointerToRawData + s.sizeOfRawData > rawsize then rawSize ss (s.pointerToRawData + s.sizeOfRawData)
    else rawSize ss rawsize

/-- `calc_vma_size`. -/
def calcVmaSize : List SectionHeader → BitVec 32 → BitVec 32
  | [], vma_size => vma_size
  | s :: ss, vma_size =>
    let vma_size := if vma_size > s.virtualAddress + s.sizeOfRawData then vma_size
      else s.virtualAddress + s.sizeOfRawData
    let vma_size := if vma_size > s.virtualAddress + s.virtualSize then vma_size
      else s.virtualAddress + s.virtualSize
    calcVmaSize ss vma_size

/-- A section that has bytes in the file. -/
def SectionHeader.Mapped (s : SectionHeader) : Prop := s.sizeOfRawData ≠ 0 ∧ s.pointerToRawData ≠ 0

instance (s : SectionHeader) : Decidable s.Mapped := inferInstanceAs (Decidable (_ ∧ _))

/-- One section: whether it could be mapped, and the memory. -/
def loadSection (file : List UInt8) (load_addr : BitVec 32) (m : Ram 32) (s : SectionHeader) :
    Option (Bool × Ram 32) :=
  if s.sizeOfRawData = 0 ∨ s.pointerToRawData = 0 then some (true, m)
  else
    let (ok, m) := fileDommap file m (load_addr + s.virtualAddress) s.sizeOfRawData s.pointerToRawData
    if ok ∧ s.sizeOfRawData < s.virtualSize ∧ s.sizeOfRawData &&& 0xfff ≠ 0 then
      let finish := (s.sizeOfRawData &&& ~~~0xfff) + 4096
      let finish := if finish > s.virtualSize then s.virtualSize else finish
      (m.writeBytes (load_addr + s.virtualAddress + s.sizeOfRawData)
        (List.replicate (finish - s.sizeOfRawData).toNat 0)).map fun m => (true, m)
    else some (ok, m)

def loadSections (file : List UInt8) (load_addr : BitVec 32) : List SectionHeader → Ram 32 → Option (Bool × Ram 32)
  | [], m => some (true, m)
  | s :: ss, m => do
    let (ok, m) ← loadSection file load_addr m s
    if ok then loadSections file load_addr ss m else some (false, m)

/-! ## What a section means -/

/-- A byte of a section: what the file has, and zeros behind it. -/
def SectionHeader.byte (file : List UInt8) (s : SectionHeader) (i : Nat) : UInt8 :=
  if s.Mapped ∧ i < s.sizeOfRawData.toNat then fileByte file (s.pointerToRawData.toNat + i) else 0

/-- What a section takes of the file, in pages. -/
def SectionHeader.pages (s : SectionHeader) : Nat := if s.Mapped then pageCeil s.sizeOfRawData.toNat else 0

/-- The bytes a section has in the image. -/
def SectionHeader.length (s : SectionHeader) : Nat :=
  max s.virtualSize.toNat (if s.Mapped then s.sizeOfRawData.toNat else 0)

/-- The bytes that are a section's and no other's. -/
def SectionHeader.room (s : SectionHeader) : Nat := max s.virtualSize.toNat s.pages
/-! ## One section -/

section

variable {file : List UInt8} {m m' : Ram 32} {a b x : BitVec 32} {n : Nat} {f : Nat → Option UInt8}
  {s : SectionHeader} {ss : List SectionHeader} {ok : Bool} {load_addr : BitVec 32}

theorem le_pageCeil (n : Nat) : n ≤ pageCeil n := by
  unfold pageCeil
  omega

theorem pageCeil_mod (n : Nat) : pageCeil n % 4096 = 0 := Nat.mul_mod_left _ _

theorem pageCeil_mono {k : Nat} (h : n ≤ k) : pageCeil n ≤ pageCeil k := by
  unfold pageCeil
  omega

theorem add_pageCeil {k : Nat} (hn : n % 4096 = 0) : n + pageCeil k = pageCeil (n + k) := by
  unfold pageCeil
  omega

/-- The bytes at an address within an image, by how far they lie from its start. -/
theorem sub_add_lt (hn : b.toNat + n ≤ 2 ^ 32) : (x - (a + b)).toNat < n ↔
    b.toNat ≤ (x - a).toNat ∧ (x - a).toNat < b.toNat + n := by
  rw [← BitVec.sub_sub]
  have hx := (x - a).isLt
  have hb := b.isLt
  rw [BitVec.toNat_sub]
  omega

theorem sub_add_toNat (hb : b.toNat ≤ (x - a).toNat) : (x - (a + b)).toNat = (x - a).toNat - b.toNat := by
  rw [← BitVec.sub_sub, BitVec.toNat_sub_of_le (BitVec.le_def.mpr hb)]

theorem fill_of_lt (h : (x - a).toNat < n) : fill m a n f x = f (x - a).toNat := if_pos h

theorem fill_of_not_lt (h : ¬ (x - a).toNat < n) : fill m a n f x = m x := if_neg h

/-- What a mapping of a file leaves, and what it puts in. -/
theorem fileDommap_frame {size offset : BitVec 32} (h : fileDommap file m a size offset = (ok, m'))
    (hx : ¬ (x - a).toNat < pageCeil size.toNat) : m' x = m x := by
  unfold fileDommap at h
  split at h
  · cases h; rfl
  · split at h
    · cases h; exact fill_of_not_lt hx
    · split at h
      · cases h; exact fill_of_not_lt hx
      · cases h; exact fill_of_not_lt hx

theorem fileDommap_byte {size offset : BitVec 32} (h : fileDommap file m a size offset = (true, m'))
    (hin : offset.toNat + size.toNat ≤ file.length) (hx : (x - a).toNat < size.toNat) :
    m' x = some (fileByte file (offset.toNat + (x - a).toNat)) := by
  have hx' : (x - a).toNat < pageCeil size.toNat := Nat.lt_of_lt_of_le hx (le_pageCeil _)
  unfold fileDommap at h
  split at h
  · cases h
  · split at h
    · cases h
      rw [fill_of_lt hx', if_pos (Nat.lt_of_lt_of_le (by omega) (le_pageCeil file.length))]
    · split at h
      · cases h
        rw [fill_of_lt hx', if_pos hx]
      · cases h

theorem toNat_and_fff (a : BitVec 32) : (a &&& 0xfff).toNat = a.toNat % 4096 :=
  (BitVec.toNat_and _ _).trans (Nat.and_two_pow_sub_one_eq_mod a.toNat 12)

/-- Where the last page of a section ends that does not fill it, or where the section itself ends. -/
theorem toNat_finish (hlt : s.sizeOfRawData < s.virtualSize) (hp : s.sizeOfRawData &&& 0xfff ≠ 0)
    (hb : pageCeil s.sizeOfRawData.toNat < 2 ^ 32) :
    (if (s.sizeOfRawData &&& ~~~0xfff) + 4096 > s.virtualSize then s.virtualSize
      else (s.sizeOfRawData &&& ~~~0xfff) + 4096).toNat = min s.virtualSize.toNat (pageCeil s.sizeOfRawData.toNat) ∧
    s.sizeOfRawData.toNat < min s.virtualSize.toNat (pageCeil s.sizeOfRawData.toNat) := by
  have hne : s.sizeOfRawData.toNat % 4096 ≠ 0 := fun h0 => hp (BitVec.eq_of_toNat_eq ((toNat_and_fff _).trans h0))
  have hfloor : (s.sizeOfRawData &&& ~~~0xfff).toNat = s.sizeOfRawData.toNat - s.sizeOfRawData.toNat % 4096 :=
    toNat_and_not_mask s.sizeOfRawData 12
  rw [BitVec.lt_def] at hlt
  have hceil : ((s.sizeOfRawData &&& ~~~0xfff) + 4096).toNat = pageCeil s.sizeOfRawData.toNat := by
    rw [BitVec.toNat_add, hfloor]
    unfold pageCeil at hb ⊢
    show (_ + 4096) % 2 ^ 32 = _
    omega
  refine ⟨?_, ?_⟩
  · split
    · rename_i hgt
      rw [gt_iff_lt, BitVec.lt_def, hceil] at hgt
      exact (Nat.min_eq_left (Nat.le_of_lt hgt)).symm
    · rename_i hgt
      rw [gt_iff_lt, BitVec.lt_def, hceil, Nat.not_lt] at hgt
      rw [hceil, Nat.min_eq_right hgt]
  · have hle := le_pageCeil s.sizeOfRawData.toNat
    have := pageCeil_mod s.sizeOfRawData.toNat
    omega

/-- The rest of the last page is cleared. -/
theorem clear_spec {address size finish : BitVec 32} (hsize : size.toNat ≤ finish.toNat)
    (hb : address.toNat + finish.toNat < 2 ^ 32)
    (hw : m.writeBytes (load_addr + address + size) (List.replicate (finish - size).toNat 0) = some m') :
    (∀ x, ¬ (address.toNat + size.toNat ≤ (x - load_addr).toNat ∧
      (x - load_addr).toNat < address.toNat + finish.toNat) → m' x = m x) ∧
    ∀ x, address.toNat + size.toNat ≤ (x - load_addr).toNat →
      (x - load_addr).toNat < address.toNat + finish.toNat → m' x = some 0 := by
  have hlen : (finish - size).toNat = finish.toNat - size.toNat :=
    BitVec.toNat_sub_of_le (BitVec.le_def.mpr hsize)
  have hsum : (address + size).toNat = address.toNat + size.toNat := by
    rw [BitVec.toNat_add, Nat.mod_eq_of_lt (by omega)]
  have hin : ∀ x, Within (load_addr + address + size) (finish - size).toNat x ↔
      address.toNat + size.toNat ≤ (x - load_addr).toNat ∧ (x - load_addr).toNat < address.toNat + finish.toNat := by
    intro x
    rw [hlen, BitVec.add_assoc, Within, sub_add_lt (by omega), hsum]
    omega
  have hle : (List.replicate (finish - size).toNat (0 : UInt8)).length ≤ 2 ^ 32 := by
    rw [List.length_replicate]
    exact Nat.le_of_lt (finish - size).isLt
  obtain ⟨m₂, hw', hh, hf, -⟩ := Ram.writeBytes_spec hle fun x => Ram.mapped_of_writeBytes hw hle
  cases hw'.symm.trans hw
  rw [List.length_replicate] at hf hle
  exact ⟨fun x hx => hf x fun hx' => hx ((hin x).mp hx'), fun x h₁ h₂ => hh.replicate hle ((hin x).mpr ⟨h₁, h₂⟩)⟩

/-- One section is in memory, with zeros behind it up to the end of its last page. -/
theorem loadSection_spec (h : loadSection file load_addr m s = some (ok, m'))
    (hin : s.Mapped → s.pointerToRawData.toNat + s.sizeOfRawData.toNat ≤ file.length)
    (hb : s.virtualAddress.toNat + s.room < 2 ^ 32) :
    (∀ x, ¬ (s.virtualAddress.toNat ≤ (x - load_addr).toNat ∧
      (x - load_addr).toNat < s.virtualAddress.toNat + s.pages) → m' x = m x) ∧
    (ok = true → ∀ x, s.virtualAddress.toNat ≤ (x - load_addr).toNat →
      (x - load_addr).toNat < s.virtualAddress.toNat + min s.length s.pages →
      m' x = some (s.byte file ((x - load_addr).toNat - s.virtualAddress.toNat))) := by
  unfold loadSection at h
  by_cases hm : s.Mapped
  · have hpages : s.pages = pageCeil s.sizeOfRawData.toNat := if_pos hm
    have hlength : s.length = max s.virtualSize.toNat s.sizeOfRawData.toNat := congrArg _ (if_pos hm)
    have hroom : s.pages ≤ s.room := Nat.le_max_right _ _
    rw [if_neg (not_or.mpr hm)] at h
    generalize hd : fileDommap file m (load_addr + s.virtualAddress) s.sizeOfRawData s.pointerToRawData = q at h
    obtain ⟨ok₁, m₁⟩ := q
    dsimp only at h
    -- how far a byte lies from the start of the section
    have hsub : ∀ x : BitVec 32, s.virtualAddress.toNat ≤ (x - load_addr).toNat →
        (x - (load_addr + s.virtualAddress)).toNat = (x - load_addr).toNat - s.virtualAddress.toNat :=
      fun x hx => sub_add_toNat hx
    have hframe : ∀ x, ¬ (s.virtualAddress.toNat ≤ (x - load_addr).toNat ∧
        (x - load_addr).toNat < s.virtualAddress.toNat + s.pages) → m₁ x = m x := fun x hx =>
      fileDommap_frame hd (by rwa [hpages, ← sub_add_lt (by omega)] at hx)
    have hbyte : ok₁ = true → ∀ x, s.virtualAddress.toNat ≤ (x - load_addr).toNat →
        (x - load_addr).toNat < s.virtualAddress.toNat + s.sizeOfRawData.toNat →
        m₁ x = some (s.byte file ((x - load_addr).toNat - s.virtualAddress.toNat)) := by
      rintro rfl x h₁ h₂
      rw [fileDommap_byte hd (hin hm) (by rw [hsub x h₁]; omega), hsub x h₁, SectionHeader.byte,
        if_pos ⟨hm, by omega⟩]
    split at h
    · rename_i hc
      obtain ⟨hok, hlt, hp⟩ := hc
      obtain ⟨m₂, hw, he⟩ := Option.map_eq_some_iff.mp h
      cases he
      obtain ⟨hfin, hlt'⟩ := toNat_finish hlt hp (by omega)
      have hend := Nat.min_le_right s.virtualSize.toNat (pageCeil s.sizeOfRawData.toNat)
      obtain ⟨hf, hz⟩ := clear_spec (by omega) (by omega) hw
      rw [BitVec.lt_def] at hlt
      rw [hfin] at hf hz
      refine ⟨fun x hx => ?_, fun _ x h₁ h₂ => ?_⟩
      · rw [hf x (by omega), hframe x hx]
      · by_cases hx : (x - load_addr).toNat < s.virtualAddress.toNat + s.sizeOfRawData.toNat
        · rw [hf x (by omega)]
          exact hbyte hok x h₁ hx
        · rw [hz x (by omega) (by omega), SectionHeader.byte, if_neg (by omega)]
    · rename_i hc
      cases h
      refine ⟨hframe, fun hok x h₁ h₂ => hbyte hok x h₁ ?_⟩
      by_cases hlt : s.sizeOfRawData < s.virtualSize
      · have hp : s.sizeOfRawData &&& 0xfff = 0 := by
          by_contra hp
          exact hc ⟨hok, hlt, hp⟩
        have hmod : 0 = s.sizeOfRawData.toNat % 4096 := toNat_and_fff s.sizeOfRawData ▸ congrArg BitVec.toNat hp.symm
        have : pageCeil s.sizeOfRawData.toNat = s.sizeOfRawData.toNat := by
          unfold pageCeil
          omega
        omega
      · rw [BitVec.lt_def] at hlt
        omega
  · have h0 : s.sizeOfRawData = 0 ∨ s.pointerToRawData = 0 := by
      by_contra hn
      exact hm (not_or.mp hn)
    have hpages : s.pages = 0 := if_neg hm
    rw [if_pos h0] at h
    cases h
    exact ⟨fun _ _ => rfl, fun _ x h₁ h₂ => by omega⟩

/-! ## All sections -/

theorem SectionHeader.length_le_room (s : SectionHeader) : s.length ≤ s.room := by
  unfold length room pages
  have := le_pageCeil s.sizeOfRawData.toNat
  split <;> omega

/-- The sections are in memory that was zero, and nothing else changes. -/
theorem loadSections_spec (h : loadSections file load_addr ss m = some (ok, m'))
    (hin : ∀ s ∈ ss, s.Mapped → s.pointerToRawData.toNat + s.sizeOfRawData.toNat ≤ file.length)
    (hb : ∀ s ∈ ss, s.virtualAddress.toNat + s.room < 2 ^ 32)
    (hd : ss.Pairwise fun s t => s.virtualAddress.toNat + s.room ≤ t.virtualAddress.toNat ∨
      t.virtualAddress.toNat + t.room ≤ s.virtualAddress.toNat) :
    (∀ x, (∀ s ∈ ss, ¬ (s.virtualAddress.toNat ≤ (x - load_addr).toNat ∧
      (x - load_addr).toNat < s.virtualAddress.toNat + s.pages)) → m' x = m x) ∧
    (ok = true → (∀ s ∈ ss, ∀ x, s.virtualAddress.toNat ≤ (x - load_addr).toNat →
        (x - load_addr).toNat < s.virtualAddress.toNat + s.virtualSize.toNat → m x = some 0) →
      ∀ s ∈ ss, ∀ x, s.virtualAddress.toNat ≤ (x - load_addr).toNat →
        (x - load_addr).toNat < s.virtualAddress.toNat + s.length →
        m' x = some (s.byte file ((x - load_addr).toNat - s.virtualAddress.toNat))) := by
  induction ss generalizing m with
  | nil =>
    cases h
    exact ⟨fun _ _ => rfl, fun _ _ => List.forall_mem_nil _⟩
  | cons s ss ih =>
    obtain ⟨⟨ok₁, m₁⟩, hs, h⟩ := Option.bind_eq_some_iff.mp h
    rw [List.forall_mem_cons] at hin hb
    rw [List.pairwise_cons] at hd
    obtain ⟨hf, hbyte⟩ := loadSection_spec hs hin.1 hb.1
    dsimp only at h
    split at h
    · rename_i hok₁
      obtain ⟨hf', hbytes⟩ := ih h hin.2 hb.2 hd.2
      refine ⟨fun x hx => ?_, fun hok hz => ?_⟩
      · rw [List.forall_mem_cons] at hx
        rw [hf' x hx.2, hf x hx.1]
      · rw [List.forall_mem_cons] at hz
        refine List.forall_mem_cons.mpr ⟨fun x h₁ h₂ => ?_, hbytes hok fun t ht x h₁ h₂ => ?_⟩
        · -- the other sections are apart from this one
          have hlen := s.length_le_room
          have hroom : s.room = max s.virtualSize.toNat s.pages := rfl
          rw [hf' x fun t ht hx => ?_]
          · by_cases hp : (x - load_addr).toNat < s.virtualAddress.toNat + s.pages
            · exact hbyte hok₁ x h₁ (by omega)
            · rw [hf x (by omega), hz.1 x h₁ (by omega), SectionHeader.byte, if_neg]
              rintro ⟨hm, hlt⟩
              have := le_pageCeil s.sizeOfRawData.toNat
              rw [show s.pages = pageCeil s.sizeOfRawData.toNat from if_pos hm] at hp
              omega
          · have hp : t.pages ≤ t.room := Nat.le_max_right _ _
            rcases hd.1 t ht with h | h <;> omega
        · have hv : t.virtualSize.toNat ≤ t.room := Nat.le_max_left _ _
          have hp : s.pages ≤ s.room := Nat.le_max_right _ _
          rw [hf x fun hx => ?_, hz.2 t ht x h₁ h₂]
          rcases hd.1 t ht with h | h <;> omega
    · rename_i hok₁
      cases h
      refine ⟨fun x hx => hf x (List.forall_mem_cons.mp hx).1, fun hok => (nomatch hok)⟩

theorem pageCeil_le {k : Nat} (h : n ≤ k) (hk : k % 4096 = 0) : pageCeil n ≤ k := by
  unfold pageCeil
  omega

/-- Every section ends within the size that is computed. -/
theorem le_calcVmaSize (vma : BitVec 32) (hb : ∀ s ∈ ss, s.virtualAddress.toNat + s.room < 2 ^ 32 ∧
      s.virtualAddress.toNat + s.sizeOfRawData.toNat < 2 ^ 32) :
    vma.toNat ≤ (calcVmaSize ss vma).toNat ∧
    ∀ s ∈ ss, s.virtualAddress.toNat + s.virtualSize.toNat ≤ (calcVmaSize ss vma).toNat ∧
      s.virtualAddress.toNat + s.sizeOfRawData.toNat ≤ (calcVmaSize ss vma).toNat := by
  induction ss generalizing vma with
  | nil => exact ⟨Nat.le_refl _, List.forall_mem_nil _⟩
  | cons s ss ih =>
    rw [List.forall_mem_cons] at hb
    have hroom : s.virtualSize.toNat ≤ s.room := Nat.le_max_left _ _
    have hraw : (s.virtualAddress + s.sizeOfRawData).toNat = s.virtualAddress.toNat + s.sizeOfRawData.toNat := by
      rw [BitVec.toNat_add, Nat.mod_eq_of_lt hb.1.2]
    have hvirtual : (s.virtualAddress + s.virtualSize).toNat = s.virtualAddress.toNat + s.virtualSize.toNat := by
      rw [BitVec.toNat_add, Nat.mod_eq_of_lt (by omega)]
    -- the larger of two sizes
    have hmax : ∀ u v : BitVec 32,
        u.toNat ≤ (if u > v then u else v).toNat ∧ v.toNat ≤ (if u > v then u else v).toNat := by
      intro u v
      by_cases hgt : u > v
      · rw [if_pos hgt]
        exact ⟨Nat.le_refl _, Nat.le_of_lt hgt⟩
      · rw [if_neg hgt]
        exact ⟨Nat.le_of_not_lt hgt, Nat.le_refl _⟩
    have h₁ := hmax vma (s.virtualAddress + s.sizeOfRawData)
    rw [calcVmaSize]
    revert h₁
    generalize (if vma > s.virtualAddress + s.sizeOfRawData then vma else s.virtualAddress + s.sizeOfRawData) = u
    intro h₁
    have h₂ := hmax u (s.virtualAddress + s.virtualSize)
    obtain ⟨h₃, h₄⟩ := ih _ hb.2
    exact ⟨by omega, List.forall_mem_cons.mpr ⟨⟨by omega, by omega⟩, h₄⟩⟩

end

end DShow.Loader
