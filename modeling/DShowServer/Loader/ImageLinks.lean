import DShowServer.Loader.Image

/-!
# The image where it lies

The headers, and every part of a section, read in the image as they do in the file, so that `do_relocations` finds
there the `ImageBase` and the table that the file has. An image that `PE_LoadImage` has loaded is that of the file
but for the relocated fields, and linked for where it lies exactly if no `IMAGE_REL_BASED_HIGH` field loses
a carry (`loadImage_links`).
-/

namespace DShow.Loader

open Ram (Within)

variable {p p' : Process} {a b : BitVec 32} {fuel : Nat} {r : LoadRequest} {h : PeHeaders} {file : List UInt8}

/-- The headers in memory are those of the file. -/
theorem ImageAt.header_byte {m : Ram 32} {x : BitVec 32} (hin : h.sizeOfHeaders.toNat ≤ file.length)
    (hm : ImageAt file h a m) (hx : x.toNat < h.sizeOfHeaders.toNat) : m (a + x) = fileView file x := by
  have hax : a + x - a = x := by grind
  have hx₀ : (x - 0).toNat = x.toNat := congrArg _ (BitVec.sub_zero x)
  have hlt : x.toNat < pageCeil file.length := Nat.lt_of_lt_of_le hx (Nat.le_trans hin (le_pageCeil _))
  rw [hm.headers _ (hax.symm ▸ hx), hax, fileView, fill_of_lt (hx₀.symm ▸ hlt), hx₀]

theorem ImageAt.readLE {m : Ram 32} {x : BitVec 32} {n : Nat} (hin : h.sizeOfHeaders.toNat ≤ file.length)
    (hm : ImageAt file h a m) (hx : x.toNat + n ≤ h.sizeOfHeaders.toNat) :
    m.readLE (a + x) n = (fileView file).readLE x n := by
  refine congrArg (Option.map _) (Ram.readBytes_shift fun i hi => ?_)
  rw [BitVec.add_assoc]
  refine hm.header_byte hin ?_
  rw [BitVec.toNat_add, BitVec.toNat_ofNat]
  have := h.sizeOfHeaders.isLt
  rw [Nat.mod_eq_of_lt (a := i) (by omega), Nat.mod_eq_of_lt (by omega)]
  omega

/-- A part of a section is a part of the file. -/
theorem ImageAt.readBytes {m : Ram 32} {s : SectionHeader} (hw : h.WellFormed file) (hs : s ∈ h.sections)
    (hs' : s.Mapped) (hm : ImageAt file h a m) {o : BitVec 32} {n : Nat} (hn : o.toNat + n ≤ s.sizeOfRawData.toNat)
    (hfile : file.length < 2 ^ 32) :
    m.readBytes (a + (s.virtualAddress + o)) n = (fileView file).readBytes (s.pointerToRawData + o) n := by
  have hin := hw.sections_in s hs hs'
  have hbelow := (hw.below s hs).2
  refine Ram.readBytes_shift fun i hi => ?_
  have hsum : ∀ {x : BitVec 32}, x.toNat + s.sizeOfRawData.toNat < 2 ^ 32 →
      (x + o + BitVec.ofNat 32 i).toNat = x.toNat + o.toNat + i := fun {x} hx => by
    rw [BitVec.toNat_add, BitVec.toNat_add, BitVec.toNat_ofNat, Nat.mod_eq_of_lt (a := i) (by omega),
      Nat.mod_eq_of_lt (a := x.toNat + o.toNat) (by omega), Nat.mod_eq_of_lt (by omega)]
  have hv := hsum hbelow
  have hp := hsum (x := s.pointerToRawData) (by omega)
  have hx : a + (s.virtualAddress + o) + BitVec.ofNat 32 i - a = s.virtualAddress + o + BitVec.ofNat 32 i := by grind
  have hx₀ : (s.pointerToRawData + o + BitVec.ofNat 32 i - 0).toNat = s.pointerToRawData.toNat + o.toNat + i :=
    (congrArg _ (BitVec.sub_zero _)).trans hp
  have hlen : s.sizeOfRawData.toNat ≤ s.length := by
    unfold SectionHeader.length
    rw [if_pos hs']
    exact Nat.le_max_right _ _
  rw [hm.sections s hs _ (by rw [hx, hv]; omega) (by rw [hx, hv]; omega), hx, hv, SectionHeader.byte,
    if_pos ⟨hs', by omega⟩, fileView, fill_of_lt (by rw [hx₀]; have := le_pageCeil file.length; omega), hx₀]
  congr 2
  omega

/-- Where the headers are read from. -/
theorem peHeaders_base {view : Ram 32} (hh : peHeaders view = some (some h)) :
    peHeader view 0 = some h.nt ∧ word view (h.nt + 0x34) = some h.imageBase := by
  obtain ⟨magic, -, hh⟩ := Option.bind_eq_some_iff.mp hh
  split at hh
  · cases hh
  obtain ⟨nt, hpe, hh⟩ := Option.bind_eq_some_iff.mp hh
  obtain ⟨signature, -, hh⟩ := Option.bind_eq_some_iff.mp hh
  split at hh
  · cases hh
  obtain ⟨machine, -, hh⟩ := Option.bind_eq_some_iff.mp hh
  split at hh
  · cases hh
  obtain ⟨_, -, hh⟩ := Option.bind_eq_some_iff.mp hh
  obtain ⟨_, -, hh⟩ := Option.bind_eq_some_iff.mp hh
  obtain ⟨_, -, hh⟩ := Option.bind_eq_some_iff.mp hh
  obtain ⟨base, hbase, hh⟩ := Option.bind_eq_some_iff.mp hh
  obtain ⟨_, -, hh⟩ := Option.bind_eq_some_iff.mp hh
  obtain ⟨_, -, hh⟩ := Option.bind_eq_some_iff.mp hh
  obtain ⟨_, -, hh⟩ := Option.bind_eq_some_iff.mp hh
  cases hh
  exact ⟨hpe, hbase⟩

/-- `ImageBase` as it is read from the image. -/
theorem ImageAt.imageBase {m : Ram 32} (hh : peHeaders (fileView file) = some (some h))
    (hin : h.sizeOfHeaders.toNat ≤ file.length) (hdos : 0x40 ≤ h.sizeOfHeaders.toNat)
    (hnt : h.nt.toNat + 0x38 ≤ h.sizeOfHeaders.toNat) (hm : ImageAt file h a m) :
    imageBase m a = some h.imageBase := by
  obtain ⟨hpe, hbase⟩ := peHeaders_base hh
  obtain ⟨e_lfanew, he, hpe⟩ := Option.map_eq_some_iff.mp hpe
  have hpe : BitVec.ofNat 32 e_lfanew = h.nt := (BitVec.zero_add _).symm.trans hpe
  have hnt' : (h.nt + 0x34).toNat = h.nt.toNat + 0x34 := by
    have := h.sizeOfHeaders.isLt
    rw [BitVec.toNat_add]
    exact Nat.mod_eq_of_lt (by show h.nt.toNat + 0x34 < 2 ^ 32; omega)
  have hread : m.readLE (a + 0x3c) 4 = some e_lfanew := (hm.readLE hin hdos).trans he
  unfold DShow.Loader.imageBase peHeader
  rw [hread, Option.map_some, Option.bind_eq_bind, Option.bind_some, hpe, BitVec.add_assoc,
    hm.readLE hin (by rw [hnt']; omega)]
  exact hbase

/-- An image at an address has a table of relocations whose fields are apart from it and from one another, and is
linked for `ImageBase`. -/
structure Relocatable (file : List UInt8) (h : PeHeaders) (a : BitVec 32) (blocks : List RelocBlock)
    (target : Field → BitVec 32) : Prop where
  dos_in : 0x40 ≤ h.sizeOfHeaders.toNat
  nt_in : h.nt.toNat + 0x38 ≤ h.sizeOfHeaders.toNat
  address : h.relocAddress ≠ 0
  length : (tableBytes blocks).length ≤ 2 ^ 32
  table : ∀ m, ImageAt file h a m → m.Holds (a + h.relocAddress) (tableBytes blocks)
  linked : ∀ m, ImageAt file h a m → Linked m h.imageBase target (fieldsOf a blocks)
  off_table : ∀ f ∈ fieldsOf a blocks, ∀ x, Within (a + h.relocAddress) (tableBytes blocks).length x → ¬ f.Has x
  apart : (fieldsOf a blocks).Pairwise fun f g => ∀ x, f.Has x → ¬ g.Has x

/-- A table of one block, for two fields. -/
def twoFields : RelocBlock := ⟨0x2000, [0x3000, 0x1004], by decide, by decide⟩

end DShow.Loader
