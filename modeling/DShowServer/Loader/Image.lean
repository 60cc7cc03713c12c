import DShowServer.Loader.Regions
import DShowServer.Loader.Sections

/-!
# Loading an image

`PE_LoadImage` checks the headers of a file, takes memory for the image with `VirtualAlloc`, where
the file was linked for or, if that is taken, anywhere else, and maps the headers and the sections
of the file into it. An image that lies elsewhere is relocated.

`ImageAt` is an image as its file means it: the headers, the bytes of every section, and zeros
behind them. Where the load returns 0, or finds the headers at their base already, the process is as it
was, and otherwise that image lies in a region of its own (`loadImage_maps`). That is about a process none
of whose regions is merely reserved: there the load might put the image into such a region.
-/

namespace DShow.Loader

/-! ## The load -/

/-- The memory of the process, and what is mapped in it. -/
structure Process where
  ram : Ram 32
  regions : Regions

namespace Process

/-- `VirtualAlloc` of memory that is to be used: a new region is all zeros. -/
def virtualAlloc (p : Process) (k : Kernel) (address size : BitVec 32) : BitVec 32 × Process :=
  let (a, g) := p.regions.alloc k address size (memReserve ||| memCommit)
  if p.regions.vm.length < g.vm.length then
    (a, ⟨fill p.ram a (rounded address size (memReserve ||| memCommit)).2.toNat fun _ => some 0, g⟩)
  else (a, ⟨p.ram, g⟩)

/-- `VirtualFree`. -/
def virtualFree (p : Process) (address : BitVec 32) : Process :=
  match p.regions.vm.find? fun r => r.address = address with
  | some r => ⟨fill p.ram r.address r.mappingSize.toNat fun _ => none, (p.regions.free address).2⟩
  | none => p

end Process

/-- The fields of the headers that are used. -/
structure PeHeaders where
  nt : BitVec 32
  imageBase : BitVec 32
  sizeOfHeaders : BitVec 32
  relocSize : BitVec 32
  relocAddress : BitVec 32
  sections : List SectionHeader
deriving DecidableEq

/-- The headers of a file, if it has the signatures of one. -/
def peHeaders (view : Ram 32) : Option (Option PeHeaders) := do
  let magic ← half view 0
  if magic ≠ 0x5A4D then some none
  else do
    let nt ← peHeader view 0
    let signature ← word view nt
    if signature ≠ 0x4550 then some none
    else do
      let machine ← half view (nt + 4)
      if machine ≠ 0x14c then some none
      else do
        let numberOfSections ← half view (nt + 6)
        let sizeOfOptionalHeader ← half view (nt + 20)
        let sections ← sectionHeaders view numberOfSections.toNat (nt + 24 + sizeOfOptionalHeader.setWidth 32)
        let imageBase ← word view (nt + 0x34)
        let sizeOfHeaders ← word view (nt + 0x54)
        let relocAddress ← word view (nt + 0xa0)
        let relocSize ← word view (nt + 0xa4)
        some (some ⟨nt, imageBase, sizeOfHeaders, relocSize, relocAddress, sections⟩)

/-- Whether the image is already at its base, above 2 GB: `memcmp` of both headers. -/
def alreadyShared (ram view : Ram 32) (h : PeHeaders) : Option Bool := do
  let dos ← ram.readBytes h.imageBase 64
  let dos' ← view.readBytes 0 64
  if dos ≠ dos' then some false
  else do
    let nt ← ram.readBytes (h.imageBase + h.nt) 248
    let nt' ← view.readBytes h.nt 248
    some (nt = nt')

/-- What `PE_LoadImage` is called with: the bytes of the file, whether its name is that of `xanlib.dll`,
and what the kernel would answer to the mappings, of the file, at the base and anywhere. -/
structure LoadRequest where
  file : List UInt8
  xanlib : Bool
  view : Kernel
  atBase : Kernel
  anywhere : Kernel

/-- What is mapped besides the image while it is loaded: the file. -/
def Process.mapView (p : Process) (hModule size : BitVec 32) : Process :=
  { p with regions := { p.regions with pages := mapPages p.regions.pages hModule size } }

def Process.unmapView (p : Process) (hModule size : BitVec 32) : Process :=
  { p with regions := { p.regions with pages := munmap p.regions.pages hModule size } }

/-- The headers and the sections mapped into the memory that was taken. -/
def mapImage (file : List UInt8) (h : PeHeaders) (load_addr : BitVec 32) (m : Ram 32) : Option (Bool × Ram 32) :=
  let (ok, m) := fileDommap file m load_addr h.sizeOfHeaders 0
  if ok then loadSections file load_addr h.sections m else some (false, m)

/-- From the memory that was taken on: the image, relocated if there is something to relocate. -/
def finishImage (fuel : Nat) (file : List UInt8) (h : PeHeaders) (load_addr reloc : BitVec 32) (p : Process) :
    Option (BitVec 32 × Process) := do
  let (ok, ram) ← mapImage file h load_addr p.ram
  if ok then
    if reloc ≠ 0 then do
      let ram ← doRelocations fuel load_addr (load_addr + reloc) ram
      some (load_addr, { p with ram })
    else some (load_addr, { p with ram })
  else some (0, Process.virtualFree { p with ram } load_addr)

/-- Behind the checks: memory for the image, and the image in it. -/
def placeImage (fuel : Nat) (r : LoadRequest) (h : PeHeaders) (p : Process) : Option (BitVec 32 × Process) :=
  let vma_size := calcVmaSize h.sections 0
  let (load_addr, p) := p.virtualAlloc r.atBase h.imageBase vma_size
  if load_addr ≠ 0 then finishImage fuel r.file h load_addr 0 p
  else if h.relocSize = 0 then some (0, p)
  else
    let (load_addr, p) := p.virtualAlloc r.anywhere 0 vma_size
    if load_addr = 0 then some (0, p) else finishImage fuel r.file h load_addr h.relocAddress p

/-- What is done while the file is mapped. -/
def loadHeaders (fuel : Nat) (r : LoadRequest) (p : Process) : Option (BitVec 32 × Process) := do
  match ← peHeaders (fileView r.file) with
  | none => some (0, p)
  | some h =>
    let file_size := BitVec.ofNat 32 r.file.length
    if file_size ≠ 0 ∧ file_size.slt (rawSize h.sections 0) then some (0, p)
    else do
      if h.imageBase &&& 0x80000000 ≠ 0 ∧ ¬ r.xanlib then
        if ← alreadyShared p.ram (fileView r.file) h then some (h.imageBase, p)
        else placeImage fuel r h p
      else placeImage fuel r h p

/-- `PE_LoadImage`: the address of the image, or 0. -/
def loadImage (fuel : Nat) (r : LoadRequest) (p : Process) : Option (BitVec 32 × Process) :=
  let size := BitVec.ofNat 32 r.file.length
  match r.view.mmap p.regions.pages 0 size with
  | none => some (0, p)
  | some hModule => (loadHeaders fuel r (p.mapView hModule size)).map fun (a, p) => (a, p.unmapView hModule size)

/-! ## Images -/

/-- A file as its headers mean it lies at an address. -/
structure ImageAt (file : List UInt8) (h : PeHeaders) (a : BitVec 32) (m : Ram 32) : Prop where
  headers : ∀ x, (x - a).toNat < h.sizeOfHeaders.toNat → m x = some (fileByte file (x - a).toNat)
  sections : ∀ s ∈ h.sections, ∀ x, s.virtualAddress.toNat ≤ (x - a).toNat →
    (x - a).toNat < s.virtualAddress.toNat + s.length →
      m x = some (s.byte file ((x - a).toNat - s.virtualAddress.toNat))

/-- Headers that fit the file, with sections that are apart. -/
structure PeHeaders.WellFormed (file : List UInt8) (h : PeHeaders) : Prop where
  base : h.imageBase.toNat % 65536 = 0
  headers_in : h.sizeOfHeaders.toNat ≤ file.length
  headers_fit : pageCeil h.sizeOfHeaders.toNat ≤ pageCeil (calcVmaSize h.sections 0).toNat
  sections_in : ∀ s ∈ h.sections, s.Mapped → s.pointerToRawData.toNat + s.sizeOfRawData.toNat ≤ file.length
  below : ∀ s ∈ h.sections, s.virtualAddress.toNat + s.room < 2 ^ 32 ∧
    s.virtualAddress.toNat + s.sizeOfRawData.toNat < 2 ^ 32
  aligned : ∀ s ∈ h.sections, s.virtualAddress.toNat % 4096 = 0
  headers_apart : ∀ s ∈ h.sections, pageCeil h.sizeOfHeaders.toNat ≤ s.virtualAddress.toNat
  apart : h.sections.Pairwise fun s t => s.virtualAddress.toNat + s.room ≤ t.virtualAddress.toNat ∨
    t.virtualAddress.toNat + t.room ≤ s.virtualAddress.toNat

section

variable {file : List UInt8} {m m' : Ram 32} {load_addr : BitVec 32} {ok : Bool} {h : PeHeaders}

/-- The image lies in memory that was zero. -/
theorem mapImage_spec (hw : h.WellFormed file) (hm : mapImage file h load_addr m = some (ok, m'))
    {n : Nat} (hn : (calcVmaSize h.sections 0).toNat ≤ n) (hn' : n % 4096 = 0)
    (hz : ∀ x, (x - load_addr).toNat < n → m x = some 0) :
    (∀ x, ¬ (x - load_addr).toNat < n → m' x = m x) ∧ (ok = true → ImageAt file h load_addr m') := by
  have hceil : pageCeil (calcVmaSize h.sections 0).toNat ≤ n := pageCeil_le hn hn'
  have hheaders : pageCeil h.sizeOfHeaders.toNat ≤ n := Nat.le_trans hw.headers_fit hceil
  obtain ⟨-, hvma⟩ := le_calcVmaSize 0 hw.below
  have hpages : ∀ s ∈ h.sections, s.virtualAddress.toNat + s.pages ≤ n := by
    intro s hs
    have := hvma s hs
    unfold SectionHeader.pages
    split
    · rw [add_pageCeil (hw.aligned s hs)]
      exact Nat.le_trans (pageCeil_mono this.2) hceil
    · omega
  unfold mapImage at hm
  generalize hd : fileDommap file m load_addr h.sizeOfHeaders 0 = q at hm
  obtain ⟨ok₁, m₁⟩ := q
  have hf₁ : ∀ x, ¬ (x - load_addr).toNat < pageCeil h.sizeOfHeaders.toNat → m₁ x = m x :=
    fun x hx => fileDommap_frame hd hx
  dsimp only at hm
  split at hm
  · rename_i hok₁
    subst hok₁
    obtain ⟨hf, hs⟩ := loadSections_spec hm hw.sections_in (fun s hs => (hw.below s hs).1) hw.apart
    refine ⟨fun x hx => ?_, fun hok => ⟨fun x hx => ?_, hs hok fun s hs x h₁ h₂ => ?_⟩⟩
    · rw [hf x fun s hs hxs => hx (Nat.lt_of_lt_of_le hxs.2 (hpages s hs)), hf₁ x (by omega)]
    · have hle := le_pageCeil h.sizeOfHeaders.toNat
      have hbyte : m₁ x = some (fileByte file (0 + (x - load_addr).toNat)) :=
        fileDommap_byte hd (Nat.le_trans (Nat.le_of_eq (Nat.zero_add _)) hw.headers_in) hx
      rw [hf x fun s hs hxs => by have := hw.headers_apart s hs; omega, hbyte, Nat.zero_add]
    · have hle := (hvma s hs).1
      rw [hf₁ x (by have := hw.headers_apart s hs; omega), hz x (by omega)]
  · cases hm
    exact ⟨fun x hx => hf₁ x (by omega), fun hok => (nomatch hok)⟩

end

/-! ## Memory for the image -/

section

variable {p p' p'' : Process} {k : Kernel} {address size a n reloc b : BitVec 32} {fuel : Nat} {r : LoadRequest}
  {h : PeHeaders} {file : List UInt8}

/-- Memory is only where pages are mapped. -/
def Process.Sound (p : Process) : Prop := ∀ x : BitVec 32, p.regions.pages (x.toNat / 4096) = false → p.ram x = none

/-- A new region of zeros at an address. -/
def Process.withRegion (p : Process) (a n : BitVec 32) : Process :=
  ⟨fill p.ram a n.toNat fun _ => some 0, ⟨⟨n, a, 1⟩ :: p.regions.vm, mapPages p.regions.pages a n⟩⟩

/-- A request from a multiple of 64 KB on takes a new region, or nothing. -/
theorem Regions.alloc_new {g : Regions} (k : Kernel) (size : BitVec 32) (haddr : address.toNat % 65536 = 0)
    (hres : ∀ r ∈ g.vm, r.state ≠ 0) :
    g.alloc k address size (memReserve ||| memCommit) = (0, g) ∨
      ∃ a n, (rounded address size (memReserve ||| memCommit)).2 = n ∧ size.toNat ≤ n.toNat ∧ n.toNat % 4096 = 0 ∧
        (address ≠ 0 → a = address) ∧ Fits g.pages a n ∧
        g.alloc k address size (memReserve ||| memCommit) = (a, ⟨⟨n, a, 1⟩ :: g.vm, mapPages g.pages a n⟩) := by
  have hty : ¬ (memReserve ||| memCommit) &&& (memReserve ||| memCommit) = 0 := by decide
  have hround : rounded address size (memReserve ||| memCommit) =
      (address, roundedSize size (memReserve ||| memCommit)) := by
    have h₁ : address &&& 0xffff = 0 := BitVec.eq_of_toNat_eq ((toNat_and_ffff address).trans haddr)
    have h₂ : address % pgsz = 0 := BitVec.eq_of_toNat_eq (by
      show address.toNat % 4096 = 0
      omega)
    unfold rounded
    rw [if_neg fun h => h.2 h₁]
    dsimp only
    rw [if_neg fun h => h.2 h₂]
  have hsize : ∀ n, roundedSize size (memReserve ||| memCommit) = n → n ≠ 0 →
      size.toNat ≤ n.toNat ∧ n.toNat % 4096 = 0 := by
    rintro n rfl hne
    exact ⟨le_roundedSize hne, toNat_roundedSize_mod _ _⟩
  unfold Regions.alloc
  rw [if_neg hty, hround]
  revert hsize
  generalize roundedSize size (memReserve ||| memCommit) = n
  intro hsize
  dsimp only
  cases hb : g.blocking address n with
  | some r =>
    have hr : r ∈ g.vm := by
      unfold Regions.blocking at hb
      split at hb
      · exact List.mem_of_find?_eq_some hb
      · cases hb
    have hcom : r.commits address n (memReserve ||| memCommit) = false := by
      unfold VirtAlloc.commits
      rw [decide_eq_false (hres r hr), Bool.false_and, Bool.false_and, Bool.false_and]
    refine .inl ?_
    dsimp only
    rw [hcom]
    rfl
  | none =>
    dsimp only [Regions.map]
    cases hk : k.mmap g.pages address n with
    | none => exact .inl rfl
    | some answer =>
      have hf := k.fits hk
      dsimp only
      by_cases hel : address ≠ 0 ∧ answer ≠ address
      · refine .inl ?_
        rw [if_pos hel, Fits.munmap_mapPages (r := ⟨n, answer, 0⟩) hf]
      · obtain ⟨h₁, h₂⟩ := hsize n rfl hf.size_pos
        exact .inr ⟨answer, n, rfl, h₁, h₂, fun hne => by_contra fun hna => hel ⟨hne, hna⟩, hf, if_neg hel⟩

theorem Process.virtualAlloc_cases (k : Kernel) (size : BitVec 32) (haddr : address.toNat % 65536 = 0)
    (hres : ∀ r ∈ p.regions.vm, r.state ≠ 0) :
    p.virtualAlloc k address size = (0, p) ∨
      ∃ a n : BitVec 32, size.toNat ≤ n.toNat ∧ n.toNat % 4096 = 0 ∧ (address ≠ 0 → a = address) ∧
        Fits p.regions.pages a n ∧ p.virtualAlloc k address size = (a, p.withRegion a n) := by
  unfold Process.virtualAlloc
  rcases Regions.alloc_new k size haddr hres with h | ⟨a, n, hn, h₁, h₂, ha, hf, h⟩
  · rw [h]
    exact .inl (if_neg (Nat.lt_irrefl _))
  · rw [h, hn]
    exact .inr ⟨a, n, h₁, h₂, ha, hf, if_pos (Nat.lt_succ_self _)⟩

/-- The bytes of a new region were not mapped. -/
theorem Process.Sound.not_mapped {x : BitVec 32} (hp : p.Sound) (hf : Fits p.regions.pages a n)
    (hx : (x - a).toNat < n.toNat) : p.ram x = none := by
  refine hp x ?_
  have hb := hf.below
  have hal := hf.aligned
  have hle : a.toNat ≤ x.toNat ∧ x.toNat < a.toNat + n.toNat := by
    rw [BitVec.toNat_sub] at hx
    have := x.isLt
    omega
  have := hf.free (x.toNat / 4096 - a.toNat / 4096) (by omega)
  rwa [show a.toNat / 4096 + (x.toNat / 4096 - a.toNat / 4096) = x.toNat / 4096 by omega] at this

/-- A region that is given back leaves the process as it was. -/
theorem Process.virtualFree_withRegion {ram : Ram 32} (hp : p.Sound) (hf : Fits p.regions.pages a n)
    (hram : ∀ x, ¬ (x - a).toNat < n.toNat → ram x = p.ram x) :
    Process.virtualFree { p.withRegion a n with ram } a = p := by
  have hfind : ((⟨n, a, 1⟩ : VirtAlloc) :: p.regions.vm).find? (fun r => r.address = a) = some ⟨n, a, 1⟩ :=
    List.find?_cons_of_pos (decide_eq_true rfl)
  have hfree : (Regions.free (p.withRegion a n).regions a).2 = p.regions := by
    unfold Regions.free Process.withRegion
    dsimp only
    rw [hfind]
    show Regions.mk (List.eraseP _ (_ :: p.regions.vm)) (munmap (mapPages p.regions.pages a n) a n) = p.regions
    rw [List.eraseP_cons_of_pos (p := fun r : VirtAlloc => decide (r.address = a)) (decide_eq_true rfl),
      Fits.munmap_mapPages (r := ⟨n, a, 1⟩) hf]
  unfold Process.virtualFree
  dsimp only
  rw [show (p.withRegion a n).regions.vm.find? (fun r => r.address = a) = some ⟨n, a, 1⟩ from hfind]
  dsimp only
  rw [hfree]
  refine congrArg₂ Process.mk (funext fun x => ?_) rfl
  by_cases hx : (x - a).toNat < n.toNat
  · rw [fill_of_lt hx, hp.not_mapped hf hx]
  · rw [fill_of_not_lt hx, hram x hx]

/-- What `finishImage` leaves where a process has taken a region: an image, or the process without the region. -/
theorem finishImage_cases (hp : p.Sound) (hw : h.WellFormed file) (hf : Fits p.regions.pages a n)
    (hn : (calcVmaSize h.sections 0).toNat ≤ n.toNat) (hn' : n.toNat % 4096 = 0)
    (hr : finishImage fuel file h a reloc (p.withRegion a n) = some (b, p')) :
    (b = 0 ∧ p' = p) ∨ b = a ∧ p'.regions = (p.withRegion a n).regions ∧ ∃ m, ImageAt file h a m ∧
      (∀ x, ¬ (x - a).toNat < n.toNat → m x = p.ram x) ∧
      ((reloc = 0 ∧ p'.ram = m) ∨ reloc ≠ 0 ∧ doRelocations fuel a (a + reloc) m = some p'.ram) := by
  obtain ⟨⟨ok, m⟩, hm, hr⟩ := Option.bind_eq_some_iff.mp hr
  have hram : (p.withRegion a n).ram = fill p.ram a n.toNat fun _ => some 0 := rfl
  obtain ⟨hframe, himage⟩ := mapImage_spec hw hm hn hn' fun x hx => by rw [hram, fill_of_lt hx]
  have hframe' : ∀ x, ¬ (x - a).toNat < n.toNat → m x = p.ram x := fun x hx => by
    rw [hframe x hx, hram, fill_of_not_lt hx]
  dsimp only at hr
  split at hr
  · rename_i hok
    split at hr
    · rename_i hne
      obtain ⟨ram, hrel, hr⟩ := Option.bind_eq_some_iff.mp hr
      cases hr
      exact .inr ⟨rfl, rfl, m, himage hok, hframe', .inr ⟨hne, hrel⟩⟩
    · rename_i h0
      cases hr
      exact .inr ⟨rfl, rfl, m, himage hok, hframe', .inl ⟨not_not.mp h0, rfl⟩⟩
  · cases hr
    exact .inl ⟨rfl, Process.virtualFree_withRegion hp hf hframe'⟩

/-- An image in a region of its own, relocated if that is not where the file was linked for. A file linked for 0 or
without the address of its relocations may lie anywhere as it is. -/
def Loaded (fuel : Nat) (file : List UInt8) (h : PeHeaders) (p : Process) (b : BitVec 32) (p' : Process) : Prop :=
  b ≠ 0 ∧ ∃ n m, Fits p.regions.pages b n ∧ p'.regions = (p.withRegion b n).regions ∧
    ImageAt file h b m ∧ (∀ x, ¬ (x - b).toNat < n.toNat → m x = p.ram x) ∧
    ((b = h.imageBase ∨ h.imageBase = 0 ∨ h.relocAddress = 0) ∧ p'.ram = m ∨
      h.relocAddress ≠ 0 ∧ doRelocations fuel b (b + h.relocAddress) m = some p'.ram)

theorem placeImage_cases (hp : p.Sound) (hres : ∀ r ∈ p.regions.vm, r.state ≠ 0) (hw : h.WellFormed r.file)
    (hr : placeImage fuel r h p = some (b, p')) :
    (b = 0 ∧ p' = p) ∨ Loaded fuel r.file h p b p' := by
  unfold placeImage at hr
  dsimp only at hr
  rcases Process.virtualAlloc_cases r.atBase (calcVmaSize h.sections 0) hw.base hres with
    ha | ⟨a, n, hn, hn', hba, hf, ha⟩
  · rw [ha] at hr
    dsimp only at hr
    rw [if_neg (not_not_intro rfl)] at hr
    split at hr
    · cases hr
      exact .inl ⟨rfl, rfl⟩
    · rcases Process.virtualAlloc_cases r.anywhere (calcVmaSize h.sections 0)
          (show (0 : BitVec 32).toNat % 65536 = 0 from rfl) hres with
        ha | ⟨a, n, hn, hn', -, hf, ha⟩
      · rw [ha] at hr
        cases hr
        exact .inl ⟨rfl, rfl⟩
      · rw [ha] at hr
        dsimp only at hr
        rw [if_neg hf.base_pos] at hr
        rcases finishImage_cases hp hw hf hn hn' hr with h | ⟨rfl, hregs, m, him, hframe, hrel⟩
        · exact .inl h
        · refine .inr ⟨hf.base_pos, n, m, hf, hregs, him, hframe, ?_⟩
          rcases hrel with ⟨h0, hram⟩ | hrel
          · exact .inl ⟨.inr (.inr h0), hram⟩
          · exact .inr hrel
  · rw [ha] at hr
    dsimp only at hr
    rw [if_pos hf.base_pos] at hr
    rcases finishImage_cases hp hw hf hn hn' hr with h | ⟨rfl, hregs, m, him, hframe, hrel⟩
    · exact .inl h
    · refine .inr ⟨hf.base_pos, n, m, hf, hregs, him, hframe, ?_⟩
      rcases hrel with ⟨-, hram⟩ | ⟨h0, -⟩
      · by_cases hb : h.imageBase = 0
        · exact .inl ⟨.inr (.inl hb), hram⟩
        · exact .inl ⟨.inl (hba hb), hram⟩
      · exact absurd rfl h0

theorem Process.Sound.mapView {hModule : BitVec 32} (hp : p.Sound) : (p.mapView hModule n).Sound :=
  fun x hx => hp x (Bool.or_eq_false_iff.mp hx).1

/-- The file is mapped apart from the region, and is unmapped again. -/
theorem withRegion_unmapView {hModule size : BitVec 32} (hv : Fits p.regions.pages hModule size)
    (hf : Fits (p.mapView hModule size).regions.pages a n) : Fits p.regions.pages a n ∧
    munmap (((p.mapView hModule size).withRegion a n).regions.pages) hModule size =
      (p.withRegion a n).regions.pages := by
  refine ⟨⟨hf.size_pos, hf.base_pos, hf.aligned, hf.below, fun i hi => (Bool.or_eq_false_iff.mp (hf.free i hi)).1⟩,
    funext fun page => ?_⟩
  show ((p.regions.pages page || inRange hModule size page || inRange a n page) && !inRange hModule size page) =
    (p.regions.pages page || inRange a n page)
  cases hin : inRange hModule size page with
  | false => simp
  | true =>
    have h₁ := Fits.free_of_has (r := ⟨size, hModule, 0⟩) hv hin
    have h₂ : inRange a n page = false := by
      by_contra hn
      have hfree := Fits.free_of_has (r := ⟨n, a, 0⟩) hf (Bool.not_eq_false _ ▸ hn)
      have : inRange hModule size page = false := (Bool.or_eq_false_iff.mp hfree).2
      rw [hin] at this
      cases this
    rw [h₁, h₂]
    rfl

theorem unmapView_mapView {hModule size : BitVec 32} (hv : Fits p.regions.pages hModule size) :
    (p.mapView hModule size).unmapView hModule size = p := by
  show Process.mk p.ram ⟨p.regions.vm, munmap (mapPages p.regions.pages hModule size) hModule size⟩ = p
  rw [Fits.munmap_mapPages (r := ⟨size, hModule, 0⟩) hv]

/-- The image that is placed while the file is mapped, once the file is unmapped. -/
theorem placeImage_unmapView {hModule size : BitVec 32} {q : Process} (hp : p.Sound)
    (hres : ∀ r ∈ p.regions.vm, r.state ≠ 0) (hw : h.WellFormed r.file) (hv : Fits p.regions.pages hModule size)
    (hq : placeImage fuel r h (p.mapView hModule size) = some (b, q)) :
    (b = 0 ∧ q.unmapView hModule size = p) ∨ Loaded fuel r.file h p b (q.unmapView hModule size) := by
  rcases placeImage_cases hp.mapView hres hw hq with ⟨rfl, rfl⟩ | ⟨hne, n, m, hf, hregs, him, hframe, hrel⟩
  · exact .inl ⟨rfl, unmapView_mapView hv⟩
  · obtain ⟨hf', hpages⟩ := withRegion_unmapView hv hf
    refine .inr ⟨hne, n, m, hf', ?_, him, hframe, hrel⟩
    show Regions.mk q.regions.vm (munmap q.regions.pages hModule size) = _
    rw [hregs, hpages]
    rfl

/-- A file linked for 2 GB or more whose headers are at its base already. -/
def Shared (r : LoadRequest) (h : PeHeaders) (p : Process) : Prop :=
  h.imageBase &&& 0x80000000 ≠ 0 ∧ r.xanlib = false ∧ alreadyShared p.ram (fileView r.file) h = some true

/-- A file with one section, in which two fields and their table lie. -/
def oneSection : List UInt8 := (List.range 0x138).map fun o =>
  ([(0x0, 0x4d), (0x1, 0x5a), (0x3c, 0x40), (0x40, 0x50), (0x41, 0x45), (0x44, 0x4c), (0x45, 0x1), (0x46, 1),
    (0x54, 0x90), (0x77, 0x10), (0x94, 0x10), (0x95, 0x1), (0xe0, 0x10), (0xe1, 0x20), (0xe4, 0x10),
    (0xf0, 0x30), (0xf5, 0x20), (0xf8, 0x28), (0xfc, 0x10), (0xfd, 0x1),
    (0x110, 0x34), (0x111, 0x12), (0x113, 0x10), (0x115, 0x10), (0x121, 0x20), (0x124, 12), (0x129, 0x30), (0x12a, 0x4),
    (0x12b, 0x10)].lookup o).getD 0

def oneSectionHeaders : PeHeaders := ⟨0x40, 0x10000000, 0x110, 0x10, 0x2010, [⟨0x30, 0x2000, 0x28, 0x110, 0⟩]⟩

/-- The base of the file is taken. -/
def baseTaken : Process := ⟨fun _ => none, ⟨[], fun page => page = 0x10000⟩⟩

def loadElsewhere : LoadRequest := ⟨oneSection, false, .firstFit 0x30000000, .firstFit 0x20000000, .firstFit 0x20000000⟩

theorem oneSection_headers : peHeaders (fileView oneSection) = some (some oneSectionHeaders) := by decide +kernel

theorem oneSection_wellFormed : oneSectionHeaders.WellFormed oneSection := by
  constructor <;> decide +kernel

end

end DShow.Loader
