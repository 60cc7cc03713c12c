import DShowServer.Framework.Chain
import DShowServer.Framework.Simulate
import Mathlib.Data.BitVec

/-!
# `VirtualAlloc` and `VirtualFree`

The loader keeps a list of the regions it has mapped, and maps and unmaps pages with
`mmap` and `munmap`. What the kernel does with a request is a parameter with its
contract (`Kernel`): without `MAP_FIXED` a mapping takes pages that nothing has.

`Space` is the list in memory, linked both ways, and `Regions` the same with a plain
list. They give the same results over every run (`virtual_track`), in which the
regions stay apart from one another and are all that is mapped (`Regions.Sound`).
-/

namespace DShow.Loader

def memCommit : BitVec 32 := 0x1000

def memReserve : BitVec 32 := 0x2000

/-- `sysconf(_SC_PAGESIZE)`. -/
def pgsz : BitVec 32 := 4096

/-- `virt_alloc`. -/
structure VirtAlloc where
  mappingSize : BitVec 32
  address : BitVec 32
  state : Nat
deriving DecidableEq, Repr

/-! ## The kernel -/

/-- A page of the mapping of some bytes at a base. -/
def inRange (base size : BitVec 32) (page : Nat) : Bool :=
  base.toNat ≤ page * 4096 && page * 4096 < base.toNat + size.toNat

/-- Where `mmap` may put a mapping: at the start of a page, within the addresses of a process
and on pages that are free. -/
structure Fits (pages : Nat → Bool) (base size : BitVec 32) : Prop where
  size_pos : size ≠ 0
  base_pos : base ≠ 0
  aligned : base.toNat % 4096 = 0
  below : base.toNat + size.toNat < 2 ^ 32
  free : ∀ i < (size.toNat + 4095) / 4096, pages (base.toNat / 4096 + i) = false

instance (pages : Nat → Bool) (base size : BitVec 32) : Decidable (Fits pages base size) :=
  decidable_of_iff (size ≠ 0 ∧ base ≠ 0 ∧ base.toNat % 4096 = 0 ∧ base.toNat + size.toNat < 2 ^ 32 ∧
      ∀ i < (size.toNat + 4095) / 4096, pages (base.toNat / 4096 + i) = false)
    ⟨fun ⟨h₁, h₂, h₃, h₄, h₅⟩ => ⟨h₁, h₂, h₃, h₄, h₅⟩, fun ⟨h₁, h₂, h₃, h₄, h₅⟩ => ⟨h₁, h₂, h₃, h₄, h₅⟩⟩

/-- What `mmap` without `MAP_FIXED` answers to an address that is asked for and a size. -/
structure Kernel where
  mmap : (Nat → Bool) → BitVec 32 → BitVec 32 → Option (BitVec 32)
  fits : ∀ {pages : Nat → Bool} {hint size base : BitVec 32},
    mmap pages hint size = some base → Fits pages base size

/-- The kernel that takes the address asked for, or else another, if there is room. -/
def Kernel.firstFit (other : BitVec 32) : Kernel where
  mmap pages hint size :=
    if Fits pages hint size then some hint else if Fits pages other size then some other else none
  fits h := by
    split at h
    · cases h; assumption
    · split at h
      · cases h; assumption
      · cases h

def mapPages (pages : Nat → Bool) (base size : BitVec 32) : Nat → Bool :=
  fun page => pages page || inRange base size page

/-- `munmap`. -/
def munmap (pages : Nat → Bool) (base size : BitVec 32) : Nat → Bool :=
  fun page => pages page && !inRange base size page

/-! ## The calls -/

/-- A size in pages, the least that a new region has included. -/
def roundedSize (size type : BitVec 32) : BitVec 32 :=
  let size := if type &&& memReserve ≠ 0 ∧ size < 0x10000 then 0x10000 else size
  if size % pgsz ≠ 0 then size + (pgsz - size % pgsz) else size

/-- The address and the size that are asked for, the one rounded down and the other up. -/
def rounded (address size type : BitVec 32) : BitVec 32 × BitVec 32 :=
  let (address, size) := if type &&& memReserve ≠ 0 ∧ address &&& 0xffff ≠ 0
    then (address &&& ~~~0xffff, size + (address &&& 0xffff)) else (address, size)
  let (address, size) := if type &&& memCommit ≠ 0 ∧ address % pgsz ≠ 0
    then (address - address % pgsz, size + address % pgsz) else (address, size)
  (address, roundedSize size type)

/-- A region that the walk stops at. -/
def VirtAlloc.overlaps (address size : BitVec 32) (r : VirtAlloc) : Bool :=
  ¬ address ≥ r.address + r.mappingSize && ¬ address + size ≤ r.address

/-- A region that was reserved and may be committed. -/
def VirtAlloc.commits (address size type : BitVec 32) (r : VirtAlloc) : Bool :=
  r.state = 0 && address ≥ r.address && address + size ≤ r.address + r.mappingSize && type &&& memCommit ≠ 0

/-- The state of a new region. -/
def newState (type : BitVec 32) : Nat := if type = memReserve then 0 else 1

/-- The list `vm` and the pages that are mapped. -/
structure Space where
  vm : Chain VirtAlloc
  pages : Nat → Bool

namespace Space

/-- `VirtualAlloc`. -/
def virtualAlloc (s : Space) (k : Kernel) (address size type : BitVec 32) : Option (BitVec 32 × Space) :=
  if type &&& (memReserve ||| memCommit) = 0 then some (0, s)
  else
    let (address, size) := rounded address size type
    do
      let str ← (if address ≠ 0 then s.vm.find (VirtAlloc.overlaps address size) else some 0)
      if str ≠ 0 then
        let r ← s.vm.value str
        pure (if r.commits address size type then address else 0, s)
      else
        match k.mmap s.pages address size with
        | none => pure (0, s)
        | some answer =>
          if address ≠ 0 ∧ answer ≠ address then
            -- the mapping is elsewhere and is given back
            pure (0, { s with pages := munmap (mapPages s.pages answer size) answer size })
          else
            let (_, vm) ← s.vm.push ⟨size, answer, newState type⟩
            pure (answer, ⟨vm, mapPages s.pages answer size⟩)

/-- `VirtualFree`: 0, or -1 for an address that is not the start of a region. -/
def virtualFree (s : Space) (address : BitVec 32) : Option (BitVec 32 × Space) := do
  let str ← s.vm.find fun r => r.address = address
  if str ≠ 0 then
    let r ← s.vm.value str
    let vm ← s.vm.unlink str
    pure (0, ⟨vm, munmap s.pages r.address r.mappingSize⟩)
  else pure (-1, s)

end Space

/-- A call, with what the kernel would answer then. -/
inductive VirtualCall
  | alloc (k : Kernel) (address size type : BitVec 32)
  | free (address : BitVec 32)

def Space.call (s : Space) : VirtualCall → Option (BitVec 32 × Space)
  | .alloc k address size type => s.virtualAlloc k address size type
  | .free address => s.virtualFree address

/-! ## The regions as a list -/

/-- The regions, the newest first, and the pages that are mapped. -/
structure Regions where
  vm : List VirtAlloc
  pages : Nat → Bool

namespace Regions

/-- A mapping, kept if it is where it was asked for. -/
def map (s : Regions) (k : Kernel) (address size type : BitVec 32) : BitVec 32 × Regions :=
  match k.mmap s.pages address size with
  | none => (0, s)
  | some answer =>
    if address ≠ 0 ∧ answer ≠ address then
      (0, { s with pages := munmap (mapPages s.pages answer size) answer size })
    else (answer, ⟨⟨size, answer, newState type⟩ :: s.vm, mapPages s.pages answer size⟩)

/-- The region in the way of a request. -/
def blocking (s : Regions) (address size : BitVec 32) : Option VirtAlloc :=
  if address ≠ 0 then s.vm.find? (VirtAlloc.overlaps address size) else none

def alloc (s : Regions) (k : Kernel) (address size type : BitVec 32) : BitVec 32 × Regions :=
  if type &&& (memReserve ||| memCommit) = 0 then (0, s)
  else
    let (address, size) := rounded address size type
    match s.blocking address size with
    | some r => (if r.commits address size type then address else 0, s)
    | none => s.map k address size type

def free (s : Regions) (address : BitVec 32) : BitVec 32 × Regions :=
  match s.vm.find? fun r => r.address = address with
  | some r => (0, ⟨s.vm.eraseP fun r => r.address = address, munmap s.pages r.address r.mappingSize⟩)
  | none => (-1, s)

def call (s : Regions) : VirtualCall → BitVec 32 × Regions
  | .alloc k address size type => s.alloc k address size type
  | .free address => s.free address

end Regions

/-! ## The list in memory -/

variable {s : Space} {g : Regions} {k : Kernel} {address size type : BitVec 32}

/-- The list in memory is that of the regions. -/
structure Space.Tracks (s : Space) (g : Regions) : Prop where
  vm : s.vm.Represents g.vm
  pages : s.pages = g.pages

theorem Space.Tracks.virtualAlloc (h : s.Tracks g) (k : Kernel) (address size type : BitVec 32) :
    ∃ s', s.virtualAlloc k address size type = some ((g.alloc k address size type).1, s') ∧
      s'.Tracks (g.alloc k address size type).2 := by
  unfold Space.virtualAlloc Regions.alloc
  by_cases hty : type &&& (memReserve ||| memCommit) = 0
  · rw [if_pos hty, if_pos hty]
    exact ⟨s, rfl, h⟩
  · rw [if_neg hty, if_neg hty]
    generalize rounded address size type = q
    obtain ⟨a, n⟩ := q
    dsimp only
    have hwalk : ∃ str, (if a ≠ 0 then s.vm.find (VirtAlloc.overlaps a n) else some 0) = some str ∧
        (str ≠ 0 → s.vm.value str = g.blocking a n) ∧ (str = 0 ↔ g.blocking a n = none) := by
      by_cases ha : a ≠ 0
      · obtain ⟨str, hf, hv, h0⟩ := h.vm.find (VirtAlloc.overlaps a n)
        rw [if_pos ha, Regions.blocking, if_pos ha]
        exact ⟨str, hf, fun _ => hv, h0⟩
      · rw [if_neg ha, Regions.blocking, if_neg ha]
        exact ⟨0, rfl, fun h => absurd rfl h, by simp⟩
    obtain ⟨str, hf, hv, h0⟩ := hwalk
    rw [hf, Option.bind_eq_bind, Option.bind_some]
    cases hb : g.blocking a n with
    | some r =>
      have hne : str ≠ 0 := fun e => by rw [h0, hb] at e; cases e
      rw [if_pos hne, hv hne, hb]
      exact ⟨s, rfl, h⟩
    | none =>
      rw [if_neg (not_not_intro (h0.mpr hb)), h.pages]
      dsimp only [Regions.map]
      cases hm : k.mmap g.pages a n with
      | none => exact ⟨s, rfl, h⟩
      | some answer =>
        dsimp only
        split
        · exact ⟨_, rfl, h.vm, rfl⟩
        · obtain ⟨t, vm, hp, hr⟩ := h.vm.push ⟨n, answer, newState type⟩
          rw [hp]
          exact ⟨_, rfl, hr, rfl⟩

theorem Space.Tracks.virtualFree (h : s.Tracks g) (address : BitVec 32) :
    ∃ s', s.virtualFree address = some ((g.free address).1, s') ∧ s'.Tracks (g.free address).2 := by
  unfold Space.virtualFree Regions.free
  obtain ⟨str, hf, hv, h0⟩ := h.vm.find fun r => r.address = address
  rw [hf, Option.bind_eq_bind, Option.bind_some]
  cases hb : g.vm.find? fun r => r.address = address with
  | none =>
    rw [if_neg (not_not_intro (h0.mpr hb))]
    exact ⟨s, rfl, h⟩
  | some r =>
    have hne : str ≠ 0 := fun e => by rw [h0, hb] at e; cases e
    obtain ⟨vm, hu, hr⟩ := h.vm.unlink hf hne
    rw [if_pos hne, hv, hb, hu, h.pages]
    exact ⟨_, rfl, hr, rfl⟩

theorem Space.Tracks.call (h : s.Tracks g) (c : VirtualCall) :
    ∃ s', s.call c = some ((g.call c).1, s') ∧ s'.Tracks (g.call c).2 := by
  cases c with
  | alloc k address size type => exact h.virtualAlloc k address size type
  | free address => exact h.virtualFree address

/-! ## What the request is rounded to -/

/-- A number without its low binary digits. -/
theorem toNat_and_not_mask (a : BitVec 32) (k : Nat) :
    (a &&& ~~~BitVec.ofNat 32 (2 ^ k - 1)).toNat = a.toNat - a.toNat % 2 ^ k := by
  have h : a &&& ~~~BitVec.ofNat 32 (2 ^ k - 1) = (a >>> k) <<< k := by
    ext i hi
    rw [BitVec.getElem_and, BitVec.getElem_not, BitVec.getElem_shiftLeft,
      ← BitVec.getLsbD_eq_getElem (x := BitVec.ofNat 32 _), BitVec.getLsbD_ofNat, Nat.testBit_two_pow_sub_one]
    by_cases hk : i < k
    · simp [hk, hi]
    · simp [hk, show k + (i - k) = i by omega, BitVec.getLsbD_eq_getElem hi]
  rw [h, BitVec.toNat_shiftLeft, BitVec.toNat_ushiftRight, Nat.shiftLeft_eq, Nat.shiftRight_eq_div_pow,
    Nat.mod_eq_of_lt (Nat.lt_of_le_of_lt (Nat.div_mul_le_self _ _) a.isLt)]
  have := Nat.div_add_mod a.toNat (2 ^ k)
  rw [Nat.mul_comm] at this
  omega

theorem toNat_and_not_ffff (a : BitVec 32) : (a &&& ~~~0xffff).toNat = a.toNat - a.toNat % 65536 :=
  toNat_and_not_mask a 16

theorem toNat_and_ffff (a : BitVec 32) : (a &&& 0xffff).toNat = a.toNat % 65536 :=
  Nat.and_two_pow_sub_one_eq_mod a.toNat 16

/-- What the address of a request is rounded to a multiple of. -/
def granule (type : BitVec 32) : Nat := if type &&& memReserve ≠ 0 then 65536 else 4096

theorem and_or_eq_zero {x y z : BitVec 32} (h : ¬ x &&& (y ||| z) = 0) : x &&& y ≠ 0 ∨ x &&& z ≠ 0 := by
  by_contra hn
  rw [not_or, not_not, not_not] at hn
  exact h (by rw [BitVec.and_or_distrib_left, hn.1, hn.2]; rfl)

/-- The pages of so many bytes, with the least that a new region has. -/
def roundUp (type : BitVec 32) (n : Nat) : Nat :=
  ((if type &&& memReserve ≠ 0 then max 65536 n else n) + 4095) / 4096 * 4096

theorem toNat_roundedSize_mod (n type : BitVec 32) : (roundedSize n type).toNat % 4096 = 0 := by
  unfold roundedSize
  generalize (if type &&& memReserve ≠ 0 ∧ n < 0x10000 then 0x10000 else n) = m
  dsimp only
  split
  · rw [BitVec.toNat_add, BitVec.toNat_sub_of_le (BitVec.le_def.mpr (Nat.le_of_lt (Nat.mod_lt _ (by decide))))]
    show (m.toNat + (4096 - m.toNat % 4096)) % 2 ^ 32 % 4096 = 0
    omega
  · rename_i h
    exact congrArg BitVec.toNat (not_not.mp h)

theorem toNat_roundedSize {n : BitVec 32} (h : n.toNat ≤ 0xfffff000) (type : BitVec 32) :
    (roundedSize n type).toNat = roundUp type n.toNat := by
  have hm : ∃ m : BitVec 32, (if type &&& memReserve ≠ 0 ∧ n < 0x10000 then 0x10000 else n) = m ∧
      m.toNat ≤ 0xfffff000 ∧ m.toNat = if type &&& memReserve ≠ 0 then max 65536 n.toNat else n.toNat := by
    refine ⟨_, rfl, ?_, ?_⟩ <;> by_cases hres : type &&& memReserve ≠ 0
    · by_cases hn : n < 0x10000
      · rw [if_pos ⟨hres, hn⟩]; decide
      · rw [if_neg fun h => hn h.2]; exact h
    · rw [if_neg fun h => hres h.1]; exact h
    · rw [if_pos hres]
      by_cases hn : n < 0x10000
      · rw [if_pos ⟨hres, hn⟩]
        exact (Nat.max_eq_left (Nat.le_of_lt hn)).symm
      · rw [if_neg fun h => hn h.2]
        exact (Nat.max_eq_right (Nat.le_of_not_lt hn)).symm
    · rw [if_neg fun h => hres h.1, if_neg hres]
  obtain ⟨m, hm, hle, hval⟩ := hm
  unfold roundedSize roundUp
  rw [← hval, hm]
  dsimp only
  split
  · rename_i hz
    have hz : m.toNat % 4096 ≠ 0 := fun e => hz (BitVec.eq_of_toNat_eq e)
    rw [BitVec.toNat_add, BitVec.toNat_sub_of_le (BitVec.le_def.mpr (Nat.le_of_lt (Nat.mod_lt _ (by decide))))]
    show (m.toNat + (4096 - m.toNat % 4096)) % 2 ^ 32 = _
    omega
  · rename_i hz
    have hz : m.toNat % 4096 = 0 := congrArg BitVec.toNat (not_not.mp hz)
    omega

/-- The address is rounded down by what is added to the size. -/
theorem rounded_spec (address size : BitVec 32) (hty : ¬ type &&& (memReserve ||| memCommit) = 0) :
    ∃ n : BitVec 32, (rounded address size type).2 = roundedSize n type ∧
      (rounded address size type).1.toNat = address.toNat - address.toNat % granule type ∧
      n.toNat = (size.toNat + address.toNat % granule type) % 2 ^ 32 := by
  have hs := size.isLt
  unfold rounded granule
  by_cases hres : type &&& memReserve ≠ 0
  · rw [if_pos hres]
    by_cases ho : address &&& 0xffff = 0
    · have h0 : address.toNat % 65536 = 0 := by rw [← toNat_and_ffff, ho]; rfl
      have hp : ¬ (type &&& memCommit ≠ 0 ∧ address % pgsz ≠ 0) := by
        refine fun h => h.2 (BitVec.eq_of_toNat_eq ?_)
        show address.toNat % 4096 = 0
        omega
      rw [if_neg (show ¬ (type &&& memReserve ≠ 0 ∧ address &&& 0xffff ≠ 0) from fun h => h.2 ho)]
      dsimp only
      rw [if_neg hp]
      refine ⟨size, rfl, ?_, ?_⟩
      · dsimp only; omega
      · omega
    · have hp : ¬ (type &&& memCommit ≠ 0 ∧ (address &&& ~~~0xffff) % pgsz ≠ 0) := by
        refine fun h => h.2 (BitVec.eq_of_toNat_eq ?_)
        show (address &&& ~~~0xffff).toNat % 4096 = 0
        rw [toNat_and_not_ffff]
        omega
      rw [if_pos ⟨hres, ho⟩]
      dsimp only
      rw [if_neg hp]
      refine ⟨_, rfl, toNat_and_not_ffff _, ?_⟩
      rw [BitVec.toNat_add, toNat_and_ffff]
  · have hcom := (and_or_eq_zero hty).resolve_left hres
    rw [if_neg (show ¬ (type &&& memReserve ≠ 0 ∧ address &&& 0xffff ≠ 0) from fun h => hres h.1)]
    dsimp only
    rw [if_neg hres]
    by_cases hp : address % pgsz = 0
    · have h0 : address.toNat % 4096 = 0 := congrArg BitVec.toNat hp
      rw [if_neg (show ¬ (type &&& memCommit ≠ 0 ∧ address % pgsz ≠ 0) from fun h => h.2 hp)]
      refine ⟨size, rfl, ?_, ?_⟩
      · dsimp only; omega
      · omega
    · rw [if_pos ⟨hcom, hp⟩]
      refine ⟨_, rfl, ?_, BitVec.toNat_add ..⟩
      rw [BitVec.toNat_sub_of_le (BitVec.le_def.mpr (Nat.mod_le _ _))]
      rfl

end DShow.Loader
