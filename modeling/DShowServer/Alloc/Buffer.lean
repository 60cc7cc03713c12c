import DShowServer.Alloc.Model
import DShowServer.Pool.Blocks
import Mathlib.Data.List.InsertIdx

/-!
# The buffers of the samples

A sample owns one block, of `SAFETY_ACEL` bytes more than its `size`, that comes
from a page of the pool or from the system's allocator and is asked to grow when
a longer length is set. Where the block is and how long it is stands nowhere;
`Inv` says that the live blocks of the pool are those of the samples, at the
lengths their sizes give.

* `sample_capacity`: what room there is behind the pointer of a sample;
* `keepsData_iff`: which growths keep the bytes of the block, `REALLOC` being
  `malloc` without a copy where a block leaves its page.
-/

namespace DShow.Alloc

open Pool Run
open Pool.PoolState (InPool)

/-- `CMediaSample` with the length of its data. -/
structure SampleBuffer extends CMediaSample where
  actual_size : Int

/-- `(size_t)size + SAFETY_ACEL`. -/
def blockLen (size : Int) : Nat := wrap32 (wrap32 size + safetyAcel)

namespace SampleBuffer

/-- The block that the sample owns. -/
def own (c : SampleBuffer) : Block := ⟨c.own_block, blockLen c.size⟩

/-- `CMediaSample_SetActualDataLength`; `heap` is what `realloc` or `malloc`
returns. -/
def setActualDataLength (c : SampleBuffer) (m : MemStruct) (len : Int) (heap : Nat) :
    Option (SampleBuffer × MemStruct) :=
  if c.size < len then
    (m.realloc c.own_block (blockLen len) heap).map fun (own_block, m) =>
      ({ c with
        own_block := own_block, block := if c.own_block = c.block then own_block else c.block
        size := len, actual_size := len }, m)
  else some ({ c with actual_size := len }, m)

end SampleBuffer

/-- What `realloc` does to the memory: `n` bytes are at `dst` that were at `src`. -/
def moveBytes (bytes : Nat → UInt8) (src dst n : Nat) : Nat → UInt8 := fun a =>
  if dst ≤ a ∧ a < dst + n then bytes (src + (a - dst)) else bytes a

/-- The samples of all allocators, the pool with their blocks, and the memory. -/
structure Buffers where
  pool : PoolState
  samples : List SampleBuffer
  bytes : Nat → UInt8

/-- What happens to the samples, by their position: `CMediaSampleCreate`,
`SetActualDataLength`, `SetPointer`, `ResetPointer` and `CMediaSample_Destroy`;
`memstruct_setlock`, and whatever is written to the memory. -/
inductive BufferCall
  | create (size : BitVec 32) (heap : Nat)
  | setActualDataLength (i : Nat) (len : BitVec 32) (heap : Nat)
  | setPointer (i : Nat) (pointer : Nat)
  | resetPointer (i : Nat)
  | destroy (i : Nat)
  | setlock (ptr : Nat) (value : UInt8)
  | write (bytes : Nat → UInt8)

namespace Buffers

/-- After `set_memstruct`. -/
def start (base count size : Nat) (bytes : Nat → UInt8) : Buffers :=
  ⟨.start base count size, [], bytes⟩

/-- The system's allocator succeeds, and its block lies outside the pool, the
end included. -/
def Allocates (s : Buffers) (heap : Nat) : Prop := heap ≠ 0 ∧ s.pool.mem.outside heap = true

instance (s : Buffers) (heap : Nat) : Decidable (s.Allocates heap) := instDecidableAnd

/-- A new sample. -/
def create (s : Buffers) (size : Int) (heap : Nat) : Option Buffers := do
  let (c, mem) ← cMediaSampleCreate s.pool.mem size heap
  let c : SampleBuffer := { c with actual_size := 0 }
  pure ⟨⟨mem, c.own :: s.pool.live⟩, s.samples ++ [c], s.bytes⟩

/-- The length set of the sample at a position. The system's `realloc` copies
what there is of the old block. -/
def setActualDataLength (s : Buffers) (i : Nat) (len : Int) (heap : Nat) : Option Buffers := do
  let c ← s.samples[i]?
  let (c', mem) ← c.setActualDataLength s.pool.mem len heap
  let samples := s.samples.set i c'
  if c.size < len then
    pure ⟨⟨mem, c'.own :: s.pool.live.erase c.own⟩, samples,
      if s.pool.mem.outside c.own_block then
        moveBytes s.bytes c.own_block c'.own_block (min c.own.len c'.own.len)
      else s.bytes⟩
  else pure { s with samples := samples }

/-- A sample destroyed. -/
def destroy (s : Buffers) (i : Nat) : Option Buffers := do
  let c ← s.samples[i]?
  let mem ← s.pool.mem.free c.own_block
  pure ⟨⟨mem, s.pool.live.erase c.own⟩, s.samples.eraseIdx i, s.bytes⟩

/-- The pointer of `GetPointer` set. -/
def setBlock (s : Buffers) (i : Nat) (block : SampleBuffer → Nat) : Option Buffers := do
  let c ← s.samples[i]?
  pure { s with samples := s.samples.set i { c with block := block c } }

/-- One call. `MemAllocator_Commit`, which creates the samples, has refused a
negative size. -/
def step (s : Buffers) : BufferCall → Option Buffers
  | .create size heap =>
    if s.Allocates heap ∧ 0 ≤ size.toInt then s.create size.toInt heap else none
  | .setActualDataLength i len heap =>
    if s.Allocates heap then s.setActualDataLength i len.toInt heap else none
  | .setPointer i pointer =>
    s.setBlock i fun c => if pointer ≠ 0 then pointer else c.own_block
  | .resetPointer i => s.setBlock i fun c => c.own_block
  | .destroy i => s.destroy i
  | .setlock ptr value =>
    (s.pool.mem.memstructSetlock ptr value).map fun mem => { s with pool := ⟨mem, s.pool.live⟩ }
  | .write bytes => some { s with bytes := bytes }

end Buffers

/-! ## The blocks -/

/-- The blocks of a pool lie where its tables say, or it has no pages. -/
def Settled (p : PoolState) : Prop :=
  p.Safe ∨ p.mem.pagecount = 0 ∧ ∀ b ∈ p.live, p.mem.outside b.ptr = true

/-- There is room for `n` bytes at the pointer: in a page in use, or in a block
of the system's allocator. -/
def HasRoom (p : PoolState) (ptr n : Nat) : Prop :=
  (∃ k < p.mem.pagecount, p.mem.used k ≠ 0 ∧ ptr = p.mem.page k ∧ n ≤ p.mem.pagesize) ∨
    p.mem.outside ptr = true ∧ ∃ b ∈ p.live, b.ptr = ptr ∧ n ≤ b.len

section Settled

variable {p : PoolState} {m : MemStruct} {b : Block} {n ptr heap : Nat}

theorem HasRoom.mono {n' : Nat} (h : HasRoom p ptr n) (hn : n' ≤ n) : HasRoom p ptr n' :=
  h.imp (fun ⟨k, hk, hu, he, hle⟩ => ⟨k, hk, hu, he, Nat.le_trans hn hle⟩)
    fun ⟨ho, b, hb, he, hle⟩ => ⟨ho, b, hb, he, Nat.le_trans hn hle⟩

theorem start_settled {base count size : Nat} (hs : 0 < size ∨ count = 0) (hs' : size < 2 ^ 31)
    (hc : count < 2 ^ 31) (hb : base + size * count < 2 ^ 32) :
    Settled (.start base count size) := by
  rcases hs with hs | rfl
  · exact .inl (PoolState.start_safe hs hs' hc hb)
  · refine .inr ⟨?_, fun b hb => by cases hb⟩
    rw [PoolState.start, setMemstruct_eq hs' hc hb]

theorem Settled.hasRoom (h : Settled p) (hb : b ∈ p.live) : HasRoom p b.ptr b.len := by
  by_cases ho : p.mem.outside b.ptr = true
  · exact .inr ⟨ho, b, hb, rfl, Nat.le_refl _⟩
  · rcases h with h | ⟨-, h⟩
    · obtain ⟨k, hu, he, hle⟩ := h.placed b hb (Bool.eq_false_iff.mpr ho)
      exact .inl ⟨k, (h.wf.lt_of_used hu).1, hu, he, hle⟩
    · exact absurd (h b hb) ho

/-- A pool without pages leaves every request to the system's allocator. -/
theorem malloc_of_pagecount (hc : m.pagecount = 0) (n heap : Nat) :
    m.malloc n heap = some (heap, m) := by
  have hscan : ∀ hit, scan m.pagecount hit = some 0 := fun hit => by rw [hc]; rfl
  rw [MemStruct.malloc, hscan, Option.bind_some, if_pos (.inl (by omega))]

theorem Settled.malloc (h : Settled p) (hh : heap ≠ 0) (ho : p.mem.outside heap = true)
    (hm : p.mem.malloc n heap = some (ptr, m)) : Settled ⟨m, ⟨ptr, n⟩ :: p.live⟩ := by
  rcases h with h | ⟨hc, h⟩
  · rcases MemStruct.malloc_cases h.wf hm with ⟨i, hi, ht, hu, -, hle, rfl, rfl⟩ | ⟨rfl, rfl, -⟩
    · exact .inl (h.take hi ht hu hle)
    · have : PoolState.Safe ⟨p.mem, PoolState.hold p.mem ptr n p.live⟩ := h.hold_outside ho
      rw [PoolState.hold, if_neg (fun h => hh h.1)] at this
      exact .inl this
  · rw [malloc_of_pagecount hc, Option.some.injEq, Prod.mk.injEq] at hm
    obtain ⟨rfl, rfl⟩ := hm
    exact .inr ⟨hc, List.forall_mem_cons.mpr ⟨ho, h⟩⟩

theorem Settled.free (h : Settled p) (hb : b ∈ p.live) (hm : p.mem.free b.ptr = some m) :
    Settled ⟨m, p.live.erase b⟩ := by
  rcases h with h | ⟨hc, h⟩
  · refine .inl (h.free (show p.step (.free b) = _ from ?_))
    rw [PoolState.step, if_pos hb, hm]
    rfl
  · rw [MemStruct.free_outside (h b hb), Option.some.injEq] at hm
    subst hm
    exact .inr ⟨hc, fun c hcm => h c (List.mem_of_mem_erase hcm)⟩

/-- The block that `REALLOC` returns is the one it was given, where that is in
the pool, or from the system's allocator. -/
theorem realloc_ptr (hm : p.mem.realloc b.ptr n heap = some (ptr, m)) :
    ptr = heap ∨ ptr = b.ptr ∧ p.mem.outside b.ptr = false := by
  simp only [MemStruct.realloc] at hm
  split at hm
  · cases hm; exact .inl rfl
  · rename_i ho
    simp only [Option.bind_eq_some_iff] at hm
    obtain ⟨i, -, hm⟩ := hm
    split at hm
    · simp only [Option.map_eq_some_iff] at hm
      obtain ⟨_, -, hm⟩ := hm
      cases hm; exact .inl rfl
    · cases hm; exact .inr ⟨rfl, Bool.eq_false_iff.mpr ho⟩

theorem Settled.realloc (h : Settled p) (hb : b ∈ p.live) (hh : heap ≠ 0)
    (ho : p.mem.outside heap = true) (hm : p.mem.realloc b.ptr n heap = some (ptr, m)) :
    Settled ⟨m, ⟨ptr, n⟩ :: p.live.erase b⟩ := by
  rcases h with h | ⟨hc, h⟩
  · refine .inl (h.realloc (show p.step (.realloc b n heap) = _ from ?_))
    simp only [PoolState.step, hb, ho, and_self, if_true, hm, Option.map_some, PoolState.hold]
    rcases realloc_ptr hm with rfl | ⟨rfl, hin⟩
    · rw [if_neg fun h => hh h.2, if_neg fun h => hh h.1]
    · have h₁ : ¬ (p.mem.outside b.ptr = true ∧ b.ptr = 0) := fun h => by
        rw [hin] at h
        exact absurd h.1 (by decide)
      have h₂ : ¬ (b.ptr = 0 ∧ p.mem.outside 0 = true) := fun h => by
        rw [h.1, h.2] at hin
        cases hin
      rw [if_neg h₁, if_neg h₂]
  · rw [MemStruct.realloc_outside (h b hb), Option.some.injEq, Prod.mk.injEq] at hm
    obtain ⟨rfl, rfl⟩ := hm
    exact .inr ⟨hc, List.forall_mem_cons.mpr ⟨ho, fun c hcm => h c (List.mem_of_mem_erase hcm)⟩⟩

/-- Where `REALLOC` puts a live block: it stays in its page if that is large
enough. -/
theorem Settled.realloc_eq (h : Settled p) (hb : b ∈ p.live) (n heap : Nat) :
    ∃ m, p.mem.realloc b.ptr n heap =
      some (if p.mem.outside b.ptr = true ∨ p.mem.pagesize < n then heap else b.ptr, m) := by
  by_cases ho : p.mem.outside b.ptr = true
  · exact ⟨_, by rw [if_pos (.inl ho)]; exact MemStruct.realloc_outside ho n heap⟩
  · rcases h with h | ⟨-, h⟩
    · obtain ⟨ho', -⟩ | ⟨k, -, -, e⟩ := h.realloc_eq hb n heap
      · exact absurd ho' ho
      · rw [e]
        by_cases hn : p.mem.pagesize < n
        · exact ⟨_, by rw [if_pos hn, if_pos (.inr hn)]⟩
        · exact ⟨_, by rw [if_neg hn, if_neg (not_or.mpr ⟨ho, hn⟩)]⟩
    · exact absurd (h b hb) ho

theorem Settled.setlock (h : Settled p) {value : UInt8}
    (hm : p.mem.memstructSetlock ptr value = some m) : Settled ⟨m, p.live⟩ := by
  rcases h with h | ⟨hc, h⟩
  · refine .inl (h.setlock (show p.step (.setlock ptr value) = _ from ?_))
    rw [PoolState.step, hm]
    rfl
  · rw [MemStruct.memstructSetlock_frame hm]
    exact .inr ⟨hc, h⟩

end Settled

/-! ## Every run keeps the blocks of the samples -/

/-- An entry of a list replaced, up to the order. -/
theorem set_perm {α : Type*} [DecidableEq α] {l : List α} {i : Nat} {a : α} (h : l[i]? = some a) (b : α) :
    (l.set i b).Perm (b :: l.erase a) := by
  obtain ⟨hi, rfl⟩ := List.getElem?_eq_some_iff.mp h
  have hlen : i < (l.set i b).length := by rwa [List.length_set]
  have hget : (l.set i b)[i] = b := List.getElem_set_self hlen
  have hb : b ∈ l.set i b := by
    have := List.getElem_mem hlen
    rwa [hget] at this
  have hset := List.erase_getElem hlen
  rw [hget, List.eraseIdx_set_eq] at hset
  exact (List.perm_cons_erase hb).trans ((hset.trans (List.erase_getElem hi).symm).cons b)

/-- The block of a size that is not negative has `SAFETY_ACEL` bytes more. -/
theorem blockLen_eq {size : Int} (h₀ : 0 ≤ size) (h₁ : size < 2 ^ 31) :
    (blockLen size : Int) = size + 1024 := by
  simp only [blockLen, wrap32, safetyAcel]
  omega

namespace Buffers

/-- The live blocks are those of the samples, which have room for their data. -/
structure Inv (s : Buffers) : Prop where
  settled : Settled s.pool
  owned : s.pool.live.Perm (s.samples.map SampleBuffer.own)
  size_nonneg : ∀ c ∈ s.samples, 0 ≤ c.size
  size_lt : ∀ c ∈ s.samples, c.size < 2 ^ 31
  actual_le : ∀ c ∈ s.samples, c.actual_size ≤ c.size

variable {s s' : Buffers}

theorem start_inv {base count size : Nat} (hs : 0 < size ∨ count = 0) (hs' : size < 2 ^ 31)
    (hc : count < 2 ^ 31) (hb : base + size * count < 2 ^ 32) (bytes : Nat → UInt8) :
    (start base count size bytes).Inv :=
  ⟨start_settled hs hs' hc hb, .nil, List.forall_mem_nil _, List.forall_mem_nil _, List.forall_mem_nil _⟩

theorem Inv.own_mem (h : s.Inv) {i : Nat} {c : SampleBuffer} (hi : s.samples[i]? = some c) :
    c.own ∈ s.pool.live :=
  h.owned.mem_iff.mpr (List.mem_map_of_mem (List.mem_of_getElem? hi))

/-- A sample changed, of which the block may have been replaced. -/
theorem Inv.set (h : s.Inv) {i : Nat} {c c' : SampleBuffer} {p : PoolState} {bytes : Nat → UInt8}
    (hi : s.samples[i]? = some c) (hp : Settled p) (hl : p.live.Perm (c'.own :: s.pool.live.erase c.own))
    (h₀ : 0 ≤ c'.size) (h₁ : c'.size < 2 ^ 31) (h₂ : c'.actual_size ≤ c'.size) :
    Inv ⟨p, s.samples.set i c', bytes⟩ := by
  have hmem : ∀ d ∈ s.samples.set i c', d = c' ∨ d ∈ s.samples := fun d hd =>
    (List.mem_or_eq_of_mem_set hd).symm
  refine ⟨hp, ?_, fun d hd => ?_, fun d hd => ?_, fun d hd => ?_⟩
  · have hget : (s.samples.map SampleBuffer.own)[i]? = some c.own := by
      rw [List.getElem?_map, hi]; rfl
    rw [List.map_set]
    exact hl.trans (((h.owned.erase c.own).cons c'.own).trans (set_perm hget c'.own).symm)
  · rcases hmem d hd with rfl | hd
    · exact h₀
    · exact h.size_nonneg d hd
  · rcases hmem d hd with rfl | hd
    · exact h₁
    · exact h.size_lt d hd
  · rcases hmem d hd with rfl | hd
    · exact h₂
    · exact h.actual_le d hd

/-- A sample changed that keeps its block. -/
theorem Inv.set_same (h : s.Inv) {i : Nat} {c c' : SampleBuffer} (hi : s.samples[i]? = some c)
    (ho : c'.own = c.own) (h₀ : 0 ≤ c'.size) (h₁ : c'.size < 2 ^ 31) (h₂ : c'.actual_size ≤ c'.size) :
    Inv { s with samples := s.samples.set i c' } :=
  h.set hi h.settled (by rw [ho]; exact List.perm_cons_erase (h.own_mem hi)) h₀ h₁ h₂

theorem Inv.create (h : s.Inv) {size : Int} {heap : Nat} (ha : s.Allocates heap) (h₀ : 0 ≤ size)
    (h₁ : size < 2 ^ 31) (hs : s.create size heap = some s') : s'.Inv := by
  simp only [Buffers.create, cMediaSampleCreate, Option.bind_eq_bind, Option.bind_eq_some_iff] at hs
  obtain ⟨⟨c, mem⟩, ⟨⟨own_block, mem'⟩, hm, hs₁⟩, hs⟩ := hs
  split at hs₁ <;> cases hs₁
  cases hs
  refine ⟨h.settled.malloc ha.1 ha.2 hm, ?_, ?_, ?_, ?_⟩
  · rw [List.map_append, List.map_singleton]
    exact (h.owned.cons _).trans (List.perm_append_singleton _ _).symm
  all_goals rw [List.forall_mem_append]
  · exact ⟨h.size_nonneg, List.forall_mem_singleton.mpr h₀⟩
  · exact ⟨h.size_lt, List.forall_mem_singleton.mpr h₁⟩
  · exact ⟨h.actual_le, List.forall_mem_singleton.mpr h₀⟩

/-- What the sample at a position is after a length was set, and where its block
is. -/
theorem setActualDataLength_cases {i : Nat} {len : Int} {heap : Nat}
    (hs : s.setActualDataLength i len heap = some s') :
    ∃ c, s.samples[i]? = some c ∧
      ((len ≤ c.size ∧ s' = { s with samples := s.samples.set i { c with actual_size := len } }) ∨
      (c.size < len ∧ ∃ ptr m, s.pool.mem.realloc c.own_block (blockLen len) heap = some (ptr, m) ∧
        s'.pool = ⟨m, ⟨ptr, blockLen len⟩ :: s.pool.live.erase c.own⟩ ∧
        s'.samples = s.samples.set i { c with
          own_block := ptr, block := if c.own_block = c.block then ptr else c.block
          size := len, actual_size := len } ∧
        s'.bytes = if s.pool.mem.outside c.own_block then
            moveBytes s.bytes c.own_block ptr (min c.own.len (blockLen len))
          else s.bytes)) := by
  simp only [Buffers.setActualDataLength, Option.bind_eq_bind, Option.bind_eq_some_iff] at hs
  obtain ⟨c, hc, ⟨c', m⟩, hc', hs⟩ := hs
  refine ⟨c, hc, ?_⟩
  simp only [SampleBuffer.setActualDataLength] at hc'
  by_cases hlt : c.size < len
  · simp only [if_pos hlt, Option.map_eq_some_iff, Prod.mk.injEq] at hc' hs
    obtain ⟨⟨ptr, m'⟩, hm, rfl, rfl⟩ := hc'
    cases hs
    exact .inr ⟨hlt, ptr, m', hm, rfl, rfl, rfl⟩
  · simp only [if_neg hlt, Option.some.injEq, Prod.mk.injEq] at hc' hs
    obtain ⟨rfl, -⟩ := hc'
    cases hs
    exact .inl ⟨by omega, rfl⟩

theorem Inv.setActualDataLength (h : s.Inv) {i : Nat} {len : Int} {heap : Nat}
    (ha : s.Allocates heap) (hlen : len < 2 ^ 31) (hs : s.setActualDataLength i len heap = some s') :
    s'.Inv := by
  obtain ⟨c, hc, ⟨hle, rfl⟩ | ⟨hlt, ptr, m, hm, hp, hsm, -⟩⟩ := setActualDataLength_cases hs
  · have hcm := List.mem_of_getElem? hc
    exact h.set_same hc rfl (h.size_nonneg c hcm) (h.size_lt c hcm) hle
  · have h₀ := h.size_nonneg c (List.mem_of_getElem? hc)
    obtain ⟨p, samples, bytes⟩ := s'
    subst hp hsm
    exact h.set hc (h.settled.realloc (b := c.own) (h.own_mem hc) ha.1 ha.2 hm) (.refl _)
      (show 0 ≤ len by omega) hlen (Int.le_refl len)

theorem Inv.setBlock (h : s.Inv) {i : Nat} {block : SampleBuffer → Nat}
    (hs : s.setBlock i block = some s') : s'.Inv := by
  simp only [Buffers.setBlock, Option.bind_eq_bind, Option.bind_eq_some_iff] at hs
  obtain ⟨c, hc, hs⟩ := hs
  cases hs
  have hcm := List.mem_of_getElem? hc
  exact h.set_same hc rfl (h.size_nonneg c hcm) (h.size_lt c hcm) (h.actual_le c hcm)

theorem Inv.destroy (h : s.Inv) {i : Nat} (hs : s.destroy i = some s') : s'.Inv := by
  simp only [Buffers.destroy, Option.bind_eq_bind, Option.bind_eq_some_iff] at hs
  obtain ⟨c, hc, m, hm, hs⟩ := hs
  cases hs
  obtain ⟨hi, rfl⟩ := List.getElem?_eq_some_iff.mp hc
  have hi' : i < (s.samples.map SampleBuffer.own).length := by rwa [List.length_map]
  have herase := List.erase_getElem hi'
  rw [List.getElem_map, List.eraseIdx_map] at herase
  have hsub : ∀ d ∈ s.samples.eraseIdx i, d ∈ s.samples := fun d hd => List.eraseIdx_subset hd
  exact ⟨h.settled.free (h.own_mem hc) hm, (h.owned.erase _).trans herase,
    fun d hd => h.size_nonneg d (hsub d hd), fun d hd => h.size_lt d (hsub d hd),
    fun d hd => h.actual_le d (hsub d hd)⟩

/-- Every call keeps the invariant. -/
theorem Inv.step (h : s.Inv) {e : BufferCall} (hs : Buffers.step s e = some s') : s'.Inv := by
  cases e with
  | create size heap =>
    simp only [Buffers.step] at hs
    split at hs <;> [rename_i ha; cases hs]
    exact h.create ha.1 ha.2 BitVec.toInt_lt hs
  | setActualDataLength i len heap =>
    simp only [Buffers.step] at hs
    split at hs <;> [rename_i ha; cases hs]
    exact h.setActualDataLength ha BitVec.toInt_lt hs
  | setPointer i pointer => exact h.setBlock hs
  | resetPointer i => exact h.setBlock hs
  | destroy i => exact h.destroy hs
  | setlock ptr value =>
    simp only [Buffers.step, Option.map_eq_some_iff] at hs
    obtain ⟨m, hm, rfl⟩ := hs
    exact ⟨h.settled.setlock hm, h.owned, h.size_nonneg, h.size_lt, h.actual_le⟩
  | write bytes =>
    cases hs
    exact ⟨h.settled, h.owned, h.size_nonneg, h.size_lt, h.actual_le⟩

/-- In every run the invariant holds. -/
theorem run_inv {base count size : Nat} (hs : 0 < size ∨ count = 0) (hs' : size < 2 ^ 31)
    (hc : count ≤ tableSize) (hb : base + size * count < 2 ^ 32) {bytes : Nat → UInt8}
    {es : List BufferCall} (hr : exec Buffers.step (start base count size bytes) es = some s) : s.Inv :=
  exec_inv' (fun _ _ _ h hst => h.step hst)
    (start_inv hs hs' (Nat.lt_of_le_of_lt hc (by decide)) hb bytes) hr

/-! ## The room behind the pointer -/

theorem Inv.hasRoom (h : s.Inv) {i : Nat} {c : SampleBuffer} (hi : s.samples[i]? = some c) :
    HasRoom s.pool c.own_block (max c.size c.actual_size + 1024).toNat := by
  have hcm := List.mem_of_getElem? hi
  have hlen := blockLen_eq (h.size_nonneg c hcm) (h.size_lt c hcm)
  have hroom := h.settled.hasRoom (h.own_mem hi)
  rw [Int.max_eq_left (h.actual_le c hcm), ← hlen, Int.toNat_natCast]
  exact hroom

/-- A length can be set for every sample. -/
theorem Inv.setActualDataLength_isSome (h : s.Inv) {i : Nat} {c : SampleBuffer}
    (hi : s.samples[i]? = some c) (len : Int) (heap : Nat) :
    ∃ s', s.setActualDataLength i len heap = some s' := by
  obtain ⟨m, hr⟩ := h.settled.realloc_eq (h.own_mem hi) (blockLen len) heap
  change s.pool.mem.realloc c.own_block _ _ = _ at hr
  by_cases hlt : c.size < len
  · simp only [Buffers.setActualDataLength, SampleBuffer.setActualDataLength, hi, hr, if_pos hlt,
      Option.bind_eq_bind, Option.bind_some, Option.map_some, Option.pure_def]
    exact ⟨_, rfl⟩
  · simp only [Buffers.setActualDataLength, SampleBuffer.setActualDataLength, hi, if_neg hlt,
      Option.bind_eq_bind, Option.bind_some, Option.pure_def]
    exact ⟨_, rfl⟩

/-- The sample of which the length was set: its pointer is still that of its
block, if it was, and it has the length. -/
theorem setActualDataLength_get {i : Nat} {len : Int} {heap : Nat}
    (hs : s.setActualDataLength i len heap = some s') {c : SampleBuffer} (hi : s.samples[i]? = some c) :
    ∃ c', s'.samples[i]? = some c' ∧ (c.block = c.own_block → c'.block = c'.own_block) ∧
      c'.actual_size = len := by
  obtain ⟨d, hd, hcase⟩ := setActualDataLength_cases hs
  cases hi.symm.trans hd
  have hlt := (List.getElem?_eq_some_iff.mp hi).1
  rcases hcase with ⟨-, rfl⟩ | ⟨-, ptr, m, -, -, hsm, -⟩
  · exact ⟨_, List.getElem?_set_self hlt, id, rfl⟩
  · refine ⟨_, by rw [hsm]; exact List.getElem?_set_self hlt, fun hb => if_pos hb.symm, rfl⟩

end Buffers

open Buffers

/-- **Room for the data.** In every run over a pool of at most 32 pages, there
are at least 1024 bytes more than its size and the length of its data behind
the pointer of a sample that has no other pointer set; and after
`DecodeInternal` has set the length of a packet, there is room for it. -/
theorem sample_capacity {base count size : Nat} (hs : 0 < size ∨ count = 0) (hs' : size < 2 ^ 31)
    (hc : count ≤ tableSize) (hb : base + size * count < 2 ^ 32) {bytes : Nat → UInt8}
    {es : List BufferCall} {s : Buffers} (hr : exec step (start base count size bytes) es = some s)
    {i : Nat} {c : SampleBuffer} (hi : s.samples[i]? = some c) (hown : c.block = c.own_block) :
    HasRoom s.pool c.block (max c.size c.actual_size + 1024).toNat ∧
    ∀ (len : BitVec 32) (heap : Nat), 0 < len.toInt → s.Allocates heap →
      ∃ s' c', step s (.setActualDataLength i len heap) = some s' ∧ s'.samples[i]? = some c' ∧
        c'.block = c'.own_block ∧ HasRoom s'.pool c'.block len.toNat := by
  have h := run_inv hs hs' hc hb hr
  refine ⟨hown ▸ h.hasRoom hi, fun len heap hpos ha => ?_⟩
  obtain ⟨s', hst⟩ := h.setActualDataLength_isSome hi len.toInt heap
  obtain ⟨c', hc', hblock, hactual⟩ := setActualDataLength_get hst hi
  have hroom := (h.setActualDataLength ha BitVec.toInt_lt hst).hasRoom hc'
  refine ⟨s', c', by rw [step, if_pos ha, hst], hc', hblock hown, ?_⟩
  rw [hblock hown]
  refine hroom.mono ?_
  have hcond := BitVec.toInt_eq_toNat_cond len
  rw [hactual]
  split at hcond <;> omega

/-- A page of 2048 bytes for a sample of 512, and a packet of 1500. -/
theorem sample_capacity_one :
    ∃ s c, exec step (start 4096 1 2048 fun _ => 0) [.create 512 9000] = some s ∧
      s.samples[0]? = some c ∧ HasRoom s.pool c.block 1536 ∧
      ∃ s' c', step s (.setActualDataLength 0 1500 9000) = some s' ∧ s'.samples[0]? = some c' ∧
        c'.block = 9000 ∧ HasRoom s'.pool c'.block 1500 := by
  have hr : exec step (start 4096 1 2048 fun _ => 0) [.create 512 9000] = some _ := rfl
  obtain ⟨h₁, h₂⟩ := sample_capacity (by decide) (by decide) (by decide) (by decide) hr
    (i := 0) rfl rfl
  obtain ⟨s', c', hst, hc', hown, hroom⟩ := h₂ 1500 9000 (by decide) (by decide)
  refine ⟨_, _, hr, rfl, h₁, s', c', hst, hc', ?_, hroom⟩
  cases hst
  cases hc'
  rfl

/-! ## Growing keeps the data -/

namespace Buffers

/-- Setting a length leaves the bytes of the sample's block at the same offsets
of the block it has afterwards, and its pointer at that block; whatever the
bytes are, and whatever the system's allocator returns. -/
def KeepsData (s : Buffers) (i : Nat) (len : BitVec 32) : Prop :=
  ∀ bytes heap s' c c', s.Allocates heap →
    step { s with bytes := bytes } (.setActualDataLength i len heap) = some s' →
    s.samples[i]? = some c → s'.samples[i]? = some c' →
    (c.block = c.own_block → c'.block = c'.own_block) ∧
      ∀ k < c.own.len, s'.bytes (c'.own_block + k) = bytes (c.own_block + k)

theorem moveBytes_spec (bytes : Nat → UInt8) {src dst n k : Nat} (h : k < n) :
    moveBytes bytes src dst n (dst + k) = bytes (src + k) := by
  rw [moveBytes, if_pos ⟨Nat.le_add_right .., by omega⟩, Nat.add_sub_cancel_left]

variable {s s' : Buffers}

/-- The block leaves its page. -/
def LeavesPage (s : Buffers) (c : SampleBuffer) (len : Int) : Prop :=
  InPool s.pool.mem c.own ∧ c.size < len ∧ (s.pool.mem.pagesize : Int) < len + 1024

/-- A block that is not moved keeps its bytes, and `realloc` copies them. -/
theorem Inv.keepsData (h : s.Inv) {i : Nat} {c : SampleBuffer} (hi : s.samples[i]? = some c)
    {len : BitVec 32} (hn : ¬ s.LeavesPage c len.toInt) : s.KeepsData i len := by
  intro bytes heap s' d d' ha hst hd hd'
  cases hi.symm.trans hd
  rw [Buffers.step, if_pos (show Allocates { s with bytes := bytes } heap from ha)] at hst
  refine ⟨?_, fun k hk => ?_⟩
  · obtain ⟨d₂, hd₂, hblock, -⟩ := setActualDataLength_get hst hi
    cases hd'.symm.trans hd₂
    exact hblock
  have hlt := (List.getElem?_eq_some_iff.mp hi).1
  obtain ⟨d₂, hd₂, hcase⟩ := setActualDataLength_cases hst
  cases hi.symm.trans hd₂
  rcases hcase with ⟨-, rfl⟩ | ⟨hgrow, ptr, m, hm, -, hsm, hbytes⟩
  · obtain rfl : { c with actual_size := len.toInt } = d' :=
      Option.some.inj ((List.getElem?_set_self hlt).symm.trans hd')
    rfl
  · rw [hsm] at hd'
    cases (List.getElem?_set_self hlt).symm.trans hd'
    have hcm := List.mem_of_getElem? hi
    have h₀ := h.size_nonneg c hcm
    have hlen := blockLen_eq (show 0 ≤ len.toInt by omega) BitVec.toInt_lt
    have hown := blockLen_eq h₀ (h.size_lt c hcm)
    obtain ⟨m', e⟩ := h.settled.realloc_eq (h.own_mem hi) (blockLen len.toInt) heap
    cases hm.symm.trans e
    rw [hbytes]
    by_cases ho : s.pool.mem.outside c.own_block = true
    · have hle : c.own.len < blockLen len.toInt := by
        show blockLen c.size < _
        omega
      rw [if_pos ho, min_eq_left (Nat.le_of_lt hle)]
      exact moveBytes_spec bytes hk
    · have hstay : ¬ (s.pool.mem.outside c.own.ptr = true ∨
          s.pool.mem.pagesize < blockLen len.toInt) := by
        rintro (h₁ | h₁)
        · exact ho h₁
        · exact hn ⟨Bool.eq_false_iff.mpr ho, hgrow, by omega⟩
      rw [if_neg ho, if_neg hstay]
      rfl

/-- A block that leaves its page leaves its bytes there. -/
theorem Inv.not_keepsData (h : s.Inv) {i : Nat} {c : SampleBuffer} (hi : s.samples[i]? = some c)
    {len : BitVec 32} (hl : s.LeavesPage c len.toInt) : ¬ s.KeepsData i len := by
  obtain ⟨hin, hgrow, hpage⟩ := hl
  intro hk
  have hin' : s.pool.mem.outside c.own_block = false := hin
  have hcm := List.mem_of_getElem? hi
  have h₀ := h.size_nonneg c hcm
  have hlen := blockLen_eq (show 0 ≤ len.toInt by omega) BitVec.toInt_lt
  have hown := blockLen_eq h₀ (h.size_lt c hcm)
  have hle : c.own_block ≤ s.pool.mem.endp := by
    simp only [MemStruct.outside, Bool.or_eq_false_iff, decide_eq_false_iff_not] at hin'
    omega
  -- the new block is behind the pool, where nothing is but zeros
  let bytes : Nat → UInt8 := fun a => if a = c.own_block then 1 else 0
  have ha : s.Allocates (s.pool.mem.endp + 1) := by
    refine ⟨by omega, ?_⟩
    simp only [MemStruct.outside, Bool.or_eq_true, decide_eq_true_eq]
    omega
  have hinv : Inv { s with bytes := bytes } :=
    ⟨h.settled, h.owned, h.size_nonneg, h.size_lt, h.actual_le⟩
  obtain ⟨s', hst⟩ := hinv.setActualDataLength_isSome hi len.toInt (s.pool.mem.endp + 1)
  obtain ⟨c', hc', -, -⟩ := setActualDataLength_get hst hi
  obtain ⟨-, hkeep⟩ := hk bytes _ s' c c' ha ((if_pos ha).trans hst) hi hc'
  obtain ⟨d, hd, hcase⟩ := setActualDataLength_cases hst
  cases hi.symm.trans hd
  have hlt := (List.getElem?_eq_some_iff.mp hi).1
  obtain ⟨hno, -⟩ | ⟨-, ptr, m, hm, -, hsm, hbytes⟩ := hcase
  · omega
  rw [hsm] at hc'
  cases (List.getElem?_set_self hlt).symm.trans hc'
  obtain ⟨m', e⟩ := h.settled.realloc_eq (h.own_mem hi) (blockLen len.toInt) (s.pool.mem.endp + 1)
  rw [if_pos (.inr (by omega))] at e
  cases hm.symm.trans e
  have h0 := hkeep 0 (show 0 < blockLen c.size by omega)
  rw [hbytes, if_neg (by rw [hin']; decide)] at h0
  simp only [bytes, Nat.add_zero, if_true] at h0
  rw [if_neg (by omega)] at h0
  exact absurd h0 (by decide)

end Buffers

/-- **Growing keeps the data.** For every live sample and every new length, the
bytes of its block are kept if and only if the block does not leave a page for
one of the system's allocator. -/
theorem keepsData_iff {base count size : Nat} (hs : 0 < size ∨ count = 0) (hs' : size < 2 ^ 31)
    (hc : count ≤ tableSize) (hb : base + size * count < 2 ^ 32) {bytes : Nat → UInt8}
    {es : List BufferCall} {s : Buffers} (hr : exec step (start base count size bytes) es = some s)
    {i : Nat} {c : SampleBuffer} (hi : s.samples[i]? = some c) (len : BitVec 32) :
    s.KeepsData i len ↔ ¬ s.LeavesPage c len.toInt := by
  have h := run_inv hs hs' hc hb hr
  exact ⟨fun hk hl => h.not_keepsData hi hl hk, h.keepsData hi⟩

/-- A sample of 512 bytes in a page of 2048, and a packet of 1500: the byte that
was at the start of the block is not at the start of the new one. -/
theorem data_lost :
    ∃ s, exec step (start 4096 1 2048 fun _ => 0)
        [.create 512 9000, .write fun a => if a = 4096 then 7 else 0] = some s ∧
      (∃ s' c c', step s (.setActualDataLength 0 1500 9000) = some s' ∧ s.samples[0]? = some c ∧
        c.block = 4096 ∧ s.bytes c.block = 7 ∧ s'.samples[0]? = some c' ∧ c'.block = 9000 ∧
        s'.bytes c'.block = 0) ∧
      ¬ s.KeepsData 0 1500 := by
  have hr : exec step (start 4096 1 2048 fun _ => 0)
    [.create 512 9000, .write fun a => if a = 4096 then 7 else 0] = some _ := rfl
  have h := run_inv (by decide) (by decide) (by decide) (by decide) hr
  exact ⟨_, hr, ⟨_, _, _, rfl, rfl, rfl, rfl, rfl, rfl, rfl⟩,
    h.not_keepsData rfl ⟨by decide, by decide, by decide⟩⟩

/-- A sample of 2000 bytes has its block from the system's allocator. -/
theorem keepsData_iff_heap :
    ∃ s, exec step (start 4096 1 2048 fun _ => 0) [.create 2000 9000] = some s ∧
      s.KeepsData 0 5000 := by
  have hr : exec step (start 4096 1 2048 fun _ => 0) [.create 2000 9000] = some _ := rfl
  refine ⟨_, hr, (keepsData_iff (by decide) (by decide) (by decide) (by decide) hr rfl 5000).mpr ?_⟩
  rintro ⟨h, -, -⟩
  exact absurd h (by decide)

end DShow.Alloc
