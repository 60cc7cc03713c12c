import DShowServer.Pool.MemStruct
import DShowServer.Framework.Run

/-!
# Blocks in the shared-page pool

The pool with the blocks its callers hold: `malloc` adds one, `free` takes one
away, `realloc` replaces one. `Safe` is what every run of these calls and of
`memstruct_setlock` keeps: a block in the pool has a page to itself, and
`used[]` is non-null exactly for the pages that hold one, which is what makes
the search of `FREE` and `REALLOC` find the right page whatever holes earlier
calls left.
-/

namespace DShow.Pool

open Run

/-- A block a caller holds, with the size it asked for. -/
structure Block where
  ptr : Nat
  len : Nat
deriving DecidableEq

/-- The calls on the pool. `heap` is what the system's `malloc` or `realloc`
returns, where the call gets that far. -/
inductive PoolCall
  | malloc (size heap : Nat)
  | realloc (b : Block) (size heap : Nat)
  | free (b : Block)
  | setlock (ptr : Nat) (value : UInt8)

/-- The pool and the blocks that are live. -/
structure PoolState where
  mem : MemStruct
  live : List Block

namespace PoolState

/-- After `set_memstruct`. -/
def start (base count size : Nat) : PoolState := ⟨setMemstruct base count size, []⟩

/-- The blocks held after a call for `size` bytes that returned `ptr`: nothing
more if it failed with `NULL`. -/
def hold (m : MemStruct) (ptr size : Nat) (live : List Block) : List Block :=
  if ptr = 0 ∧ m.outside 0 then live else ⟨ptr, size⟩ :: live

/-- One call. The system's allocator returns blocks outside the pool, its end
included; `REALLOC` and `FREE` are given blocks that are live. A `realloc`
outside the pool that fails leaves the block it was given. -/
def step (s : PoolState) : PoolCall → Option PoolState
  | .malloc size heap =>
    if s.mem.outside heap then
      (s.mem.malloc size heap).map fun (ptr, m) => ⟨m, hold s.mem ptr size s.live⟩
    else none
  | .realloc b size heap =>
    if b ∈ s.live ∧ s.mem.outside heap then
      (s.mem.realloc b.ptr size heap).map fun (ptr, m) =>
        if s.mem.outside b.ptr ∧ ptr = 0 then ⟨m, s.live⟩
        else ⟨m, hold s.mem ptr size (s.live.erase b)⟩
    else none
  | .free b =>
    if b ∈ s.live then (s.mem.free b.ptr).map fun m => ⟨m, s.live.erase b⟩ else none
  | .setlock ptr value => (s.mem.memstructSetlock ptr value).map fun m => ⟨m, s.live⟩

/-- The block is in the pool, by the test of the pool's functions. -/
def InPool (m : MemStruct) (b : Block) : Prop := m.outside b.ptr = false

instance (m : MemStruct) (b : Block) : Decidable (InPool m b) := instDecidableEqBool _ _

/-- Every block in the pool has a page to itself, at most as long as the page,
and the pages of these blocks are the pages in use. -/
structure Safe (s : PoolState) : Prop where
  wf : s.mem.WF
  placed : ∀ b ∈ s.live, InPool s.mem b →
    ∃ k, s.mem.used k ≠ 0 ∧ b.ptr = s.mem.page k ∧ b.len ≤ s.mem.pagesize
  apart : s.live.Pairwise fun b c => InPool s.mem b → InPool s.mem c → b.ptr ≠ c.ptr
  held : ∀ k, s.mem.used k ≠ 0 → ∃ b ∈ s.live, b.ptr = s.mem.page k

variable {s s' : PoolState}

theorem start_safe {base count size : Nat} (hs : 0 < size) (hs' : size < 2 ^ 31)
    (hc : count < 2 ^ 31) (hb : base + size * count < 2 ^ 32) : (start base count size).Safe where
  wf := (setMemstruct_wf hs hs' hc hb).2
  placed := fun _ hb => by cases hb
  apart := .nil
  held := fun _ h => absurd rfl h

/-! ## Taking and releasing a page -/

/-- The page of a block in the pool. -/
theorem Safe.inPage (h : s.Safe) {b : Block} (hb : b ∈ s.live) (hp : InPool s.mem b) :
    ∃ k, s.mem.InPage k b.ptr ∧ s.mem.used k ≠ 0 ∧ b.ptr = s.mem.page k := by
  obtain ⟨k, hu, he, -⟩ := h.placed b hb hp
  exact ⟨k, he ▸ MemStruct.inPage_page h.wf k, hu, he⟩

theorem inPool_page {m : MemStruct} (hw : m.WF) {k : Nat} (hk : k < m.pagecount) {b : Block}
    (hb : b.ptr = m.page k) : InPool m b := by
  rw [InPool, hb]; exact (MemStruct.inPage_page hw k).not_outside hw hk

theorem page_inj {m : MemStruct} (hw : m.WF) {k l : Nat} (h : m.page k = m.page l) : k = l :=
  (MemStruct.inPage_page hw k).inj (h ▸ MemStruct.inPage_page hw l)

/-- A new block in a page that was not in use. -/
theorem Safe.take (h : s.Safe) {k size : Nat} (hk : k < s.mem.pagecount) (ht : k < tableSize)
    (hu : s.mem.used k = 0) (hs : size ≤ s.mem.pagesize) :
    Safe ⟨{ s.mem with used := Function.update s.mem.used k (s.mem.page (k + 1)) },
      ⟨s.mem.page k, size⟩ :: s.live⟩ where
  wf := h.wf.update (.inr ⟨⟨hk, ht⟩, rfl⟩)
  placed := by
    have hne : s.mem.page (k + 1) ≠ 0 := by
      have := (MemStruct.inPage_page h.wf k).2; simp only [MemStruct.page]; omega
    intro b hb hp
    rcases List.mem_cons.mp hb with rfl | hb
    · exact ⟨k, by simpa using hne, rfl, hs⟩
    · obtain ⟨l, hl, hbl, hlen⟩ := h.placed b hb hp
      refine ⟨l, ?_, hbl, hlen⟩
      show Function.update _ _ _ _ ≠ 0
      rwa [Function.update_of_ne (by rintro rfl; exact hl hu)]
  apart := by
    refine List.pairwise_cons.mpr ⟨fun c hc _ hp heq => ?_, h.apart⟩
    obtain ⟨l, hl, hcl, -⟩ := h.placed c hc hp
    have hkl : k = l := page_inj h.wf (heq.trans hcl)
    exact hl (hkl ▸ hu)
  held := fun l hl => by
    by_cases hlk : l = k
    · subst hlk; exact ⟨_, List.mem_cons_self, rfl⟩
    · change Function.update _ _ _ _ ≠ 0 at hl
      rw [Function.update_of_ne hlk] at hl
      obtain ⟨b, hb, he⟩ := h.held l hl
      exact ⟨b, List.mem_cons_of_mem _ hb, he⟩

/-- Of two blocks in the pool at one address, one was taken out of the list. -/
theorem Safe.ne_of_mem_erase (h : s.Safe) {b c : Block} (hb : b ∈ s.live) (hp : InPool s.mem b)
    (hc : c ∈ s.live.erase b) : c.ptr ≠ b.ptr := by
  intro he
  have hperm := List.perm_cons_erase hb
  have hap := (hperm.pairwise_iff fun {x y} hxy hy hx => (hxy hx hy).symm).mp h.apart
  exact (List.pairwise_cons.mp hap).1 c hc hp (by rw [InPool, he]; exact hp) he.symm

/-- A block leaves its page. -/
theorem Safe.release (h : s.Safe) {b : Block} (hb : b ∈ s.live) {k : Nat} (hu : s.mem.used k ≠ 0)
    (he : b.ptr = s.mem.page k) :
    Safe ⟨{ s.mem with used := Function.update s.mem.used k 0 }, s.live.erase b⟩ where
  wf := h.wf.update (.inl rfl)
  placed := fun c hc hp => by
    obtain ⟨l, hl, hcl, hlen⟩ := h.placed c (List.mem_of_mem_erase hc) hp
    have hbp : InPool s.mem b := inPool_page h.wf (h.wf.lt_of_used hu).1 he
    have hlk : l ≠ k := by
      rintro rfl; exact h.ne_of_mem_erase hb hbp hc (hcl.trans he.symm)
    refine ⟨l, ?_, hcl, hlen⟩
    show Function.update _ _ _ _ ≠ 0
    rwa [Function.update_of_ne hlk]
  apart := h.apart.sublist List.erase_sublist
  held := fun l hl => by
    by_cases hlk : l = k
    · subst hlk; simp at hl
    · change Function.update _ _ _ _ ≠ 0 at hl
      rw [Function.update_of_ne hlk] at hl
      obtain ⟨c, hc, hcl⟩ := h.held l hl
      have hne : c ≠ b := by
        rintro rfl; exact hlk (page_inj h.wf (hcl.symm.trans he))
      exact ⟨c, (List.mem_erase_of_ne hne).mpr hc, hcl⟩

/-- A block outside the pool comes and goes without a page. -/
theorem Safe.hold_outside (h : s.Safe) {heap size : Nat} (ho : s.mem.outside heap = true) :
    Safe ⟨s.mem, hold s.mem heap size s.live⟩ := by
  rw [hold]
  split
  · exact h
  have hnp : ¬ InPool s.mem ⟨heap, size⟩ := by simp [InPool, ho]
  refine ⟨h.wf, fun b hb hp => ?_, List.pairwise_cons.mpr ⟨fun c _ hp => absurd hp hnp, h.apart⟩,
    fun k hk => ?_⟩
  · rcases List.mem_cons.mp hb with rfl | hb
    · exact absurd hp hnp
    · exact h.placed b hb hp
  · obtain ⟨b, hb, he⟩ := h.held k hk
    exact ⟨b, List.mem_cons_of_mem _ hb, he⟩

theorem Safe.drop_outside (h : s.Safe) {b : Block} (ho : s.mem.outside b.ptr = true) :
    Safe ⟨s.mem, s.live.erase b⟩ := by
  refine ⟨h.wf, fun c hc hp => h.placed c (List.mem_of_mem_erase hc) hp,
    h.apart.sublist List.erase_sublist, fun k hk => ?_⟩
  obtain ⟨c, hc, he⟩ := h.held k hk
  have hne : c ≠ b := by
    rintro rfl
    have := inPool_page h.wf (h.wf.lt_of_used hk).1 he
    rw [InPool, ho] at this; cases this
  exact ⟨c, (List.mem_erase_of_ne hne).mpr hc, he⟩

/-! ## The calls -/

/-- `FREE` of a live block releases its page, if it has one. -/
theorem Safe.free_eq (h : s.Safe) {b : Block} (hb : b ∈ s.live) :
    (s.mem.outside b.ptr = true ∧ s.mem.free b.ptr = some s.mem) ∨
    ∃ k, b.ptr = s.mem.page k ∧ s.mem.used k ≠ 0 ∧
      s.mem.free b.ptr = some { s.mem with used := Function.update s.mem.used k 0 } := by
  by_cases ho : s.mem.outside b.ptr = true
  · exact .inl ⟨ho, MemStruct.free_outside ho⟩
  · obtain ⟨k, hk, hu, he⟩ := h.inPage hb (Bool.eq_false_iff.mpr ho)
    exact .inr ⟨k, he, hu, MemStruct.free_page h.wf hk hu⟩

/-- `REALLOC` of a live block in the pool to more than a page releases its
page; to at most a page it keeps the block. -/
theorem Safe.realloc_eq (h : s.Safe) {b : Block} (hb : b ∈ s.live) (size heap : Nat) :
    (s.mem.outside b.ptr = true ∧ s.mem.realloc b.ptr size heap = some (heap, s.mem)) ∨
    ∃ k, b.ptr = s.mem.page k ∧ s.mem.used k ≠ 0 ∧
      s.mem.realloc b.ptr size heap =
        if s.mem.pagesize < size then
          some (heap, { s.mem with used := Function.update s.mem.used k 0 })
        else some (b.ptr, s.mem) := by
  by_cases ho : s.mem.outside b.ptr = true
  · exact .inl ⟨ho, MemStruct.realloc_outside ho size heap⟩
  · obtain ⟨k, hk, hu, he⟩ := h.inPage hb (Bool.eq_false_iff.mpr ho)
    exact .inr ⟨k, he, hu, MemStruct.realloc_page h.wf hk hu size heap⟩

theorem Safe.malloc (h : s.Safe) {size heap : Nat} (hs : step s (.malloc size heap) = some s') :
    s'.Safe := by
  simp only [step] at hs
  split at hs <;> [rename_i ho; cases hs]
  simp only [Option.map_eq_some_iff] at hs
  obtain ⟨⟨ptr, m⟩, hm, rfl⟩ := hs
  rcases MemStruct.malloc_cases h.wf hm with ⟨i, hi, ht, hu, -, hsz, rfl, rfl⟩ | ⟨rfl, rfl, -⟩
  · have : ¬ (s.mem.page i = 0 ∧ s.mem.outside 0 = true) := by
      rintro ⟨h₀, h₁⟩
      have := (MemStruct.inPage_page h.wf i).not_outside h.wf hi
      rw [h₀, h₁] at this; cases this
    simp only [hold, this, if_false]
    exact h.take hi ht hu hsz
  · exact h.hold_outside ho

theorem Safe.realloc (h : s.Safe) {b : Block} {size heap : Nat}
    (hs : step s (.realloc b size heap) = some s') : s'.Safe := by
  simp only [step] at hs
  split at hs <;> [rename_i ho; cases hs]
  obtain ⟨hb, ho⟩ := ho
  simp only [Option.map_eq_some_iff] at hs
  obtain ⟨⟨ptr, m⟩, hm, rfl⟩ := hs
  rcases h.realloc_eq hb size heap with ⟨hbo, e⟩ | ⟨k, he, hu, e⟩
  · simp only [e, Option.some.injEq, Prod.mk.injEq] at hm
    obtain ⟨rfl, rfl⟩ := hm
    split
    · exact h
    · exact (h.drop_outside hbo).hold_outside ho
  · have hbp := inPool_page h.wf (h.wf.lt_of_used hu).1 he
    have hnc : ¬ (s.mem.outside b.ptr = true ∧ ptr = 0) := by
      rw [InPool] at hbp; simp [hbp]
    rw [if_neg hnc]
    rw [e] at hm
    split at hm
    · simp only [Option.some.injEq, Prod.mk.injEq] at hm
      obtain ⟨rfl, rfl⟩ := hm
      exact (h.release hb hu he).hold_outside ho
    · rename_i hsz
      simp only [Option.some.injEq, Prod.mk.injEq] at hm
      obtain ⟨rfl, rfl⟩ := hm
      have hn₀ : ¬ (b.ptr = 0 ∧ s.mem.outside 0 = true) := by
        rintro ⟨h₀, h₁⟩; rw [InPool, h₀, h₁] at hbp; cases hbp
      rw [hold, if_neg hn₀]
      -- the block is released and its page taken again at once
      have := (h.release hb hu he).take (h.wf.lt_of_used hu).1
        (h.wf.lt_of_used hu).2 (by simp) (Nat.le_of_not_lt hsz)
      have huk := (h.wf.used_eq k).elim (fun h => absurd h hu) And.right
      simp only [MemStruct.page, Function.update_idem, ← huk, Function.update_eq_self] at this
      rw [he]; exact this

theorem Safe.free (h : s.Safe) {b : Block} (hs : step s (.free b) = some s') : s'.Safe := by
  simp only [step] at hs
  split at hs <;> [rename_i hb; cases hs]
  simp only [Option.map_eq_some_iff] at hs
  obtain ⟨m, hm, rfl⟩ := hs
  rcases h.free_eq hb with ⟨ho, e⟩ | ⟨k, he, hu, e⟩
  · simp only [e, Option.some.injEq] at hm
    subst hm; exact h.drop_outside ho
  · simp only [e, Option.some.injEq] at hm
    subst hm; exact h.release hb hu he

theorem Safe.setlock (h : s.Safe) {ptr : Nat} {value : UInt8}
    (hs : step s (.setlock ptr value) = some s') : s'.Safe := by
  simp only [step, Option.map_eq_some_iff] at hs
  obtain ⟨m, hm, rfl⟩ := hs
  rw [MemStruct.memstructSetlock_frame hm]
  exact ⟨h.wf.of_locked _, h.placed, h.apart, h.held⟩

theorem Safe.step (h : s.Safe) {c : PoolCall} (hs : step s c = some s') : s'.Safe := by
  cases c with
  | malloc => exact h.malloc hs
  | realloc => exact h.realloc hs
  | free => exact h.free hs
  | setlock => exact h.setlock hs

/-! ## Runs -/

/-- The pool still covers the range it was set up over. -/
structure Over (base count size : Nat) (m : MemStruct) : Prop where
  base_eq : m.base = base
  count_eq : m.pagecount = count
  size_eq : m.pagesize = size

theorem Over.trans {m m' : MemStruct} {base count size : Nat}
    (h : Over m.base m.pagecount m.pagesize m') (ho : Over base count size m) :
    Over base count size m' :=
  ⟨h.base_eq.trans ho.base_eq, h.count_eq.trans ho.count_eq, h.size_eq.trans ho.size_eq⟩

/-- What a call can do to the tables: `memstruct_setlock` changes locks, the
others pages in use. -/
theorem Safe.step_mem (h : s.Safe) {c : PoolCall} (hs : PoolState.step s c = some s') :
    (∃ u, s'.mem = { s.mem with used := u }) ∨
      ∃ ptr value, c = .setlock ptr value ∧ s'.live = s.live ∧
        s.mem.memstructSetlock ptr value = some s'.mem := by
  cases c with
  | malloc size heap =>
    simp only [PoolState.step] at hs
    split at hs <;> [skip; cases hs]
    simp only [Option.map_eq_some_iff] at hs
    obtain ⟨⟨ptr, m⟩, hm, rfl⟩ := hs
    rcases MemStruct.malloc_cases h.wf hm with ⟨i, -, -, -, -, -, -, rfl⟩ | ⟨-, rfl, -⟩
    all_goals exact .inl ⟨_, rfl⟩
  | realloc b size heap =>
    simp only [PoolState.step] at hs
    split at hs <;> [rename_i ho; cases hs]
    simp only [Option.map_eq_some_iff] at hs
    obtain ⟨⟨ptr, m⟩, hm, rfl⟩ := hs
    have hm' : ∃ u, m = { s.mem with used := u } := by
      rcases h.realloc_eq ho.1 size heap with ⟨-, e⟩ | ⟨k, -, -, e⟩
      · simp only [e, Option.some.injEq, Prod.mk.injEq] at hm
        exact ⟨_, hm.2.symm⟩
      · rw [e] at hm
        split at hm <;> simp only [Option.some.injEq, Prod.mk.injEq] at hm <;> exact ⟨_, hm.2.symm⟩
    split <;> exact .inl hm'
  | free b =>
    simp only [PoolState.step] at hs
    split at hs <;> [rename_i hb; cases hs]
    simp only [Option.map_eq_some_iff] at hs
    obtain ⟨m, hm, rfl⟩ := hs
    rcases h.free_eq hb with ⟨-, e⟩ | ⟨k, -, -, e⟩ <;> simp only [e, Option.some.injEq] at hm <;>
      exact .inl ⟨_, hm.symm⟩
  | setlock ptr value =>
    simp only [PoolState.step, Option.map_eq_some_iff] at hs
    obtain ⟨m, hm, rfl⟩ := hs
    exact .inr ⟨ptr, value, rfl, rfl, hm⟩

/-- Every call keeps the range. -/
theorem Safe.step_over (h : s.Safe) {c : PoolCall} (hs : PoolState.step s c = some s') :
    Over s.mem.base s.mem.pagecount s.mem.pagesize s'.mem := by
  rcases h.step_mem hs with ⟨u, e⟩ | ⟨_, _, -, -, hm⟩
  · rw [e]; exact ⟨rfl, rfl, rfl⟩
  · rw [MemStruct.memstructSetlock_frame hm]; exact ⟨rfl, rfl, rfl⟩

/-- Every run over a pool of an address range is safe, and stays in the range. -/
theorem run_safe {base count size : Nat} (hs : 0 < size) (hs' : size < 2 ^ 31)
    (hc : count < 2 ^ 31) (hb : base + size * count < 2 ^ 32) {calls : List PoolCall}
    (hr : exec PoolState.step (start base count size) calls = some s) :
    s.Safe ∧ Over base count size s.mem := by
  refine exec_inv' (I := fun s => s.Safe ∧ Over base count size s.mem) ?_
    ⟨start_safe hs hs' hc hb, ?_⟩ hr
  · rintro u c u' ⟨hu, ho⟩ hst
    exact ⟨hu.step hst, (hu.step_over hst).trans ho⟩
  · simp only [start, (setMemstruct_wf hs hs' hc hb).1]
    exact ⟨rfl, rfl, rfl⟩

/-- With at most as many pages as the tables have entries, no call leaves the
tables. -/
theorem step_isSome (hc : s.mem.pagecount ≤ tableSize) :
    (∀ size heap, s.mem.outside heap = true → (PoolState.step s (.malloc size heap)).isSome) ∧
    (∀ ptr value, (PoolState.step s (.setlock ptr value)).isSome) := by
  constructor
  · intro size heap ho
    obtain ⟨i, hi⟩ : ∃ i, scan s.mem.pagecount
      (fun i => s.mem.used i == 0 && s.mem.locked i == 0) = some i := scan_isSome hc
    simp only [PoolState.step, ho, if_true, Option.isSome_map, MemStruct.malloc, hi, Option.bind_some]
    split
    · rfl
    · rename_i hn
      have hlt := Nat.lt_of_not_le fun h => hn (.inl h)
      simp [MemStruct.setUsed, Nat.lt_of_lt_of_le hlt hc]
  · intro ptr value
    simp only [PoolState.step, Option.isSome_map]
    by_cases ho : s.mem.outside ptr = true
    · simp [MemStruct.memstructSetlock, ho]
    · rw [Bool.not_eq_true] at ho
      rw [(MemStruct.memstructSetlock_eq_some ho).mpr ⟨hc, rfl⟩]; rfl

/-- Two live blocks in the pool do not overlap, their pages included. -/
theorem Safe.disjoint (h : s.Safe) {b c : Block} (hb : b ∈ s.live) (hc : c ∈ s.live)
    (hbp : InPool s.mem b) (hcp : InPool s.mem c) (hne : b.ptr ≠ c.ptr) :
    b.ptr + s.mem.pagesize ≤ c.ptr ∨ c.ptr + s.mem.pagesize ≤ b.ptr := by
  obtain ⟨k, -, hk, -⟩ := h.placed b hb hbp
  obtain ⟨l, -, hl, -⟩ := h.placed c hc hcp
  rw [hk, hl] at hne ⊢
  simp only [MemStruct.page] at hne ⊢
  rcases Nat.lt_trichotomy k l with hlt | rfl | hlt
  · have := s.mem.page_succ_le hlt; rw [Nat.mul_succ] at this; omega
  · exact absurd rfl hne
  · have := s.mem.page_succ_le hlt; rw [Nat.mul_succ] at this; omega

/-- A page is in use exactly when it holds a live block. -/
theorem Safe.used_iff (h : s.Safe) (k : Nat) :
    s.mem.used k ≠ 0 ↔ k < s.mem.pagecount ∧ ∃ b ∈ s.live, s.mem.InPage k b.ptr := by
  constructor
  · intro hu
    obtain ⟨b, hb, he⟩ := h.held k hu
    exact ⟨(h.wf.lt_of_used hu).1, b, hb, he ▸ MemStruct.inPage_page h.wf k⟩
  · rintro ⟨hk, b, hb, hin⟩
    obtain ⟨l, hl, hu, -⟩ := h.inPage hb (hin.not_outside h.wf hk)
    exact hin.inj hl ▸ hu

/-- `FREE` of a block in the pool, and a `REALLOC` to more than a page, release
the page of the block and no other. -/
theorem Safe.release_eq (h : s.Safe) {b : Block} (hb : b ∈ s.live) (hp : InPool s.mem b) :
    ∃ k, b.ptr = s.mem.page k ∧
      PoolState.step s (.free b) =
        some ⟨{ s.mem with used := Function.update s.mem.used k 0 }, s.live.erase b⟩ ∧
      ∀ size heap, s.mem.outside heap = true → s.mem.pagesize < size →
        PoolState.step s (.realloc b size heap) =
          some ⟨{ s.mem with used := Function.update s.mem.used k 0 },
            hold s.mem heap size (s.live.erase b)⟩ := by
  obtain ⟨k, hk, hu, he⟩ := h.inPage hb hp
  refine ⟨k, he, ?_, fun size heap ho hsz => ?_⟩
  · simp only [PoolState.step, hb, if_true, MemStruct.free_page h.wf hk hu, Option.map_some]
  · rw [InPool] at hp
    simp only [PoolState.step, hb, ho, and_self, if_true, MemStruct.realloc_page h.wf hk hu, hsz, hp,
      Bool.false_eq_true, false_and, if_false, Option.map_some]

/-- **Safety of the pool.** After any run of calls, every block in the pool has
a whole page of the range to itself and fits into it, `used[]` marks exactly
the pages that hold a block, giving a block up releases its own page and no
other, and no allocation or lock call leaves the tables. -/
theorem pool_safe {base count size : Nat} (hs : 0 < size) (hs' : size < 2 ^ 31)
    (hc : count ≤ tableSize) (hb : base + size * count < 2 ^ 32) {calls : List PoolCall}
    (hr : exec PoolState.step (start base count size) calls = some s) :
    (∀ b ∈ s.live, InPool s.mem b →
      b.len ≤ size ∧ ∃ k < count, b.ptr = base + size * k ∧ b.ptr + size ≤ base + size * count) ∧
    (s.live.Pairwise fun b c => InPool s.mem b → InPool s.mem c →
      b.ptr + size ≤ c.ptr ∨ c.ptr + size ≤ b.ptr) ∧
    (∀ k, s.mem.used k ≠ 0 ↔ k < count ∧ ∃ b ∈ s.live, s.mem.InPage k b.ptr) ∧
    (∀ b ∈ s.live, InPool s.mem b → ∃ k, b.ptr = base + size * k ∧
      PoolState.step s (.free b) =
        some ⟨{ s.mem with used := Function.update s.mem.used k 0 }, s.live.erase b⟩ ∧
      ∀ n heap, s.mem.outside heap = true → size < n →
        PoolState.step s (.realloc b n heap) =
          some ⟨{ s.mem with used := Function.update s.mem.used k 0 },
            hold s.mem heap n (s.live.erase b)⟩) ∧
    (∀ n heap, s.mem.outside heap = true → (PoolState.step s (.malloc n heap)).isSome) ∧
    (∀ ptr value, (PoolState.step s (.setlock ptr value)).isSome) := by
  have hlt : count < 2 ^ 31 := Nat.lt_of_le_of_lt hc (by decide)
  obtain ⟨h, ⟨rfl, rfl, rfl⟩⟩ := run_safe hs hs' hlt hb hr
  refine ⟨fun b hbl hp => ?_, ?_, h.used_iff, fun b hbl hp => h.release_eq hbl hp, step_isSome hc⟩
  · obtain ⟨k, hu, he, hlen⟩ := h.placed b hbl hp
    have hk := (h.wf.lt_of_used hu).1
    have := s.mem.page_succ_le hk
    refine ⟨hlen, k, hk, he, ?_⟩
    rw [he, MemStruct.page, Nat.add_assoc, ← Nat.mul_succ]
    exact Nat.add_le_add_left this _
  · refine h.apart.imp_of_mem fun hb' hc' hne hbp hcp => ?_
    exact h.disjoint hb' hc' hbp hcp (hne hbp hcp)

/-- Two pages, three requests, of which one is too long and one finds no page
left, and a hole that is filled again. -/
theorem pool_safe_two_pages :
    let s := exec PoolState.step (start 4096 2 16)
      [.malloc 10 8192, .malloc 16 8192, .malloc 20 8192, .malloc 4 9000, .free ⟨4096, 10⟩,
        .malloc 12 9100]
    ∃ h : s.isSome, (s.get h).live =
        [⟨4096, 12⟩, ⟨9000, 4⟩, ⟨8192, 20⟩, ⟨4112, 16⟩] ∧
      ∀ b ∈ (s.get h).live, InPool (s.get h).mem b → b.len ≤ 16 ∧
        ∃ k < 2, b.ptr = 4096 + 16 * k ∧ b.ptr + 16 ≤ 4096 + 16 * 2 :=
  ⟨by decide, by decide,
    (pool_safe (by decide) (by decide) (by decide) (by decide) (Option.some_get _).symm).1⟩

/-- A block in the first of two pages. -/
def oneBlock : PoolState :=
  ⟨⟨2, 16, 4096, 4128, Function.update (fun _ => 0) 0 4112, fun _ => 0⟩, [⟨4096, 8⟩]⟩

end PoolState

end DShow.Pool
