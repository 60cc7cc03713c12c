import Mathlib.Logic.Function.Basic
import Mathlib.Tactic.Push
import Mathlib.Tactic.Ring

/-!
# The shared-page pool (`memstruct` in cmediasample.c)

`memstruct` divides the pages behind the picture area among the codec's
samples. `used[i]` is both the allocation map and the search key: it holds the
end address of page `i` while the page is handed out and `NULL` otherwise, so
that the first `i` with `ptr < used[i]` is taken for the page of `ptr`.

The two tables have 32 entries. A loop bound is `pagecount`, which nothing
compares with 32, so every function here is partial: `none` is an access
outside a table. Pointers are 32-bit numbers, 0 being `NULL`; `set_memstruct`
computes `end` with C's wrapping arithmetic.
-/

namespace DShow.Pool

/-- The value of an `int` expression in 32 bits. -/
def wrap32 (x : Int) : Nat := (x % 2 ^ 32).toNat

/-- The entries of `used[]` and `locked[]`. -/
def tableSize : Nat := 32

/-- `memstruct`. -/
structure MemStruct where
  pagecount : Nat
  pagesize : Nat
  base : Nat
  endp : Nat
  used : Nat → Nat
  locked : Nat → UInt8

/-- `set_memstruct`. -/
def setMemstruct (base : Nat) (count size : Int) : MemStruct where
  base := base
  endp := wrap32 (base + size * count)
  pagesize := wrap32 size
  pagecount := wrap32 count
  used := fun _ => 0
  locked := fun _ => 0

/-- `for(i = 0; i < n; i++) if(hit(i)) break;`, with `room` table entries
left from `i` on: the index the loop stops at. -/
def scanFrom (n : Nat) (hit : Nat → Bool) : Nat → Nat → Option Nat
  | 0, i => if i < n then none else some i
  | room + 1, i => if i < n then if hit i then some i else scanFrom n hit room (i + 1) else some i

/-- The loop from the start of the tables. -/
def scan (n : Nat) (hit : Nat → Bool) : Option Nat := scanFrom n hit tableSize 0

namespace MemStruct

/-- The test `__ptr < memstruct.base || __ptr > memstruct.end`. -/
def outside (m : MemStruct) (ptr : Nat) : Bool := ptr < m.base || m.endp < ptr

/-- The search for the page of a pointer. -/
def findPage (m : MemStruct) (ptr : Nat) : Option Nat := scan m.pagecount fun i => ptr < m.used i

/-- `memstruct.used[i] = ptr`. -/
def setUsed (m : MemStruct) (i : Nat) (ptr : Nat) : Option MemStruct :=
  if i < tableSize then some { m with used := Function.update m.used i ptr } else none

/-- `get_memstruct_pagenum`. -/
def getMemstructPagenum (m : MemStruct) (ptr : Nat) : Option Int :=
  if m.outside ptr then some (-1) else (m.findPage ptr).map Int.ofNat

/-- `MALLOC`; `heap` is what `malloc` returns where the pool is not used. -/
def malloc (m : MemStruct) (size : Nat) (heap : Nat) : Option (Nat × MemStruct) :=
  (scan m.pagecount fun i => m.used i == 0 && m.locked i == 0).bind fun i =>
    if m.pagecount ≤ i ∨ m.pagesize < size then some (heap, m)
    else
      let ptr := wrap32 (m.base + m.pagesize * i)
      (m.setUsed i (wrap32 (ptr + m.pagesize))).map fun m' => (ptr, m')

/-- `REALLOC`; `heap` is what `realloc` or `malloc` returns. -/
def realloc (m : MemStruct) (ptr : Nat) (size : Nat) (heap : Nat) : Option (Nat × MemStruct) :=
  if m.outside ptr then some (heap, m)
  else
    (m.findPage ptr).bind fun i =>
      if m.pagesize < size then (m.setUsed i 0).map fun m' => (heap, m') else some (ptr, m)

/-- `FREE`; a pointer outside the pool goes to `free`. -/
def free (m : MemStruct) (ptr : Nat) : Option MemStruct :=
  if m.outside ptr then some m else (m.findPage ptr).bind fun i => m.setUsed i 0

/-- The loop of `memstruct_setlock`, which does not stop at the first page
whose end is past the pointer. -/
def setlockFrom (m : MemStruct) (ptr : Nat) (value : UInt8) :
    Nat → Nat → (Nat → UInt8) → Option (Nat → UInt8)
  | 0, i, locked => if i < m.pagecount then none else some locked
  | room + 1, i, locked =>
    if i < m.pagecount then
      setlockFrom m ptr value room (i + 1)
        (if ptr < m.used i then Function.update locked i value else locked)
    else some locked

/-- `memstruct_setlock`. -/
def memstructSetlock (m : MemStruct) (ptr : Nat) (value : UInt8) : Option MemStruct :=
  if m.outside ptr then some m
  else (m.setlockFrom ptr value tableSize 0 m.locked).map fun l => { m with locked := l }

end MemStruct

/-! ## The search loop -/

/-- The loop stops: at the first entry that hits, or at `n`. -/
theorem scanFrom_spec {n : Nat} {hit : Nat → Bool} {room i j : Nat}
    (h : scanFrom n hit room i = some j) (hi : i ≤ n) :
    i ≤ j ∧ j ≤ n ∧ (∀ k, i ≤ k → k < j → hit k = false) ∧ (j < n → hit j = true) := by
  induction room generalizing i with
  | zero =>
    simp only [scanFrom] at h
    split at h <;> cases h
    exact ⟨Nat.le_refl _, hi, fun k _ _ => by omega, fun _ => by omega⟩
  | succ room ih =>
    simp only [scanFrom] at h
    split at h
    · rename_i hlt
      split at h
      · rename_i hh
        cases h
        exact ⟨Nat.le_refl _, hi, fun k _ _ => by omega, fun _ => hh⟩
      · rename_i hh
        obtain ⟨h₁, h₂, h₃, h₄⟩ := ih h hlt
        refine ⟨by omega, h₂, fun k hk hkj => ?_, h₄⟩
        rcases Nat.eq_or_lt_of_le hk with rfl | hk
        · exact Bool.eq_false_iff.mpr hh
        · exact h₃ k hk hkj
    · cases h
      exact ⟨Nat.le_refl _, hi, fun k _ _ => by omega, fun _ => by omega⟩

/-- It stays inside the tables if they reach up to `n`, or if an entry of
the tables hits. -/
theorem scanFrom_isSome {n : Nat} {hit : Nat → Bool} {room i : Nat}
    (h : n ≤ i + room ∨ ∃ k, i ≤ k ∧ k < i + room ∧ hit k = true) :
    ∃ j, scanFrom n hit room i = some j := by
  induction room generalizing i with
  | zero =>
    refine ⟨i, if_neg ?_⟩
    rcases h with h | ⟨k, h₁, h₂, -⟩ <;> omega
  | succ room ih =>
    simp only [scanFrom]
    split
    · split
      · exact ⟨i, rfl⟩
      · rename_i hh
        refine ih ?_
        rcases h with h | ⟨k, h₁, h₂, hk⟩
        · exact .inl (by omega)
        · refine .inr ⟨k, ?_, by omega, hk⟩
          rcases Nat.eq_or_lt_of_le h₁ with rfl | h₁
          · exact absurd hk hh
          · exact h₁
    · exact ⟨i, rfl⟩

theorem scan_spec {n : Nat} {hit : Nat → Bool} {j : Nat} (h : scan n hit = some j) :
    j ≤ n ∧ (∀ k < j, hit k = false) ∧ (j < n → hit j = true) := by
  obtain ⟨-, h₂, h₃, h₄⟩ := scanFrom_spec h (Nat.zero_le _)
  exact ⟨h₂, fun k hk => h₃ k (Nat.zero_le _) hk, h₄⟩

/-- The index is one of the tables, or the first past them. -/
theorem scanFrom_le {n : Nat} {hit : Nat → Bool} {room i j : Nat}
    (h : scanFrom n hit room i = some j) : j ≤ i + room := by
  induction room generalizing i with
  | zero =>
    simp only [scanFrom] at h
    split at h <;> cases h
    exact Nat.le_refl _
  | succ room ih =>
    simp only [scanFrom] at h
    split at h
    · split at h
      · cases h; exact Nat.le_add_right ..
      · have := ih h; omega
    · cases h; exact Nat.le_add_right ..

/-- The first entry that hits, if it is below `n` and in the tables. -/
theorem scan_eq_some_of_hit {n : Nat} {hit : Nat → Bool} {k : Nat} (hn : k < n) (hk : k < tableSize)
    (hh : hit k = true) (hb : ∀ i < k, hit i = false) : scan n hit = some k := by
  obtain ⟨j, hj⟩ : ∃ j, scan n hit = some j :=
    scanFrom_isSome (.inr ⟨k, Nat.zero_le _, by omega, hh⟩)
  obtain ⟨h₁, h₂, h₃⟩ := scan_spec hj
  have hjk : j = k := by
    rcases Nat.lt_trichotomy j k with h | h | h
    · have := h₃ (by omega); rw [hb j h] at this; cases this
    · exact h
    · have := h₂ k h; rw [hh] at this; cases this
  rw [← hjk]; exact hj

theorem scan_isSome {n : Nat} {hit : Nat → Bool} (hn : n ≤ tableSize) : ∃ j, scan n hit = some j :=
  scanFrom_isSome (.inl (by omega))

/-! ## Well-formed pools -/

namespace MemStruct

/-- A pool over the pages of an address range: what `set_memstruct` sets up
for a range that ends inside the address space, and what the allocation
functions keep: an entry of `used[]` is `NULL` or the end of its page. -/
structure WF (m : MemStruct) : Prop where
  size_pos : 0 < m.pagesize
  endp_eq : m.endp = m.base + m.pagesize * m.pagecount
  endp_lt : m.endp < 2 ^ 32
  used_eq : ∀ i, m.used i = 0 ∨
    ((i < m.pagecount ∧ i < tableSize) ∧ m.used i = m.base + m.pagesize * (i + 1))

/-- The pointer lies in page `k`. -/
def InPage (m : MemStruct) (k : Nat) (ptr : Nat) : Prop :=
  m.base + m.pagesize * k ≤ ptr ∧ ptr < m.base + m.pagesize * (k + 1)

instance (m : MemStruct) (k : Nat) (ptr : Nat) : Decidable (m.InPage k ptr) := instDecidableAnd

/-- The address of page `k`. -/
def page (m : MemStruct) (k : Nat) : Nat := m.base + m.pagesize * k

theorem wrap32_of_lt {n : Nat} (h : n < 2 ^ 32) : wrap32 n = n := by
  simp only [wrap32]
  omega

theorem page_succ_le (m : MemStruct) {i k : Nat} (h : i < k) : m.pagesize * (i + 1) ≤ m.pagesize * k :=
  Nat.mul_le_mul_left _ h

variable {m : MemStruct}

theorem inPage_page (hw : m.WF) (k : Nat) : m.InPage k (m.page k) :=
  ⟨Nat.le_refl _, by simp only [page, Nat.mul_add, Nat.mul_one]; have := hw.size_pos; omega⟩

theorem InPage.inj {k l ptr : Nat} (h : m.InPage k ptr) (h' : m.InPage l ptr) : k = l := by
  rcases Nat.lt_trichotomy k l with hlt | heq | hlt
  · have := m.page_succ_le hlt; have := h.2; have := h'.1; omega
  · exact heq
  · have := m.page_succ_le hlt; have := h'.2; have := h.1; omega

/-- The start of a page is in no other. -/
theorem inPage_page_iff (hw : m.WF) {k l : Nat} : m.InPage k (m.page l) ↔ k = l :=
  ⟨fun h => h.inj (inPage_page hw l), fun h => h ▸ inPage_page hw l⟩

theorem InPage.not_outside (hw : m.WF) {k ptr : Nat} (h : m.InPage k ptr)
    (hk : k < m.pagecount) : m.outside ptr = false := by
  have := m.page_succ_le hk
  have := hw.endp_eq
  obtain ⟨h₁, h₂⟩ := h
  simp only [outside, Bool.or_eq_false_iff, decide_eq_false_iff_not]
  omega

/-- Whether the end of page `i` is past a pointer in page `k`: if page `i` is
in use and not below page `k`. -/
theorem lt_used_iff (hw : m.WF) {k i ptr : Nat} (h : m.InPage k ptr) :
    ptr < m.used i ↔ m.used i ≠ 0 ∧ k ≤ i := by
  rcases hw.used_eq i with hu | ⟨-, hu⟩
  · rw [hu]; omega
  · constructor
    · intro hlt
      refine ⟨by omega, ?_⟩
      by_contra hik
      have := m.page_succ_le (Nat.lt_of_not_le hik)
      have := h.1
      omega
    · rintro ⟨-, hki⟩
      have := Nat.mul_le_mul_left m.pagesize (Nat.succ_le_succ hki)
      have := h.2
      simp only [Nat.succ_eq_add_one] at *
      omega

/-- A page in use is a page of the pool, and an entry of the tables. -/
theorem WF.lt_of_used (hw : m.WF) {k : Nat} (hu : m.used k ≠ 0) : k < m.pagecount ∧ k < tableSize :=
  (hw.used_eq k).elim (fun h => absurd h hu) And.left

/-- The search finds the page of a pointer in a page in use. -/
theorem findPage_eq (hw : m.WF) {k ptr : Nat} (h : m.InPage k ptr) (hu : m.used k ≠ 0) :
    m.findPage ptr = some k := by
  obtain ⟨hkc, hk⟩ := hw.lt_of_used hu
  refine scan_eq_some_of_hit hkc hk (decide_eq_true ((lt_used_iff hw h).mpr ⟨hu, Nat.le_refl _⟩)) ?_
  intro i hi
  exact decide_eq_false fun hlt => by have := ((lt_used_iff hw h).mp hlt).2; omega

/-- The number found for a pointer in page `k` is `k` exactly if the page is in
use. -/
theorem getMemstructPagenum_spec (hw : m.WF) {k ptr : Nat} (h : m.InPage k ptr)
    (hk : k < m.pagecount) {page : Int} (hp : m.getMemstructPagenum ptr = some page) :
    ∃ i : Nat, page = i ∧ i ≤ m.pagecount ∧ i ≤ tableSize ∧ (i = k ↔ m.used k ≠ 0) := by
  simp only [getMemstructPagenum, h.not_outside hw hk, Bool.false_eq_true, if_false,
    Option.map_eq_some_iff] at hp
  obtain ⟨i, hi, rfl⟩ := hp
  obtain ⟨hle, -, hhit⟩ := scan_spec hi
  refine ⟨i, rfl, hle, (scanFrom_le hi).trans_eq (Nat.zero_add _), ?_, fun hu => ?_⟩
  · rintro rfl
    exact ((lt_used_iff hw h).mp (of_decide_eq_true (hhit hk))).1
  · rw [findPage_eq hw h hu, Option.some.injEq] at hi
    exact hi.symm

/-! ## What each function does -/

theorem setUsed_eq_some {m' : MemStruct} {i ptr : Nat} :
    m.setUsed i ptr = some m' ↔
      i < tableSize ∧ m' = { m with used := Function.update m.used i ptr } := by
  simp only [setUsed]
  split
  · rename_i h; simp only [Option.some.injEq, h, true_and]; exact eq_comm
  · rename_i h; simp [h]

/-- Releasing or taking a page keeps the pool well formed. -/
theorem WF.update (hw : m.WF) {i ptr : Nat}
    (h : ptr = 0 ∨ ((i < m.pagecount ∧ i < tableSize) ∧ ptr = m.base + m.pagesize * (i + 1))) :
    ({ m with used := Function.update m.used i ptr } : MemStruct).WF where
  size_pos := hw.size_pos
  endp_eq := hw.endp_eq
  endp_lt := hw.endp_lt
  used_eq := fun j => by
    simp only [Function.update_apply]
    split
    · rename_i hj; subst hj; exact h
    · exact hw.used_eq j

/-- `MALLOC` takes the first page that is neither in use nor locked, if there
is one and the request fits into a page; otherwise it calls `malloc`. -/
theorem malloc_cases (hw : m.WF) {m' : MemStruct} {size : Nat} {heap ptr : Nat}
    (h : m.malloc size heap = some (ptr, m')) :
    (∃ i, i < m.pagecount ∧ i < tableSize ∧ m.used i = 0 ∧ m.locked i = 0 ∧ size ≤ m.pagesize ∧
      ptr = m.page i ∧ m' = { m with used := Function.update m.used i (m.page (i + 1)) }) ∨
    (ptr = heap ∧ m' = m ∧
      (m.pagesize < size ∨ ∀ i < m.pagecount, ¬ (m.used i = 0 ∧ m.locked i = 0))) := by
  simp only [malloc, Option.bind_eq_some_iff] at h
  obtain ⟨i, hi, h⟩ := h
  obtain ⟨h₁, h₂, h₃⟩ := scan_spec hi
  split at h
  · rename_i hc
    simp only [Option.some.injEq, Prod.mk.injEq] at h
    refine .inr ⟨h.1.symm, h.2.symm, ?_⟩
    rcases hc with hc | hc
    · refine .inr fun j hj => ?_
      have := h₂ j (by omega)
      simp only [Bool.and_eq_false_iff, beq_eq_false_iff_ne] at this
      tauto
    · exact .inl hc
  · rename_i hc
    push Not at hc
    obtain ⟨hic, hsz⟩ := hc
    have hle := m.page_succ_le hic
    have hend := hw.endp_eq
    have hlt := hw.endp_lt
    have hs : m.pagesize * (i + 1) = m.pagesize * i + m.pagesize := Nat.mul_succ ..
    have e₁ : wrap32 (m.base + m.pagesize * i) = m.page i := by
      rw [page, ← wrap32_of_lt (n := m.base + m.pagesize * i) (by omega)]
      push_cast; rfl
    have e₂ : wrap32 ((m.page i : Nat) + m.pagesize) = m.page (i + 1) := by
      rw [← wrap32_of_lt (n := m.page (i + 1)) (by simp only [page]; omega)]
      simp only [page, hs]; push_cast; rw [add_assoc]
    simp only [e₁, e₂, Option.map_eq_some_iff, setUsed_eq_some, Prod.mk.injEq] at h
    obtain ⟨m₂, ⟨hit, rfl⟩, rfl, rfl⟩ := h
    have := h₃ hic
    simp only [Bool.and_eq_true, beq_iff_eq] at this
    exact .inl ⟨i, hic, hit, this.1, this.2, hsz, rfl, rfl⟩

/-- `REALLOC` of a block outside the pool calls `realloc`; a block in a page in
use stays if the page is large enough, and leaves its page otherwise. -/
theorem realloc_page (hw : m.WF) {k ptr : Nat} (h : m.InPage k ptr) (hu : m.used k ≠ 0)
    (size heap : Nat) :
    m.realloc ptr size heap =
      if m.pagesize < size then some (heap, { m with used := Function.update m.used k 0 })
      else some (ptr, m) := by
  obtain ⟨hkc, hk⟩ := hw.lt_of_used hu
  simp only [realloc, h.not_outside hw hkc, findPage_eq hw h hu, setUsed, hk, if_true,
    Option.bind_some, Option.map_some, Bool.false_eq_true, if_false]

/-- `FREE` of a block in a page in use releases the page. -/
theorem free_page (hw : m.WF) {k ptr : Nat} (h : m.InPage k ptr) (hu : m.used k ≠ 0) :
    m.free ptr = some { m with used := Function.update m.used k 0 } := by
  obtain ⟨hkc, hk⟩ := hw.lt_of_used hu
  simp only [free, h.not_outside hw hkc, findPage_eq hw h hu, setUsed, hk, if_true,
    Option.bind_some, Bool.false_eq_true, if_false]

theorem realloc_outside {ptr : Nat} (h : m.outside ptr = true) (size : Nat) (heap : Nat) :
    m.realloc ptr size heap = some (heap, m) := if_pos h

theorem free_outside {ptr : Nat} (h : m.outside ptr = true) : m.free ptr = some m := if_pos h

/-- The loop of `memstruct_setlock` reaches every page from `i` on. -/
theorem setlockFrom_eq_some {ptr : Nat} {value : UInt8} {room i : Nat} {locked l : Nat → UInt8} :
    m.setlockFrom ptr value room i locked = some l ↔
      m.pagecount ≤ i + room ∧
        l = fun j => if i ≤ j ∧ j < m.pagecount ∧ ptr < m.used j then value else locked j := by
  induction room generalizing i locked with
  | zero =>
    simp only [setlockFrom]
    split
    · simp only [reduceCtorEq, false_iff, not_and]; omega
    · have : (fun j => if i ≤ j ∧ j < m.pagecount ∧ ptr < m.used j then value else locked j) = locked :=
        funext fun j => if_neg (by omega)
      rw [this]
      simp only [Option.some.injEq]
      exact ⟨fun h => ⟨by omega, h.symm⟩, fun h => h.2.symm⟩
  | succ room ih =>
    simp only [setlockFrom]
    split
    · rename_i hlt
      rw [ih, show i + 1 + room = i + (room + 1) by omega]
      refine and_congr_right fun _ => ?_
      refine Eq.congr_right (funext fun j => ?_)
      by_cases hj : j = i
      · subst hj
        by_cases hp : ptr < m.used j <;> simp [hp, hlt]
      · have hij : (i + 1 ≤ j) ↔ i ≤ j := by omega
        by_cases hp : ptr < m.used i <;> simp [hp, hij, Function.update_of_ne hj]
    · have : (fun j => if i ≤ j ∧ j < m.pagecount ∧ ptr < m.used j then value else locked j) = locked :=
        funext fun j => if_neg (by omega)
      rw [this]
      simp only [Option.some.injEq]
      exact ⟨fun h => ⟨by omega, h.symm⟩, fun h => h.2.symm⟩

/-- `memstruct_setlock` sets the lock of every page whose end is past the
pointer. -/
theorem memstructSetlock_eq_some {m' : MemStruct} {ptr : Nat} {value : UInt8}
    (h : m.outside ptr = false) :
    m.memstructSetlock ptr value = some m' ↔
      m.pagecount ≤ tableSize ∧ m' = { m with
        locked := fun j => if j < m.pagecount ∧ ptr < m.used j then value else m.locked j } := by
  simp only [memstructSetlock, h, Bool.false_eq_true, if_false, Option.map_eq_some_iff,
    setlockFrom_eq_some, Nat.zero_add, Nat.zero_le, true_and]
  constructor
  · rintro ⟨l, ⟨hn, rfl⟩, rfl⟩; exact ⟨hn, rfl⟩
  · rintro ⟨hn, rfl⟩; exact ⟨_, ⟨hn, rfl⟩, rfl⟩

/-- For a pointer in page `k`: of every page in use from `k` on. -/
theorem memstructSetlock_page (hw : m.WF) {m' : MemStruct} {k ptr : Nat} {value : UInt8}
    (h : m.InPage k ptr) (hk : k < m.pagecount) :
    m.memstructSetlock ptr value = some m' ↔
      m.pagecount ≤ tableSize ∧ m' = { m with
        locked := fun j => if m.used j ≠ 0 ∧ k ≤ j then value else m.locked j } := by
  rw [memstructSetlock_eq_some (h.not_outside hw hk)]
  have : (fun j => if j < m.pagecount ∧ ptr < m.used j then value else m.locked j) =
      fun j => if m.used j ≠ 0 ∧ k ≤ j then value else m.locked j := by
    funext j
    refine if_congr ⟨fun hj => (lt_used_iff hw h).mp hj.2, fun hj => ⟨?_, (lt_used_iff hw h).mpr hj⟩⟩
      rfl rfl
    exact (hw.lt_of_used hj.1).1
  rw [this]

/-- `memstruct_setlock` changes only locks. -/
theorem memstructSetlock_frame {m' : MemStruct} {ptr : Nat} {value : UInt8}
    (h : m.memstructSetlock ptr value = some m') : m' = { m with locked := m'.locked } := by
  simp only [memstructSetlock] at h
  split at h
  · cases h; rfl
  · simp only [Option.map_eq_some_iff] at h
    obtain ⟨l, -, rfl⟩ := h
    rfl

/-- A lock that a call changes is that of a page whose end is past the
pointer, and gets the value. -/
theorem memstructSetlock_locked {m' : MemStruct} {ptr : Nat} {value : UInt8}
    (h : m.memstructSetlock ptr value = some m') (k : Nat) :
    m'.locked k = m.locked k ∨ (ptr < m.used k ∧ m'.locked k = value) := by
  by_cases ho : m.outside ptr = true
  · rw [memstructSetlock, if_pos ho, Option.some.injEq] at h
    exact .inl (h ▸ rfl)
  · obtain ⟨-, rfl⟩ := (memstructSetlock_eq_some (Bool.eq_false_iff.mpr ho)).mp h
    by_cases hk : k < m.pagecount ∧ ptr < m.used k
    · exact .inr ⟨hk.2, if_pos hk⟩
    · exact .inl (if_neg hk)

theorem WF.of_locked (hw : m.WF) (l : Nat → UInt8) : ({ m with locked := l } : MemStruct).WF :=
  ⟨hw.size_pos, hw.endp_eq, hw.endp_lt, hw.used_eq⟩

end MemStruct

/-- What `set_memstruct` sets up over a range inside the address space. -/
theorem setMemstruct_eq {base count size : Nat} (hs' : size < 2 ^ 31) (hc : count < 2 ^ 31)
    (hb : base + size * count < 2 ^ 32) :
    setMemstruct base count size =
      ⟨count, size, base, base + size * count, fun _ => 0, fun _ => 0⟩ := by
  have e₁ : wrap32 (base + size * count : Int) = base + size * count := by
    rw [← MemStruct.wrap32_of_lt hb]; push_cast; rfl
  simp only [setMemstruct, e₁, MemStruct.wrap32_of_lt (show size < 2 ^ 32 by omega),
    MemStruct.wrap32_of_lt (show count < 2 ^ 32 by omega)]

/-- It is a well-formed pool. -/
theorem setMemstruct_wf {base count size : Nat} (hs : 0 < size) (hs' : size < 2 ^ 31)
    (hc : count < 2 ^ 31) (hb : base + size * count < 2 ^ 32) :
    setMemstruct base count size =
        ⟨count, size, base, base + size * count, fun _ => 0, fun _ => 0⟩ ∧
      (setMemstruct base count size).WF := by
  have e := setMemstruct_eq hs' hc hb
  rw [e]
  exact ⟨rfl, hs, rfl, hb, fun _ => .inl rfl⟩

end DShow.Pool
