import DShowServer.Pool.Blocks

/-!
# The pool's tables under any calls

The functions of the pool take whatever address they are given. `call` is one
of them on any address, so that a run of calls reaches every state the tables
can be in:

* `pagenum_iff`: for which addresses `get_memstruct_pagenum` answers with the
  number of the page, and with -1 outside the pages;
* `staysInTables_iff`: for which pools no run of calls leaves the tables.

Both come down to the search loop, which tests the end of each page in use and
stops at `pagecount` where no page is found.
-/

namespace DShow.Pool

open Run

/-- A call on one of the pool's functions. `heap` is what the system's
allocator returns, where the call gets that far. -/
inductive TableCall
  | malloc (size heap : Nat)
  | realloc (ptr size heap : Nat)
  | free (ptr : Nat)
  | setlock (ptr : Nat) (value : UInt8)
  | pagenum (ptr : Nat)

/-- The address of a call is in the range that is treated as pool memory. -/
def TableCall.InRange (m : MemStruct) : TableCall → Prop
  | .malloc _ _ => True
  | .realloc ptr _ _ | .free ptr | .setlock ptr _ | .pagenum ptr => m.outside ptr = false

namespace MemStruct

/-- The tables after a call. -/
def call (m : MemStruct) : TableCall → Option MemStruct
  | .malloc size heap => (m.malloc size heap).map Prod.snd
  | .realloc ptr size heap => (m.realloc ptr size heap).map Prod.snd
  | .free ptr => m.free ptr
  | .setlock ptr value => m.memstructSetlock ptr value
  | .pagenum ptr => (m.getMemstructPagenum ptr).map fun _ => m

/-- The end that `MALLOC` computes for page `i`. -/
def pageEnd (m : MemStruct) (i : Nat) : Nat := wrap32 (wrap32 (m.base + m.pagesize * i) + m.pagesize)

variable {m m' : MemStruct}

/-! ## What a call can do -/

/-- A call takes a page that is neither in use nor locked, releases the entry
at which the search stopped, sets locks, or leaves the tables as they are. -/
theorem call_cases {c : TableCall} (h : m.call c = some m') :
    (∃ i, i < m.pagecount ∧ i < tableSize ∧
      m' = { m with used := Function.update m.used i (m.pageEnd i) }) ∨
    (∃ i, i < tableSize ∧ m' = { m with used := Function.update m.used i 0 }) ∨
    ∃ l, m' = { m with locked := l } := by
  have hsame : ∃ l, m = { m with locked := l } := ⟨m.locked, rfl⟩
  cases c with
  | malloc size heap =>
    simp only [call, malloc, Option.map_eq_some_iff, Option.bind_eq_some_iff] at h
    obtain ⟨_, ⟨i, -, h⟩, rfl⟩ := h
    split at h
    · cases h; exact .inr (.inr hsame)
    · rename_i hc
      simp only [Option.map_eq_some_iff, setUsed_eq_some] at h
      obtain ⟨_, ⟨hi, rfl⟩, rfl⟩ := h
      exact .inl ⟨i, by omega, hi, rfl⟩
  | realloc ptr size heap =>
    simp only [call, realloc, Option.map_eq_some_iff] at h
    obtain ⟨_, h, rfl⟩ := h
    split at h
    · cases h; exact .inr (.inr hsame)
    · simp only [Option.bind_eq_some_iff] at h
      obtain ⟨i, -, h⟩ := h
      split at h
      · simp only [Option.map_eq_some_iff, setUsed_eq_some] at h
        obtain ⟨_, ⟨hi, rfl⟩, rfl⟩ := h
        exact .inr (.inl ⟨i, hi, rfl⟩)
      · cases h; exact .inr (.inr hsame)
  | free ptr =>
    simp only [call, free] at h
    split at h
    · cases h; exact .inr (.inr hsame)
    · simp only [Option.bind_eq_some_iff, setUsed_eq_some] at h
      obtain ⟨i, -, hi, rfl⟩ := h
      exact .inr (.inl ⟨i, hi, rfl⟩)
  | setlock ptr value => exact .inr (.inr ⟨m'.locked, memstructSetlock_frame h⟩)
  | pagenum ptr =>
    simp only [call, Option.map_eq_some_iff] at h
    obtain ⟨_, -, rfl⟩ := h
    exact .inr (.inr hsame)

/-- The range of the pool. -/
def range (m : MemStruct) : Nat × Nat × Nat × Nat := (m.base, m.endp, m.pagecount, m.pagesize)

theorem call_range {c : TableCall} (h : m.call c = some m') : m'.range = m.range := by
  rcases call_cases h with ⟨i, -, -, rfl⟩ | ⟨i, -, rfl⟩ | ⟨l, rfl⟩ <;> rfl

/-- The calls for live blocks keep it as well. -/
theorem range_of_step {s s' : PoolState} {c : PoolCall} (h : s.step c = some s') :
    s'.mem.range = s.mem.range := by
  cases c with
  | malloc size heap =>
    simp only [PoolState.step] at h
    split at h <;> [skip; cases h]
    simp only [Option.map_eq_some_iff] at h
    obtain ⟨r, hr, rfl⟩ := h
    exact call_range (c := .malloc size heap) (congrArg (Option.map Prod.snd) hr)
  | realloc b size heap =>
    simp only [PoolState.step] at h
    split at h <;> [skip; cases h]
    simp only [Option.map_eq_some_iff] at h
    obtain ⟨r, hr, rfl⟩ := h
    have := call_range (c := .realloc b.ptr size heap) (congrArg (Option.map Prod.snd) hr)
    split <;> exact this
  | free b =>
    simp only [PoolState.step] at h
    split at h <;> [skip; cases h]
    simp only [Option.map_eq_some_iff] at h
    obtain ⟨m, hm, rfl⟩ := h
    exact call_range (c := .free b.ptr) hm
  | setlock ptr value =>
    simp only [PoolState.step, Option.map_eq_some_iff] at h
    obtain ⟨m, hm, rfl⟩ := h
    exact call_range (c := .setlock ptr value) hm

/-- No run of calls changes the range. -/
theorem exec_range {calls : List TableCall} (h : exec call m calls = some m') : m'.range = m.range :=
  exec_inv' (I := fun u => u.range = m.range) (fun _ _ _ hu hc => (call_range hc).trans hu) rfl h

theorem WF.pageEnd_eq (hw : m.WF) {i : Nat} (hi : i < m.pagecount) :
    m.pageEnd i = m.base + m.pagesize * (i + 1) := by
  have hle := m.page_succ_le hi
  have hend := hw.endp_eq
  have hlt := hw.endp_lt
  have hs : m.pagesize * (i + 1) = m.pagesize * i + m.pagesize := Nat.mul_succ ..
  have e : wrap32 (m.base + m.pagesize * i) = m.base + m.pagesize * i := by
    rw [← wrap32_of_lt (n := m.base + m.pagesize * i) (by omega)]
    push_cast; rfl
  rw [pageEnd, e, ← wrap32_of_lt (n := m.base + m.pagesize * (i + 1)) (by omega), hs]
  push_cast
  rw [add_assoc]

/-- Any call keeps a pool well formed. -/
theorem WF.call (hw : m.WF) {c : TableCall} (h : m.call c = some m') : m'.WF := by
  rcases call_cases h with ⟨i, hi, ht, rfl⟩ | ⟨i, -, rfl⟩ | ⟨l, rfl⟩
  · exact hw.update (.inr ⟨⟨hi, ht⟩, hw.pageEnd_eq hi⟩)
  · exact hw.update (.inl rfl)
  · exact hw.of_locked l

/-! ## The number of a page -/

/-- What the callers of `get_memstruct_pagenum` take the answer for: -1 for an
address that is in no page, and the number of its page if that is in use or
locked. -/
def FindsPage (m : MemStruct) (p : Nat) : Prop :=
  (p < m.base ∨ m.base + m.pagesize * m.pagecount ≤ p → m.getMemstructPagenum p = some (-1)) ∧
  ∀ k < m.pagecount, m.InPage k p → m.used k ≠ 0 ∨ m.locked k ≠ 0 →
    m.getMemstructPagenum p = some (((p - m.base) / m.pagesize : Nat) : Int)

theorem InPage.div_eq {k p : Nat} (h : m.InPage k p) : (p - m.base) / m.pagesize = k := by
  obtain ⟨h₁, h₂⟩ := h
  rw [Nat.mul_succ] at h₂
  refine Nat.div_eq_of_lt_le ?_ ?_
  · rw [Nat.mul_comm]; omega
  · rw [Nat.mul_comm, Nat.mul_succ]; omega

/-- The test of the range lets the end through. -/
theorem pagenum_eq_neg_one_iff (he : m.endp = m.base + m.pagesize * m.pagecount) {p : Nat}
    (hp : p < m.base ∨ m.base + m.pagesize * m.pagecount ≤ p) :
    m.getMemstructPagenum p = some (-1) ↔ p ≠ m.endp := by
  constructor
  · rintro h rfl
    have ho : m.outside m.endp = false := by
      simp only [outside, Bool.or_eq_false_iff, decide_eq_false_iff_not]; omega
    simp only [getMemstructPagenum, ho, Bool.false_eq_true, if_false, Option.map_eq_some_iff] at h
    obtain ⟨i, -, hi⟩ := h
    exact absurd hi (by simp)
  · intro hne
    have ho : m.outside p = true := by
      simp only [outside, Bool.or_eq_true, decide_eq_true_eq]; omega
    simp only [getMemstructPagenum, ho, if_true]

/-- The search finds the page of an address exactly if the page is in use. -/
theorem pagenum_eq_iff (hw : m.WF) {k p : Nat} (hp : m.InPage k p) (hk : k < m.pagecount) :
    m.getMemstructPagenum p = some (((p - m.base) / m.pagesize : Nat) : Int) ↔ m.used k ≠ 0 := by
  rw [hp.div_eq]
  constructor
  · intro h
    obtain ⟨i, hi, -, -, hiff⟩ := getMemstructPagenum_spec hw hp hk h
    exact hiff.mp (by omega)
  · intro hu
    simp only [getMemstructPagenum, hp.not_outside hw hk, findPage_eq hw hp hu, Bool.false_eq_true,
      if_false, Option.map_some, Int.ofNat_eq_natCast]

theorem WF.findsPage_iff (hw : m.WF) (p : Nat) :
    m.FindsPage p ↔ p ≠ m.endp ∧ ∀ k < m.pagecount, m.InPage k p → m.locked k ≠ 0 → m.used k ≠ 0 := by
  refine and_congr ?_ ?_
  · constructor
    · rintro h rfl
      have hp : m.base + m.pagesize * m.pagecount ≤ m.endp := Nat.le_of_eq hw.endp_eq.symm
      exact (pagenum_eq_neg_one_iff hw.endp_eq (.inr hp)).mp (h (.inr hp)) rfl
    · exact fun hne hp => (pagenum_eq_neg_one_iff hw.endp_eq hp).mpr hne
  · refine forall_congr' fun k => forall_congr' fun hk => forall_congr' fun hp => ?_
    rw [pagenum_eq_iff hw hp hk]
    tauto

/-- The same for a pool without pages, whatever its tables hold. -/
theorem findsPage_of_pagecount (he : m.endp = m.base) (hc : m.pagecount = 0) (p : Nat) :
    m.FindsPage p ↔ p ≠ m.endp := by
  have he' : m.endp = m.base + m.pagesize * m.pagecount := by rw [hc, he]; rfl
  have hnone : ∀ k < m.pagecount, m.InPage k p → m.used k ≠ 0 ∨ m.locked k ≠ 0 →
      m.getMemstructPagenum p = some (((p - m.base) / m.pagesize : Nat) : Int) :=
    fun k hk => absurd hk (by omega)
  have hp : p < m.base ∨ m.base + m.pagesize * m.pagecount ≤ p := by omega
  rw [FindsPage, and_iff_left hnone, ← pagenum_eq_neg_one_iff he' hp]
  exact ⟨fun h => h hp, fun h _ => h⟩

end MemStruct

open MemStruct

/-- **The page of an address.** In every reachable pool, `get_memstruct_pagenum`
answers rightly for an address exactly if that is not the end of the range and
its page, if it is locked, is in use as well. -/
theorem pagenum_iff {base count size : Nat} (hs : 0 < size ∨ count = 0) (hs' : size < 2 ^ 31)
    (hc : count < 2 ^ 31) (hb : base + size * count < 2 ^ 32) {calls : List TableCall} {m : MemStruct}
    (hr : exec call (setMemstruct base count size) calls = some m) (p : Nat) :
    m.FindsPage p ↔
      p ≠ base + size * count ∧ ∀ k < count, m.InPage k p → m.locked k ≠ 0 → m.used k ≠ 0 := by
  have hrange := exec_range hr
  rw [setMemstruct_eq hs' hc hb] at hrange
  simp only [range, Prod.mk.injEq] at hrange
  obtain ⟨hbase, he, hcount, -⟩ := hrange
  rcases hs with hs | rfl
  · have hw : m.WF :=
      exec_inv' (fun _ _ _ hu h => WF.call hu h) (setMemstruct_wf hs hs' hc hb).2 hr
    rw [hw.findsPage_iff p, he, hcount]
  · rw [findsPage_of_pagecount (by rw [he, hbase]; rfl) hcount, he]
    exact (and_iff_left fun k hk => absurd hk (Nat.not_lt_zero k)).symm

/-- Two pages are taken, and the second is locked and given back: its number is
not found any more, nor is the end of the range told from a page. -/
theorem pagenum_not_found :
    ∃ m, exec call (setMemstruct 4096 2 16)
        [.malloc 8 9000, .malloc 8 9000, .setlock 4112 1, .free 4112] = some m ∧
      m.InPage 1 4112 ∧ m.locked 1 = 1 ∧ m.getMemstructPagenum 4112 = some 2 ∧ ¬ m.FindsPage 4112 ∧
      m.getMemstructPagenum 4128 = some 2 ∧ ¬ m.FindsPage 4128 := by
  refine ⟨_, rfl, by decide, rfl, rfl, fun h => ?_, rfl, fun h => ?_⟩
  · exact absurd (h.2 1 (by decide) (by decide) (.inr (by decide))) (by decide)
  · exact absurd (h.1 (.inr (by decide))) (by decide)

/-- A block in the first of two pages, which is locked. -/
theorem pagenum_iff_one :
    ∃ m, exec call (setMemstruct 4096 2 16) [.malloc 8 9000, .setlock 4096 1] = some m ∧
      m.FindsPage 4100 := by
  have hr : exec call (setMemstruct (4096 : Nat) (2 : Nat) (16 : Nat))
    [.malloc 8 9000, .setlock 4096 1] = some _ := rfl
  refine ⟨_, hr, (pagenum_iff (by decide) (by decide) (by decide) (by decide) hr 4100).mpr
    ⟨by decide, fun k _ hp _ => ?_⟩⟩
  obtain rfl : k = 0 := hp.inj (show InPage _ 0 4100 by decide)
  decide

/-! ## Staying in the tables -/

/-- No run of calls on addresses of the range leaves the tables. -/
def StaysInTables (m : MemStruct) : Prop :=
  ∀ calls, (∀ c ∈ calls, c.InRange m) → (exec call m calls).isSome

theorem not_staysInTables {m : MemStruct} {c : TableCall} (hc : c.InRange m) (h : m.call c = none) :
    ¬ StaysInTables m := fun hs => by
  have hrun := hs [c] fun d hd => by rw [List.mem_singleton.mp hd]; exact hc
  rw [exec_cons, h] at hrun
  exact absurd hrun (by simp)

/-- The search where no entry of the tables hits: it stops at the page count, or
passes the tables. -/
theorem scanFrom_of_miss {n : Nat} {hit : Nat → Bool} {room i : Nat}
    (h : ∀ k, i ≤ k → k < i + room → hit k = false) (hi : i ≤ n) :
    scanFrom n hit room i = if n ≤ i + room then some n else none := by
  induction room generalizing i with
  | zero =>
    simp only [scanFrom, Nat.add_zero]
    by_cases hin : i < n
    · rw [if_pos hin, if_neg (by omega)]
    · rw [if_neg hin, if_pos (by omega), show i = n by omega]
  | succ room ih =>
    simp only [scanFrom]
    by_cases hin : i < n
    · rw [if_pos hin, h i (Nat.le_refl i) (by omega), ih (fun k hk hk' => h k (by omega) (by omega)) hin,
        show i + 1 + room = i + (room + 1) by omega]
      rfl
    · rw [if_neg hin, if_pos (by omega), show i = n by omega]

theorem scan_of_miss {n : Nat} {hit : Nat → Bool} (h : ∀ k < tableSize, hit k = false) :
    scan n hit = if n ≤ tableSize then some n else none := by
  rw [scan, scanFrom_of_miss (fun k _ hk => h k (by omega)) (Nat.zero_le n), Nat.zero_add]

namespace MemStruct

variable {m m' : MemStruct}

theorem setUsed_of_lt {i : Nat} (h : i < tableSize) (ptr : Nat) :
    m.setUsed i ptr = some { m with used := Function.update m.used i ptr } := if_pos h

/-- With fewer pages than the tables have entries, every call stays in them. -/
theorem call_isSome (hc : m.pagecount < tableSize) (c : TableCall) :
    ∃ m', m.call c = some m' ∧ m'.pagecount < tableSize := by
  have hscan : ∀ hit, ∃ i, scan m.pagecount hit = some i ∧ i < tableSize := fun hit => by
    obtain ⟨i, hi⟩ : ∃ i, scan m.pagecount hit = some i := scan_isSome (Nat.le_of_lt hc)
    exact ⟨i, hi, Nat.lt_of_le_of_lt (scan_spec hi).1 hc⟩
  obtain ⟨m', h⟩ : ∃ m', m.call c = some m' := by
    cases c with
    | malloc size heap =>
      obtain ⟨i, hi, ht⟩ := hscan fun i => m.used i == 0 && m.locked i == 0
      simp only [call, malloc, hi, Option.bind_some, setUsed_of_lt ht, Option.map_some]
      split <;> exact ⟨_, rfl⟩
    | realloc ptr size heap =>
      obtain ⟨i, hi, ht⟩ := hscan fun i => ptr < m.used i
      simp only [call, realloc, findPage, hi, Option.bind_some, setUsed_of_lt ht, Option.map_some]
      split
      · exact ⟨_, rfl⟩
      · split <;> exact ⟨_, rfl⟩
    | free ptr =>
      obtain ⟨i, hi, ht⟩ := hscan fun i => ptr < m.used i
      simp only [call, free, findPage, hi, Option.bind_some, setUsed_of_lt ht]
      split <;> exact ⟨_, rfl⟩
    | setlock ptr value =>
      by_cases ho : m.outside ptr = true
      · exact ⟨m, if_pos ho⟩
      · exact ⟨_, (memstructSetlock_eq_some (Bool.eq_false_iff.mpr ho)).mpr ⟨Nat.le_of_lt hc, rfl⟩⟩
    | pagenum ptr =>
      obtain ⟨i, hi, -⟩ := hscan fun i => ptr < m.used i
      simp only [call, getMemstructPagenum, findPage, hi]
      split <;> exact ⟨_, rfl⟩
  have hr := call_range h
  simp only [range, Prod.mk.injEq] at hr
  exact ⟨m', h, hr.2.2.1 ▸ hc⟩

/-- Where the range is empty, only `MALLOC` looks at the tables. -/
theorem call_of_empty (he : m.endp < m.base) {c : TableCall} (hc : ∀ size heap, c ≠ .malloc size heap) :
    m.call c = some m := by
  have ho : ∀ ptr, m.outside ptr = true := fun ptr => by
    simp only [outside, Bool.or_eq_true, decide_eq_true_eq]; omega
  cases c with
  | malloc size heap => exact absurd rfl (hc size heap)
  | realloc ptr size heap => simp only [call, realloc_outside (ho ptr), Option.map_some]
  | free ptr => exact free_outside (ho ptr)
  | setlock ptr value => exact if_pos (ho ptr)
  | pagenum ptr => simp only [call, getMemstructPagenum, ho ptr, if_true, Option.map_some]

/-- `MALLOC` stays in the tables if they hold all pages, or have an entry that is
never taken. -/
theorem malloc_isSome (h : m.pagecount ≤ tableSize ∨ ∃ i < tableSize, m.used i = 0 ∧ m.locked i = 0)
    (size heap : Nat) :
    m.call (.malloc size heap) = some m ∨ ∃ i < tableSize,
      m.call (.malloc size heap) = some { m with used := Function.update m.used i (m.pageEnd i) } := by
  obtain ⟨j, hj, ht⟩ : ∃ j, scan m.pagecount (fun i => m.used i == 0 && m.locked i == 0) = some j ∧
      (j < m.pagecount → j < tableSize) := by
    rcases h with h | ⟨i, hi, hu, hl⟩
    · obtain ⟨j, hj⟩ : ∃ j, scan m.pagecount (fun i => m.used i == 0 && m.locked i == 0) = some j :=
        scan_isSome h
      exact ⟨j, hj, fun hjc => Nat.lt_of_lt_of_le hjc h⟩
    · have hh : (m.used i == 0 && m.locked i == 0) = true := by simp [hu, hl]
      obtain ⟨j, hj⟩ : ∃ j, scan m.pagecount (fun i => m.used i == 0 && m.locked i == 0) = some j :=
        scanFrom_isSome (.inr ⟨i, Nat.zero_le i, by rwa [Nat.zero_add], hh⟩)
      refine ⟨j, hj, fun _ => ?_⟩
      by_contra hjt
      have := (scan_spec hj).2.1 i (by omega)
      rw [hh] at this
      cases this
  simp only [call, malloc, hj, Option.bind_some]
  split
  · exact .inl rfl
  · rename_i hc
    have hjt := ht (by omega)
    exact .inr ⟨j, hjt, by rw [setUsed_of_lt hjt]; rfl⟩

/-- What keeps `MALLOC` in the tables of a pool with an empty range. -/
structure Bounded (m m' : MemStruct) : Prop where
  range_eq : m'.range = m.range
  room : m.pagecount ≤ tableSize ∨
    ∃ i < tableSize, m.pageEnd i = 0 ∧ m'.used i = 0 ∧ m'.locked i = 0

theorem Bounded.call (h : Bounded m m') (he : m.endp < m.base) (c : TableCall) :
    ∃ m'', m'.call c = some m'' ∧ Bounded m m'' := by
  have hr := h.range_eq
  simp only [range, Prod.mk.injEq] at hr
  obtain ⟨hb, he', hc, hs⟩ := hr
  by_cases hm : ∃ size heap, c = .malloc size heap
  · obtain ⟨size, heap, rfl⟩ := hm
    have hroom : m'.pagecount ≤ tableSize ∨ ∃ i < tableSize, m'.used i = 0 ∧ m'.locked i = 0 :=
      h.room.imp (fun hle => hc ▸ hle) fun ⟨i, hi, _, hu⟩ => ⟨i, hi, hu⟩
    have hend : ∀ i, m'.pageEnd i = m.pageEnd i := fun i => by simp only [pageEnd, hb, hs]
    rcases malloc_isSome hroom size heap with e | ⟨j, -, e⟩
    · exact ⟨m', e, h⟩
    · refine ⟨_, e, h.range_eq, h.room.imp id fun ⟨i, hi, hz, hu, hl⟩ => ⟨i, hi, hz, ?_, hl⟩⟩
      show Function.update m'.used j (m'.pageEnd j) i = 0
      by_cases hij : i = j
      · rw [hij, Function.update_self, hend, ← hij, hz]
      · rw [Function.update_of_ne hij, hu]
  · exact ⟨m', call_of_empty (by omega) (fun size heap hcm => hm ⟨size, heap, hcm⟩), h⟩

/-- The pool with its first `k` pages taken. -/
def filled (m : MemStruct) (k : Nat) : MemStruct :=
  { m with used := fun i => if i < k then m.pageEnd i else 0, locked := fun _ => 0 }

/-- One page more. -/
theorem filled_malloc {k : Nat} (hk : k < tableSize) (hc : k < m.pagecount)
    (hz : ∀ i < tableSize, m.pageEnd i ≠ 0) :
    (m.filled k).call (.malloc 0 0) = some (m.filled (k + 1)) := by
  have hscan : scan m.pagecount (fun i => (if i < k then m.pageEnd i else 0) == 0 && (0 : UInt8) == 0) =
      some k := by
    refine scan_eq_some_of_hit hc hk (by simp) fun i hi => ?_
    simp [if_pos hi, hz i (by omega)]
  have hnot : ¬ (m.pagecount ≤ k ∨ m.pagesize < 0) := by omega
  simp only [call, malloc, filled, hscan, Option.bind_some, if_neg hnot, setUsed_of_lt hk,
    Option.map_some]
  refine congrArg some ?_
  simp only [mk.injEq, true_and, and_true]
  funext i
  rcases Nat.lt_trichotomy i k with hi | rfl | hi
  · rw [Function.update_of_ne (by omega), if_pos hi, if_pos (by omega)]
  · rw [Function.update_self, if_pos (Nat.lt_succ_self i)]; rfl
  · rw [Function.update_of_ne (by omega), if_neg (by omega), if_neg (by omega)]

theorem exec_filled (hc : tableSize ≤ m.pagecount) (hz : ∀ i < tableSize, m.pageEnd i ≠ 0) {k : Nat}
    (hk : k ≤ tableSize) :
    exec call (m.filled 0) (List.replicate k (.malloc 0 0)) = some (m.filled k) := by
  induction k with
  | zero => rfl
  | succ k ih =>
    rw [List.replicate_succ', exec_append, ih (by omega), Option.bind_some, exec_cons,
      filled_malloc (by omega) (by omega) hz]
    rfl

/-- With all entries taken and pages left, the next `MALLOC` passes the tables. -/
theorem filled_all (hc : tableSize < m.pagecount) (hz : ∀ i < tableSize, m.pageEnd i ≠ 0) :
    (m.filled tableSize).call (.malloc 0 0) = none := by
  have hscan : scan m.pagecount
      (fun i => (if i < tableSize then m.pageEnd i else 0) == 0 && (0 : UInt8) == 0) = none := by
    rw [scan_of_miss fun i hi => by simp [if_pos hi, hz i hi], if_neg (by omega)]
  simp only [call, malloc, filled, hscan, Option.bind_none, Option.map_none]

end MemStruct

/-- The release of the first page, before any is taken, stores at the page count. -/
theorem free_base {m : MemStruct} (hu : ∀ i, m.used i = 0) (he : m.base ≤ m.endp)
    (hc : tableSize ≤ m.pagecount) : m.call (.free m.base) = none := by
  have ho : m.outside m.base = false := by
    simp only [outside, Bool.or_eq_false_iff, decide_eq_false_iff_not]; omega
  have hmiss : ∀ k < tableSize, decide (m.base < m.used k) = false := fun k _ => by
    rw [hu k]; exact decide_eq_false (Nat.not_lt_zero _)
  simp only [call, free, ho, findPage, scan_of_miss hmiss, Bool.false_eq_true, if_false]
  split
  · rw [Option.bind_some, setUsed, if_neg (by omega)]
  · rfl

/-- **The pools whose tables are not left.** After `set_memstruct`, every run of
calls on addresses of the range stays in the tables exactly if there are fewer
pages than entries; or, where the end lies below the base and no address is in
the range, if there are as many, or a page whose end is computed as `NULL`. -/
theorem staysInTables_iff (base : Nat) (count size : Int) :
    let m := setMemstruct base count size
    StaysInTables m ↔ m.pagecount < tableSize ∨
      m.endp < m.base ∧ (m.pagecount = tableSize ∨ ∃ i < tableSize, m.pageEnd i = 0) := by
  intro m
  constructor
  · intro h
    by_contra hn
    push Not at hn
    obtain ⟨hc, hrest⟩ := hn
    rcases Nat.lt_or_ge m.endp m.base with he | he
    · obtain ⟨hne, hz⟩ := hrest he
      have hrun := h (List.replicate (tableSize + 1) (.malloc 0 0)) fun c hcm => by
        rw [List.eq_of_mem_replicate hcm]; trivial
      rw [List.replicate_succ', exec_append, show m = m.filled 0 from rfl,
        exec_filled hc hz (Nat.le_refl _), Option.bind_some, exec_cons, filled_all (by omega) hz] at hrun
      exact absurd hrun (by simp)
    · have ho : m.outside m.base = false := by
        simp only [outside, Bool.or_eq_false_iff, decide_eq_false_iff_not]; omega
      exact not_staysInTables (c := .free m.base) ho (free_base (fun _ => rfl) he hc) h
  · rintro (hc | ⟨he, hc⟩) calls -
    · exact exec_isSome (fun m c hm => call_isSome hm c) hc calls
    · have hb : Bounded m m := by
        refine ⟨rfl, hc.imp Nat.le_of_eq ?_⟩
        rintro ⟨i, hi, hz⟩
        exact ⟨i, hi, hz, rfl, rfl⟩
      exact exec_isSome (fun _ c hm => hm.call he c) hb calls

end DShow.Pool
