import DShowServer.Pool.Blocks
import Mathlib.Data.Finset.Card
import Mathlib.Data.Finset.Range
import Mathlib.Data.List.Nodup

/-!
# Pages that come back to the pool

`memstruct_setlock` finds a page by the entry of `used[]` that `FREE` clears,
and `MALLOC` hands out no locked page: a page whose block is given up while
the page is locked can be neither unlocked nor taken again. It is lost. A page
that is unlocked when its block is given up is open again.

* `step_page`: what one call does to one page;
* `run_lockedUsed_iff`: every locked page stays in use exactly when no call of
  the run gives up a locked page;
* `serves`: as many requests are served from the pool as pages are open;
* `no_leak_iff`: when no page is lost.
-/

namespace DShow.Pool.PoolState

open Run

variable {s s' t : PoolState}

/-- No page is in use or locked. -/
def Clear (m : MemStruct) : Prop := ∀ k < m.pagecount, m.used k = 0 ∧ m.locked k = 0

/-- What the callers of the pool see to: the system's allocator returns blocks
outside the pool, and only live blocks are given to `REALLOC` and `FREE`. -/
def Called (s : PoolState) : PoolCall → Prop
  | .malloc _ heap => s.mem.outside heap = true
  | .realloc b _ heap => b ∈ s.live ∧ s.mem.outside heap = true
  | .free b => b ∈ s.live
  | .setlock _ _ => True

instance (s : PoolState) : ∀ c, Decidable (Called s c)
  | .malloc _ heap => inferInstanceAs (Decidable (s.mem.outside heap = true))
  | .realloc b _ heap => inferInstanceAs (Decidable (b ∈ s.live ∧ s.mem.outside heap = true))
  | .free b => inferInstanceAs (Decidable (b ∈ s.live))
  | .setlock _ _ => instDecidableTrue

/-- Every lock call is followed by an unlock call for the same pointer. -/
def LocksReturned : List PoolCall → Prop
  | [] => True
  | .setlock ptr value :: calls => (value ≠ 0 → .setlock ptr 0 ∈ calls) ∧ LocksReturned calls
  | _ :: calls => LocksReturned calls

/-- The call gives up the block in page `k`. -/
def GivesUp (s : PoolState) (k : Nat) : PoolCall → Prop
  | .free b => s.mem.InPage k b.ptr
  | .realloc b size _ => s.mem.InPage k b.ptr ∧ s.mem.pagesize < size
  | _ => False

instance (s : PoolState) (k : Nat) : ∀ c, Decidable (GivesUp s k c)
  | .free b => inferInstanceAs (Decidable (s.mem.InPage k b.ptr))
  | .realloc b size _ => inferInstanceAs (Decidable (s.mem.InPage k b.ptr ∧ s.mem.pagesize < size))
  | .malloc _ _ | .setlock _ _ => instDecidableFalse

/-- The condition on a step: a page that is given up is not locked. -/
def GivesUpUnlocked (s : PoolState) (c : PoolCall) : Prop :=
  ∀ k < s.mem.pagecount, GivesUp s k c → s.mem.locked k = 0

instance (s : PoolState) (c : PoolCall) : Decidable (GivesUpUnlocked s c) :=
  inferInstanceAs (Decidable (∀ k < s.mem.pagecount, GivesUp s k c → s.mem.locked k = 0))

/-- Every locked page is in use. -/
def LockedUsed (s : PoolState) : Prop := ∀ k < s.mem.pagecount, s.mem.locked k ≠ 0 → s.mem.used k ≠ 0

/-- `MALLOC` calls for the sizes, with what `malloc` would return. -/
def requests (reqs : List (Nat × Nat)) : List PoolCall := reqs.map fun r => .malloc r.1 r.2

/-- The requests, each of at most a page, get blocks inside the pool. -/
def Serves (s : PoolState) (reqs : List (Nat × Nat)) : Prop :=
  ∃ t, exec step s (requests reqs) = some t ∧
    ∃ blocks, t.live = blocks ++ s.live ∧ blocks.length = reqs.length ∧ ∀ b ∈ blocks, InPool s.mem b

/-- Any `count` allocations of at most one page each are served. -/
def Refills (s : PoolState) : Prop :=
  ∀ reqs, reqs.length = s.mem.pagecount →
    (∀ r ∈ reqs, r.1 ≤ s.mem.pagesize ∧ s.mem.outside r.2 = true) → Serves s reqs

/-! ## One page under one call -/

/-- What a call does to page `k`. -/
structure PageStep (s : PoolState) (c : PoolCall) (s' : PoolState) (k : Nat) : Prop where
  /-- A page that is given up is free, with the lock it had. -/
  given : GivesUp s k c → s'.mem.used k = 0 ∧ s'.mem.locked k = s.mem.locked k
  /-- Another page in use stays in use. -/
  kept : ¬ GivesUp s k c → s.mem.used k ≠ 0 → s'.mem.used k ≠ 0
  /-- The lock of a page that is not in use does not change. -/
  locked : s.mem.used k = 0 → s'.mem.locked k = s.mem.locked k
  /-- A locked page that is not in use stays so. -/
  stuck : s.mem.used k = 0 → s.mem.locked k ≠ 0 → s'.mem.used k = 0

/-- Giving up the block in page `l`. -/
theorem PageStep.release {c : PoolCall} {l k : Nat} {live : List Block}
    (hg : ∀ k, GivesUp s k c ↔ k = l) :
    PageStep s c ⟨{ s.mem with used := Function.update s.mem.used l 0 }, live⟩ k where
  given := fun hk => by
    have : k = l := (hg k).mp hk
    subst this
    exact ⟨Function.update_self .., rfl⟩
  kept := fun hk hu => by
    have hne : k ≠ l := fun he => hk ((hg k).mpr he)
    show Function.update s.mem.used l 0 k ≠ 0
    rwa [Function.update_of_ne hne]
  locked := fun _ => rfl
  stuck := fun hu _ => by
    show Function.update s.mem.used l 0 k = 0
    by_cases hkl : k = l
    · rw [hkl, Function.update_self]
    · rw [Function.update_of_ne hkl, hu]

/-- A call that changes no page in the pool. -/
theorem PageStep.same {c : PoolCall} {k : Nat} {live : List Block} (hg : ¬ GivesUp s k c) :
    PageStep s c ⟨s.mem, live⟩ k :=
  ⟨fun hk => absurd hk hg, fun _ hu => hu, fun _ => rfl, fun hu _ => hu⟩

/-- A pointer outside the pool is in none of its pages. -/
theorem not_inPage_of_outside (hw : s.mem.WF) {ptr k : Nat} (ho : s.mem.outside ptr = true)
    (hk : k < s.mem.pagecount) : ¬ s.mem.InPage k ptr := by
  intro hp
  rw [hp.not_outside hw hk] at ho
  cases ho

theorem malloc_pageStep (h : s.Safe) {size heap : Nat} (hs : step s (.malloc size heap) = some s') (k : Nat) :
    PageStep s (.malloc size heap) s' k := by
  simp only [step] at hs
  split at hs <;> [skip; cases hs]
  simp only [Option.map_eq_some_iff] at hs
  obtain ⟨⟨ptr, m⟩, hm, rfl⟩ := hs
  rcases MemStruct.malloc_cases h.wf hm with ⟨i, -, -, hu, hl, -, rfl, rfl⟩ | ⟨rfl, rfl, -⟩
  · refine ⟨fun hg => hg.elim, fun _ huk => ?_, fun _ => rfl, fun huk hlk => ?_⟩
    · show Function.update _ _ _ _ ≠ 0
      rw [Function.update_of_ne (by rintro rfl; exact huk hu)]
      exact huk
    · show Function.update _ _ _ _ = 0
      rw [Function.update_of_ne (by rintro rfl; exact hlk hl)]
      exact huk
  · exact .same fun hg => hg

theorem realloc_pageStep (h : s.Safe) {b : Block} {size heap : Nat}
    (hs : step s (.realloc b size heap) = some s') {k : Nat} (hk : k < s.mem.pagecount) :
    PageStep s (.realloc b size heap) s' k := by
  simp only [step] at hs
  split at hs <;> [rename_i hc; cases hs]
  simp only [Option.map_eq_some_iff] at hs
  obtain ⟨⟨ptr, m⟩, hm, rfl⟩ := hs
  rcases h.realloc_eq hc.1 size heap with ⟨ho, e⟩ | ⟨l, he, hu, e⟩
  · simp only [e, Option.some.injEq, Prod.mk.injEq] at hm
    obtain ⟨rfl, rfl⟩ := hm
    have hg : ¬ GivesUp s k (.realloc b size heap) := fun hg => not_inPage_of_outside h.wf ho hk hg.1
    split <;> exact .same hg
  · rw [e] at hm
    split at hm <;> simp only [Option.some.injEq, Prod.mk.injEq] at hm <;> obtain ⟨rfl, rfl⟩ := hm
    · rename_i hsz
      have hg : ∀ k, GivesUp s k (.realloc b size heap) ↔ k = l := fun k => by
        simp only [GivesUp, he, MemStruct.inPage_page_iff h.wf, hsz, and_true]
      have : PageStep s (.realloc b size heap) ⟨_, hold s.mem heap size (s.live.erase b)⟩ k := .release hg
      have hbp := inPool_page h.wf (h.wf.lt_of_used hu).1 he
      rw [InPool] at hbp
      simpa only [hbp, Bool.false_eq_true, false_and, if_false] using this
    · rename_i hsz
      have hg : ¬ GivesUp s k (.realloc b size heap) := fun hg => hsz hg.2
      split <;> exact .same hg

theorem free_pageStep (h : s.Safe) {b : Block} (hs : step s (.free b) = some s') {k : Nat}
    (hk : k < s.mem.pagecount) : PageStep s (.free b) s' k := by
  simp only [step] at hs
  split at hs <;> [rename_i hb; cases hs]
  simp only [Option.map_eq_some_iff] at hs
  obtain ⟨m, hm, rfl⟩ := hs
  rcases h.free_eq hb with ⟨ho, e⟩ | ⟨l, he, hu, e⟩ <;> simp only [e, Option.some.injEq] at hm <;> subst hm
  · exact .same (not_inPage_of_outside h.wf ho hk)
  · refine .release fun k => ?_
    show s.mem.InPage k b.ptr ↔ k = l
    rw [he, MemStruct.inPage_page_iff h.wf]

theorem setlock_pageStep {ptr : Nat} {value : UInt8} (hs : step s (.setlock ptr value) = some s') (k : Nat) :
    PageStep s (.setlock ptr value) s' k := by
  simp only [step, Option.map_eq_some_iff] at hs
  obtain ⟨m, hm, rfl⟩ := hs
  have hu : m.used = s.mem.used := by rw [MemStruct.memstructSetlock_frame hm]
  refine ⟨fun hg => hg.elim, fun _ huk => by rwa [hu], fun huk => ?_, fun huk _ => by rwa [hu]⟩
  rcases MemStruct.memstructSetlock_locked hm k with e | ⟨hlt, -⟩
  · exact e
  · omega

theorem step_page (h : s.Safe) {c : PoolCall} (hs : step s c = some s') {k : Nat}
    (hk : k < s.mem.pagecount) : PageStep s c s' k := by
  cases c with
  | malloc size heap => exact malloc_pageStep h hs k
  | realloc b size heap => exact realloc_pageStep h hs hk
  | free b => exact free_pageStep h hs hk
  | setlock ptr value => exact setlock_pageStep hs k

/-! ## Locked pages over a run -/

/-- A step keeps every locked page in use exactly when it gives up none. -/
theorem lockedUsed_step (h : s.Safe) (hl : LockedUsed s) {c : PoolCall} (hs : step s c = some s') :
    LockedUsed s' ↔ GivesUpUnlocked s c := by
  have hcount : s'.mem.pagecount = s.mem.pagecount := (h.step_over hs).count_eq
  rw [LockedUsed, hcount]
  constructor
  · intro hl' k hk hg
    obtain ⟨hu, he⟩ := (step_page h hs hk).given hg
    by_contra hne
    exact hl' k hk (he ▸ hne) hu
  · intro hc k hk hne
    have hp := step_page h hs hk
    by_cases hu : s.mem.used k = 0
    · exact absurd hu (hl k hk (hp.locked hu ▸ hne))
    by_cases hg : GivesUp s k c
    · exact absurd (hc k hk hg) ((hp.given hg).2 ▸ hne)
    · exact hp.kept hg hu

/-- A page lost is lost for good. -/
theorem lockedUsed_back (h : s.Safe) {c : PoolCall} (hs : step s c = some s') (hl : LockedUsed s') :
    LockedUsed s := by
  intro k hk hne hu
  have hp := step_page h hs hk
  have hcount : s'.mem.pagecount = s.mem.pagecount := (h.step_over hs).count_eq
  exact hl k (hcount ▸ hk) (hp.locked hu ▸ hne) (hp.stuck hu hne)

theorem run_lockedUsed_iff (h : s.Safe) (hl : LockedUsed s) {calls : List PoolCall}
    (hr : exec step s calls = some t) : Meets step GivesUpUnlocked s calls ↔ LockedUsed t :=
  meets_iff_end (fun _ _ _ hi hs => hi.step hs) (fun _ _ _ hi hm hs => lockedUsed_step hi hm hs)
    (fun _ _ _ hi hs hm => lockedUsed_back hi hs hm) h hl hr

/-- With every block given up, the pool is clear if every locked page is in
use. -/
theorem clear_iff (h : s.Safe) (hn : s.live = []) : Clear s.mem ↔ LockedUsed s := by
  have hu : ∀ k, s.mem.used k = 0 := fun k => by
    by_contra hne
    obtain ⟨b, hb, -⟩ := h.held k hne
    rw [hn] at hb
    cases hb
  constructor
  · intro hc k hk hne
    exact absurd (hc k hk).2 hne
  · intro hl k hk
    refine ⟨hu k, ?_⟩
    by_contra hne
    exact hl k hk hne (hu k)

/-! ## Requests -/

/-- The pages `MALLOC` can hand out. -/
def openPages (m : MemStruct) : Finset Nat :=
  (Finset.range m.pagecount).filter fun k => m.used k = 0 ∧ m.locked k = 0

theorem Clear.card_openPages {m : MemStruct} (hc : Clear m) : (openPages m).card = m.pagecount := by
  rw [openPages, Finset.filter_true_of_mem fun k hk => hc k (Finset.mem_range.mp hk),
    Finset.card_range]

/-- One request takes an open page. -/
theorem malloc_open (h : s.Safe) (hc : s.mem.pagecount ≤ tableSize) {size heap : Nat}
    (hsz : size ≤ s.mem.pagesize) (ho : s.mem.outside heap = true)
    (hn : (openPages s.mem).Nonempty) :
    ∃ i ∈ openPages s.mem, step s (.malloc size heap) =
      some ⟨{ s.mem with used := Function.update s.mem.used i (s.mem.page (i + 1)) },
        ⟨s.mem.page i, size⟩ :: s.live⟩ := by
  obtain ⟨t, ht⟩ := Option.isSome_iff_exists.mp ((step_isSome hc).1 size heap ho)
  rw [ht]
  simp only [step, ho, if_true, Option.map_eq_some_iff] at ht
  obtain ⟨⟨ptr, m⟩, hm, rfl⟩ := ht
  rcases MemStruct.malloc_cases h.wf hm with ⟨i, hi, -, hu, hl, -, rfl, rfl⟩ | ⟨-, -, hbad⟩
  · have hn₀ : ¬ (s.mem.page i = 0 ∧ s.mem.outside 0 = true) := by
      rintro ⟨h₀, h₁⟩
      have := (MemStruct.inPage_page h.wf i).not_outside h.wf hi
      rw [h₀, h₁] at this
      cases this
    refine ⟨i, Finset.mem_filter.mpr ⟨Finset.mem_range.mpr hi, hu, hl⟩, ?_⟩
    simp only [hold, hn₀, if_false]
  · obtain ⟨k, hk⟩ := hn
    obtain ⟨hk, hopen⟩ := Finset.mem_filter.mp hk
    rcases hbad with hbad | hbad
    · omega
    · exact absurd hopen (hbad k (Finset.mem_range.mp hk))

/-- The page is open no longer. -/
theorem openPages_take (h : s.Safe) (i : Nat) :
    openPages { s.mem with used := Function.update s.mem.used i (s.mem.page (i + 1)) } =
      (openPages s.mem).erase i := by
  have hne : s.mem.page (i + 1) ≠ 0 := by
    have := (MemStruct.inPage_page h.wf i).2
    simp only [MemStruct.page]
    omega
  ext k
  simp only [openPages, Finset.mem_filter, Finset.mem_erase, Function.update_apply]
  by_cases hk : k = i <;> simp [hk, hne]

/-- As many requests are served as pages are open. -/
theorem serves (h : s.Safe) (hc : s.mem.pagecount ≤ tableSize) {reqs : List (Nat × Nat)}
    (hr : ∀ r ∈ reqs, r.1 ≤ s.mem.pagesize ∧ s.mem.outside r.2 = true)
    (hn : reqs.length ≤ (openPages s.mem).card) : Serves s reqs := by
  induction reqs generalizing s with
  | nil => exact ⟨s, rfl, [], rfl, rfl, fun _ hb => by cases hb⟩
  | cons r reqs ih =>
    rw [List.length_cons] at hn
    obtain ⟨hsz, ho⟩ := hr r List.mem_cons_self
    obtain ⟨i, hi, hs⟩ := malloc_open h hc hsz ho (Finset.card_pos.mp (by omega))
    have hcard := Finset.card_erase_of_mem hi
    obtain ⟨t, ht, blocks, hlive, hlen, hin⟩ := ih (h.step hs) hc
      (fun q hq => hr q (List.mem_cons_of_mem _ hq)) (by rw [openPages_take h]; omega)
    refine ⟨t, exec_cons_eq_some.mpr ⟨_, hs, ht⟩, blocks ++ [⟨s.mem.page i, r.1⟩], ?_, ?_, ?_⟩
    · rw [hlive, List.append_assoc]
      rfl
    · rw [List.length_append, hlen, List.length_singleton, List.length_cons]
    · intro b hb
      rcases List.mem_append.mp hb with hb | hb
      · exact hin b hb
      · have hip := (Finset.mem_filter.mp hi).1
        exact inPool_page h.wf (Finset.mem_range.mp hip) (List.mem_singleton.mp hb ▸ rfl)

/-- A clear pool of at most 32 pages refills. -/
theorem Clear.refills (hc : Clear s.mem) (h : s.Safe) (hn : s.mem.pagecount ≤ tableSize) :
    Refills s := by
  intro reqs hlen hr
  exact serves h hn hr (by rw [hc.card_openPages, hlen])

/-- A run keeps what is inside the pool. -/
theorem run_outside (h : s.Safe) {calls : List PoolCall} (hr : exec step s calls = some t) :
    t.Safe ∧ t.mem.outside = s.mem.outside := by
  refine exec_inv' (I := fun t => t.Safe ∧ t.mem.outside = s.mem.outside) ?_ ⟨h, rfl⟩ hr
  rintro u c u' ⟨hu, ho⟩ hs
  obtain ⟨hb, hc, hz⟩ := hu.step_over hs
  have hu' := hu.step hs
  refine ⟨hu', ?_⟩
  rw [← ho]
  funext ptr
  simp only [MemStruct.outside, hu'.wf.endp_eq, hu.wf.endp_eq, hb, hc, hz]

/-- At most 32 live blocks are in the pool: each has an entry of the tables. -/
theorem Safe.length_le (h : s.Safe) {blocks rest : List Block} (hl : s.live = blocks ++ rest)
    (hin : ∀ b ∈ blocks, InPool s.mem b) : blocks.length ≤ tableSize := by
  have hap : (blocks.map Block.ptr).Nodup := by
    have := (List.pairwise_append.mp (hl ▸ h.apart)).1
    exact List.pairwise_map.mpr (this.imp_of_mem fun hb hc hne => hne (hin _ hb) (hin _ hc))
  have hsub : (blocks.map Block.ptr).toFinset ⊆ (Finset.range tableSize).image s.mem.page := by
    intro ptr hp
    obtain ⟨b, hb, rfl⟩ := List.mem_map.mp (List.mem_toFinset.mp hp)
    obtain ⟨k, hu, he, -⟩ := h.placed b (hl ▸ List.mem_append_left _ hb) (hin b hb)
    exact Finset.mem_image.mpr ⟨k, Finset.mem_range.mpr (h.wf.lt_of_used hu).2, he.symm⟩
  calc blocks.length = (blocks.map Block.ptr).toFinset.card := by
        rw [List.toFinset_card_of_nodup hap, List.length_map]
    _ ≤ ((Finset.range tableSize).image s.mem.page).card := Finset.card_le_card hsub
    _ ≤ (Finset.range tableSize).card := Finset.card_image_le
    _ = tableSize := Finset.card_range _

/-- A pool that refills has at most 32 pages. -/
theorem Refills.pagecount_le (hr : Refills s) (h : s.Safe) : s.mem.pagecount ≤ tableSize := by
  have hout : s.mem.outside (s.mem.endp + 1) = true := by
    simp [MemStruct.outside]
  obtain ⟨t, ht, blocks, hlive, hlen, hin⟩ := hr (List.replicate s.mem.pagecount (0, s.mem.endp + 1))
    List.length_replicate fun r hmem => by
      rw [List.eq_of_mem_replicate hmem]
      exact ⟨Nat.zero_le _, hout⟩
  obtain ⟨hsafe, ho⟩ := run_outside h ht
  have := hsafe.length_le hlive fun b hb => by rw [InPool, ho]; exact hin b hb
  rwa [hlen, List.length_replicate] at this

/-! ## No page is lost -/

/-- What a call needs besides its caller's part is that the tables reach. -/
theorem step_of_called (h : s.Safe) (hn : s.mem.pagecount ≤ tableSize) {c : PoolCall}
    (hc : Called s c) : ∃ s', step s c = some s' := by
  cases c with
  | malloc size heap => exact Option.isSome_iff_exists.mp ((step_isSome hn).1 size heap hc)
  | realloc b size heap =>
    simp only [step, hc.1, hc.2, and_self, if_true]
    rcases h.realloc_eq hc.1 size heap with ⟨-, e⟩ | ⟨k, -, -, e⟩
    · exact ⟨_, by rw [e]; rfl⟩
    · rw [e]
      split <;> exact ⟨_, rfl⟩
  | free b =>
    have hb : b ∈ s.live := hc
    simp only [step, hb, if_true]
    rcases h.free_eq hb with ⟨-, e⟩ | ⟨k, -, -, e⟩ <;> exact ⟨_, by rw [e]; rfl⟩
  | setlock ptr value => exact Option.isSome_iff_exists.mp ((step_isSome hn).2 ptr value)

theorem run_of_called (h : s.Safe) (hn : s.mem.pagecount ≤ tableSize) {calls : List PoolCall}
    (hc : Meets step Called s calls) : ∃ t, exec step s calls = some t := by
  induction calls generalizing s with
  | nil => exact ⟨s, rfl⟩
  | cons c calls ih =>
    obtain ⟨u, hu⟩ := step_of_called h hn hc.1
    have hcount : u.mem.pagecount = s.mem.pagecount := (h.step_over hu).count_eq
    obtain ⟨t, ht⟩ := ih (h.step hu) (hcount ▸ hn) (hc.2 u hu)
    exact ⟨t, exec_cons_eq_some.mpr ⟨u, hu, ht⟩⟩

/-- **No page is lost exactly when none is given up locked.** A sequence of
calls after which every block has been given up, whatever lock calls it makes,
leaves every page neither in use nor locked, and the pool ready to serve as
many requests as it has pages, if and only if the pool has at most 32 pages and
no call of the sequence gives up a block whose page is locked. -/
theorem no_leak_iff {base count size : Nat} (hs : 0 < size) (hs' : size < 2 ^ 31)
    (hc : count < 2 ^ 31) (hb : base + size * count < 2 ^ 32) {calls : List PoolCall}
    (hcalls : Meets step Called (start base count size) calls)
    (hend : ∀ t, exec step (start base count size) calls = some t → t.live = []) :
    (∃ t, exec step (start base count size) calls = some t ∧ Clear t.mem ∧ Refills t) ↔
      count ≤ tableSize ∧ Meets step GivesUpUnlocked (start base count size) calls := by
  have h₀ := start_safe hs hs' hc hb
  have hl₀ : LockedUsed (start base count size) := fun k _ hne => absurd rfl hne
  constructor
  · rintro ⟨t, hr, hclear, hrefills⟩
    obtain ⟨ht, hover⟩ := run_safe hs hs' hc hb hr
    refine ⟨hover.count_eq ▸ hrefills.pagecount_le ht, ?_⟩
    exact (run_lockedUsed_iff h₀ hl₀ hr).mpr ((clear_iff ht (hend t hr)).mp hclear)
  · rintro ⟨hn, hm⟩
    have hcount : (start base count size).mem.pagecount = count := by
      simp only [start, (setMemstruct_wf hs hs' hc hb).1]
    obtain ⟨t, hr⟩ := run_of_called h₀ (hcount.symm ▸ hn) hcalls
    obtain ⟨ht, hover⟩ := run_safe hs hs' hc hb hr
    have hclear := (clear_iff ht (hend t hr)).mpr ((run_lockedUsed_iff h₀ hl₀ hr).mp hm)
    exact ⟨t, hr, hclear, hclear.refills ht (hover.count_eq.symm ▸ hn)⟩

/-- One page: locked, its block freed, then unlocked. The lock stays, and the
next request goes to the heap. -/
theorem leaks :
    let calls := [.malloc 8 9000, .setlock 4096 1, .free ⟨4096, 8⟩, .setlock 4096 0]
    Meets step Called (start 4096 1 16) calls ∧ LocksReturned calls ∧
      ∃ t, exec step (start 4096 1 16) calls = some t ∧ t.live = [] ∧
        t.mem.locked 0 ≠ 0 ∧ ¬ Serves t [(8, 9000)] := by
  refine ⟨by decide +kernel, by simp [LocksReturned], _, rfl, rfl, by decide, ?_⟩
  rintro ⟨t, ht, blocks, hlive, hlen, hin⟩
  cases ht
  obtain ⟨b, rfl⟩ := List.length_eq_one_iff.mp hlen
  have hb : b = ⟨9000, 8⟩ := (List.cons.inj hlive).1.symm
  subst hb
  exact absurd (hin _ List.mem_cons_self) (by decide)

/-- Unlocked first, the page comes back. -/
theorem no_leak_iff_one :
    let calls := [.malloc 8 9000, .setlock 4096 1, .setlock 4096 0, .free ⟨4096, 8⟩]
    ∃ t, exec step (start 4096 1 16) calls = some t ∧ Clear t.mem ∧ Refills t :=
  (no_leak_iff (by decide) (by decide) (by decide) (by decide) (by decide +kernel)
    fun t ht => by cases ht; rfl).mpr ⟨by decide, by decide +kernel⟩

end DShow.Pool.PoolState
