import DShowServer.Pool.Blocks

/-!
# Locking a page of the pool

A locked page is not given to a new block, so that a picture the client still
reads is not written over. `memstruct_setlock` finds the page of its pointer
by the search that `FREE` and `get_memstruct_pagenum` use, but goes on after
the first hit, so that every page in use above it takes the value too. It sets
one lock exactly when these pages carry the value already:

* `setlock_eq`: the locks after a call;
* `Aligned`: a call that finds the pages above its own at the value it sets;
* `setlock_isolated`: where the calls are such, a locked page stays out of
  `MALLOC`'s reach until it is unlocked.
-/

namespace DShow.Pool.PoolState

open Run

variable {s s' t : PoolState}

/-- The call sets the lock of page `k` to the value and no other lock. -/
def SetsOne (s : PoolState) (k ptr : Nat) (value : UInt8) : Prop :=
  ∃ s', step s (.setlock ptr value) = some s' ∧ s'.mem.locked k = value ∧
    ∀ j, j ≠ k → s'.mem.locked j = s.mem.locked j

/-- `MALLOC` can return a block in page `k`. -/
def HandsOut (s : PoolState) (k : Nat) : Prop :=
  ∃ size heap r, s.mem.outside heap = true ∧ s.mem.malloc size heap = some r ∧ s.mem.InPage k r.1

/-- The pages in use that lie wholly above the pointer carry the value. -/
def Aligned (s : PoolState) (ptr : Nat) (value : UInt8) : Prop :=
  ∀ j, s.mem.used j ≠ 0 → ptr < s.mem.page j → s.mem.locked j = value

/-- The condition on a step: a lock call is aligned. -/
def LocksAligned (s : PoolState) : PoolCall → Prop
  | .setlock ptr value => Aligned s ptr value
  | _ => True

/-- In terms of the page of the pointer. -/
theorem aligned_iff {k ptr : Nat} (hp : s.mem.InPage k ptr) {value : UInt8} :
    Aligned s ptr value ↔ ∀ j, k < j → s.mem.used j ≠ 0 → s.mem.locked j = value := by
  have hlt : ∀ j, ptr < s.mem.page j ↔ k < j := fun j => by
    constructor
    · intro hj
      by_contra hkj
      have := Nat.mul_le_mul_left s.mem.pagesize (Nat.le_of_not_lt hkj)
      have := hp.1
      simp only [MemStruct.page] at hj
      omega
    · intro hj
      have := s.mem.page_succ_le hj
      have := hp.2
      simp only [MemStruct.page]
      omega
  exact ⟨fun ha j hj hu => ha j hu ((hlt j).mpr hj), fun ha j hu hj => ha j ((hlt j).mp hj) hu⟩

/-- The locks after a call for a pointer in page `k`: those of the pages in use
from `k` on are set. -/
theorem setlock_eq (h : s.Safe) {k ptr : Nat} (hp : s.mem.InPage k ptr) (hk : k < s.mem.pagecount)
    {value : UInt8} :
    step s (.setlock ptr value) = some s' ↔ s.mem.pagecount ≤ tableSize ∧ s' = ⟨{ s.mem with
      locked := fun j => if s.mem.used j ≠ 0 ∧ k ≤ j then value else s.mem.locked j }, s.live⟩ := by
  simp only [step, Option.map_eq_some_iff, MemStruct.memstructSetlock_page h.wf hp hk]
  constructor
  · rintro ⟨_, ⟨hn, rfl⟩, rfl⟩; exact ⟨hn, rfl⟩
  · rintro ⟨hn, rfl⟩; exact ⟨_, ⟨hn, rfl⟩, rfl⟩

/-- A call for a pointer in a page in use sets one lock exactly when it is
aligned and the loop stays in the tables. -/
theorem setsOne_iff (h : s.Safe) {k ptr : Nat} (hu : s.mem.used k ≠ 0) (hp : s.mem.InPage k ptr)
    (value : UInt8) :
    SetsOne s k ptr value ↔ s.mem.pagecount ≤ tableSize ∧ Aligned s ptr value := by
  have hk := (h.wf.lt_of_used hu).1
  simp only [SetsOne, setlock_eq h hp hk, aligned_iff hp]
  constructor
  · rintro ⟨_, ⟨hn, rfl⟩, -, hf⟩
    refine ⟨hn, fun j hj huj => ?_⟩
    have := hf j (by omega)
    simpa only [if_pos (show s.mem.used j ≠ 0 ∧ k ≤ j from ⟨huj, by omega⟩)] using this.symm
  · rintro ⟨hn, ha⟩
    refine ⟨_, ⟨hn, rfl⟩, if_pos ⟨hu, Nat.le_refl k⟩, fun j hj => ?_⟩
    by_cases hc : s.mem.used j ≠ 0 ∧ k ≤ j
    · exact (if_pos hc).trans (ha j (by omega) hc.1).symm
    · exact if_neg hc

/-- `MALLOC` gives out no page that is locked. -/
theorem not_handsOut (h : s.Safe) {k : Nat} (hk : k < s.mem.pagecount) (hl : s.mem.locked k ≠ 0) :
    ¬ HandsOut s k := by
  rintro ⟨size, heap, ⟨ptr, m⟩, ho, hm, hp⟩
  rcases MemStruct.malloc_cases h.wf hm with ⟨i, -, -, -, hli, -, rfl, -⟩ | ⟨rfl, -⟩
  · exact hl (hp.inj (MemStruct.inPage_page h.wf i) ▸ hli)
  · rw [hp.not_outside h.wf hk] at ho; cases ho

/-- An aligned step unlocks a page only by a lock call for a pointer in it. -/
theorem locked_step (h : s.Safe) {c : PoolCall} (hc : LocksAligned s c) (hs : step s c = some s')
    {k : Nat} (hl : s.mem.locked k ≠ 0)
    (hn : ∀ ptr, c = .setlock ptr 0 → ¬ s.mem.InPage k ptr) : s'.mem.locked k ≠ 0 := by
  rcases h.step_mem hs with ⟨u, e⟩ | ⟨ptr, value, rfl, -, hm⟩
  · rw [e]; exact hl
  rcases MemStruct.memstructSetlock_locked hm k with e | ⟨hlt, e⟩ <;> rw [e]
  · exact hl
  rintro rfl
  -- the end of page `k` is past the pointer, which is not in the page: it lies below it
  have hu : s.mem.used k ≠ 0 := by omega
  have hend : s.mem.used k = s.mem.base + s.mem.pagesize * (k + 1) :=
    (h.wf.used_eq k).elim (fun h => absurd h hu) And.right
  have hnp := hn ptr rfl
  simp only [MemStruct.InPage] at hnp
  exact hl (hc k hu (by simp only [MemStruct.page]; omega))

/-- The same over a run. -/
theorem locked_run (h : s.Safe) {calls : List PoolCall} (hm : Meets step LocksAligned s calls)
    (hr : exec step s calls = some t) {k : Nat} (hk : k < s.mem.pagecount)
    (hl : s.mem.locked k ≠ 0) (hn : ∀ ptr, .setlock ptr 0 ∈ calls → ¬ s.mem.InPage k ptr) :
    ¬ HandsOut t k := by
  induction calls generalizing s with
  | nil => cases hr; exact not_handsOut h hk hl
  | cons c calls ih =>
    obtain ⟨u, hu, hr⟩ := exec_cons_eq_some.mp hr
    obtain ⟨h₁, h₂, h₃⟩ := h.step_over hu
    refine ih (h.step hu) (hm.2 u hu) hr (h₂ ▸ hk) ?_ fun ptr hp => ?_
    · exact locked_step h hm.1 hu hl fun ptr hc => hn ptr (hc ▸ List.mem_cons_self)
    · simpa only [MemStruct.InPage, h₁, h₃] using hn ptr (List.mem_cons_of_mem _ hp)

/-- **Locks are isolated where the calls are aligned.** In every reachable pool,
a lock call for a pointer in the page of a live block sets the lock of that
page and no other exactly when the loop stays in the tables and the pages in
use above carry the value already; and in a run of such calls a page that is
locked is not handed out until a call for a pointer in it unlocks it. -/
theorem setlock_isolated {base count size : Nat} (hs : 0 < size) (hs' : size < 2 ^ 31)
    (hc : count < 2 ^ 31) (hb : base + size * count < 2 ^ 32) {calls : List PoolCall}
    (hr : exec step (start base count size) calls = some s) {b : Block} (hbl : b ∈ s.live)
    {k ptr : Nat} (hk : k < count) (hkb : s.mem.InPage k b.ptr) (hp : s.mem.InPage k ptr)
    (value : UInt8) :
    (SetsOne s k ptr value ↔ count ≤ tableSize ∧ Aligned s ptr value) ∧
    ∀ rest t, value ≠ 0 → Meets step LocksAligned s (.setlock ptr value :: rest) →
      exec step s (.setlock ptr value :: rest) = some t →
      (∀ p, .setlock p 0 ∈ rest → ¬ s.mem.InPage k p) → ¬ HandsOut t k := by
  obtain ⟨h, ⟨rfl, rfl, rfl⟩⟩ := run_safe hs hs' hc hb hr
  have hu : s.mem.used k ≠ 0 := (h.used_iff k).mpr ⟨hk, b, hbl, hkb⟩
  refine ⟨setsOne_iff h hu hp value, fun rest t hv hm hr hn => ?_⟩
  obtain ⟨u, hst, hr⟩ := exec_cons_eq_some.mp hr
  obtain ⟨hct, rfl⟩ := (setlock_eq h hp hk).mp hst
  refine locked_run (h.step hst) (hm.2 _ hst) hr hk ?_ hn
  show ite _ _ _ ≠ _
  rwa [if_pos ⟨hu, Nat.le_refl k⟩]

/-- A block in each of two pages: locking and unlocking the first leaves the
second unlocked, which is given out while it was never unlocked itself. -/
theorem setlock_not_isolated :
    let s := exec step (start 4096 2 16) [.malloc 8 9000, .malloc 8 9000]
    ∃ h : s.isSome, (s.get h).live = [⟨4112, 8⟩, ⟨4096, 8⟩] ∧
      ¬ SetsOne (s.get h) 0 4096 1 ∧
      ∃ t, exec step (s.get h)
          [.setlock 4112 1, .setlock 4096 1, .setlock 4096 0, .free ⟨4112, 8⟩] = some t ∧
        HandsOut t 1 := by
  refine ⟨by decide, by decide, ?_, ?_⟩
  · rintro ⟨s', hs', -, hf⟩
    cases hs'
    exact absurd (hf 1 (by decide)) (by decide)
  · refine ⟨_, rfl, 8, 9000, _, by decide, rfl, by decide⟩

/-- The same two blocks, the second locked first: then the call for the first
is aligned, and its page is not given out when its block is freed. -/
theorem setlock_isolated_one :
    ∃ s, exec step (start 4096 2 16) [.malloc 8 9000, .malloc 8 9000, .setlock 4112 1] = some s ∧
      SetsOne s 0 4096 1 ∧
      ∃ t, exec step s [.setlock 4096 1, .free ⟨4096, 8⟩, .malloc 8 9000] = some t ∧
        t.live = [⟨9000, 8⟩, ⟨4112, 8⟩] ∧ ¬ HandsOut t 0 := by
  have key : ((exec step (start 4096 2 16)
      [.malloc 8 9000, .malloc 8 9000, .setlock 4112 1]).bind fun s =>
        (exec step s [.setlock 4096 1, .free ⟨4096, 8⟩, .malloc 8 9000]).map fun t =>
          (s.live, s.mem.locked 1, t.live)) =
      some ([⟨4112, 8⟩, ⟨4096, 8⟩], 1, [⟨9000, 8⟩, ⟨4112, 8⟩]) := by decide
  simp only [Option.bind_eq_some_iff, Option.map_eq_some_iff, Prod.mk.injEq] at key
  obtain ⟨s, hr, t, ht, hlive, hlock, hlive'⟩ := key
  obtain ⟨h, hbase, hcount, hsize⟩ :=
    run_safe (by decide) (by decide) (by decide) (by decide) hr
  have hp : s.mem.InPage 0 4096 := by simp [MemStruct.InPage, hbase, hsize]
  have ha : Aligned s 4096 1 := (aligned_iff hp).mpr fun j hj hu => by
    have := (h.wf.lt_of_used hu).1
    obtain rfl : j = 1 := by omega
    exact hlock
  have := setlock_isolated (by decide) (by decide) (by decide) (by decide) hr (b := ⟨4096, 8⟩)
    (by rw [hlive]; decide) (by decide) hp hp 1
  have hm : Meets step LocksAligned s [.setlock 4096 1, .free ⟨4096, 8⟩, .malloc 8 9000] :=
    ⟨ha, fun _ _ => ⟨trivial, fun _ _ => ⟨trivial, fun _ _ => trivial⟩⟩⟩
  exact ⟨s, hr, this.1.mpr ⟨by decide, ha⟩, t, ht, hlive', this.2 _ t (by decide) hm ht (by simp)⟩

end DShow.Pool.PoolState
