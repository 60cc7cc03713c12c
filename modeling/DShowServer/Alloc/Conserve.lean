import DShowServer.Alloc.Model
import DShowServer.Framework.Run

/-!
# Conservation of samples

`GetBuffer` lends a sample and `ReleaseBuffer` takes it back. With one sample
the two lists never hold more than one node and nothing is lost. With more, the
second sample that `Commit` adds is out of reach of the free list, so that
`GetBuffer` fails while there should be samples left: the allocator conserves
its samples exactly if there is one (`conserved_iff`).
-/

namespace DShow.Alloc

open Pool Run

/-- An allocator and the samples that are lent. -/
structure Lending where
  alloc : AllocState
  outstanding : List Nat

inductive LendEvent
  | getBuffer
  | releaseBuffer (p : Nat)

namespace Lending

/-- One call; only a sample that is lent is released. -/
def step (s : Lending) : LendEvent → Option Lending
  | .getBuffer => (getBuffer s.alloc).map fun (p, a) => ⟨a, p.toList ++ s.outstanding⟩
  | .releaseBuffer p =>
    if p ∈ s.outstanding then
      (releaseBuffer s.alloc p).map fun (_, a) => ⟨a, s.outstanding.erase p⟩
    else none

/-- `GetBuffer` succeeds exactly when fewer than `n` samples are lent, it lends
none twice, `ReleaseBuffer` takes back what is lent, and the free samples and
those lent are the `n` samples created. -/
structure Conserved (n : Nat) (created : List Nat) (s : Lending) : Prop where
  succeeds : (∃ p a, getBuffer s.alloc = some (some p, a)) ↔ s.outstanding.length < n
  not_lent : ∀ p a, getBuffer s.alloc = some (some p, a) → p ∉ s.outstanding
  taken_back : ∀ p ∈ s.outstanding, ∃ a, releaseBuffer s.alloc p = some (.ok, a)
  same : ∃ free, avmListMembers s.alloc.nodes s.alloc.me.free_list = some free ∧
    (free ++ s.outstanding).Perm created
  distinct : created.Nodup
  count : created.length = n

/-- One sample, in the free list or lent. -/
structure OneSample (p : Nat) (s : Lending) : Prop where
  exists_sample : ∃ c, s.alloc.samples.read p = some c
  place : (At s.alloc (.free p) ∧ s.outstanding = []) ∨ (At s.alloc (.used p) ∧ s.outstanding = [p])

variable {s s' : Lending} {p : Nat}

theorem OneSample.step (h : OneSample p s) {e : LendEvent} (hs : Lending.step s e = some s') :
    OneSample p s' := by
  obtain ⟨⟨c, hc⟩, hpl⟩ := h
  cases e with
  | getBuffer =>
    simp only [Lending.step, Option.map_eq_some_iff] at hs
    obtain ⟨⟨q, a⟩, hg, rfl⟩ := hs
    rcases hpl with ⟨hat, ho⟩ | ⟨hat, ho⟩
    · obtain ⟨a', e, hat', -, hr, -⟩ := getBuffer_free hat hc
      cases e.symm.trans hg
      exact ⟨⟨_, by rw [hr, if_pos rfl]⟩, .inr ⟨hat', by rw [ho]; rfl⟩⟩
    · cases (getBuffer_fail hat (fun _ h => by cases h)).symm.trans hg
      exact ⟨⟨c, hc⟩, .inr ⟨hat, ho⟩⟩
  | releaseBuffer q =>
    simp only [Lending.step] at hs
    split at hs <;> [rename_i hq; cases hs]
    simp only [Option.map_eq_some_iff] at hs
    obtain ⟨⟨hr, a⟩, hrel, rfl⟩ := hs
    rcases hpl with ⟨hat, ho⟩ | ⟨hat, ho⟩
    · rw [ho] at hq; cases hq
    · rw [ho, List.mem_singleton] at hq
      subst hq
      obtain ⟨a', e, hat', hsm, -⟩ := releaseBuffer_used hat (Store.ne_zero_of_read hc)
      cases e.symm.trans hrel
      exact ⟨⟨c, by rw [hsm]; exact hc⟩, .inl ⟨hat', by rw [ho]; exact List.erase_cons_head ..⟩⟩

theorem OneSample.conserved (h : OneSample p s) : Conserved 1 [p] s := by
  obtain ⟨⟨c, hc⟩, hpl⟩ := h
  rcases hpl with ⟨hat, ho⟩ | ⟨hat, ho⟩
  · obtain ⟨a, e, -⟩ := getBuffer_free hat hc
    refine ⟨⟨fun _ => by rw [ho]; decide, fun _ => ⟨p, a, e⟩⟩, fun _ _ _ => ?_, fun q hq => ?_,
      ⟨[p], members_one hat.lists.1, by rw [ho]; exact .refl _⟩, by simp, rfl⟩
    · rw [ho]; exact List.not_mem_nil
    · rw [ho] at hq; cases hq
  · have e := getBuffer_fail hat fun _ h => by cases h
    obtain ⟨a, er, -⟩ := releaseBuffer_used hat (Store.ne_zero_of_read hc)
    refine ⟨⟨fun ⟨_, _, h⟩ => ?_, fun h => ?_⟩, fun _ _ h => ?_, fun q hq => ?_,
      ⟨[], if_pos hat.lists.1, by rw [ho]; exact .refl _⟩, by simp, rfl⟩
    · rw [e] at h; cases h
    · rw [ho] at h; exact absurd h (Nat.lt_irrefl 1)
    · rw [e] at h; cases h
    · rw [ho, List.mem_singleton] at hq
      exact ⟨a, hq ▸ er⟩

/-- The samples a `Commit` created in a heap. -/
def created (before after : Store CMediaSample) : List Nat :=
  List.range' before.top (after.top - before.top)

/-- **Conservation of samples.** After `SetProperties` accepted `n` buffers and
`Commit` succeeded, the samples are conserved in every run of `GetBuffer` and
`ReleaseBuffer` exactly if `n` is 1. -/
theorem conserved_iff {n : Nat} {cbBuffer : Int} {me : MemAllocator} {nodes : Store AvmList}
    {samples : Store CMediaSample} {m m' : MemStruct} {heap : List Nat} {a : AllocState}
    (hp : setProperties memAllocatorCreate (some (n, cbBuffer)) = (.ok, me))
    (hc : commit ⟨nodes, samples, me⟩ m heap = some (.ok, a, m')) :
    (∀ es s, exec step ⟨a, []⟩ es = some s → Conserved n (created samples a.samples) s) ↔ n = 1 := by
  simp only [setProperties] at hp
  split at hp <;> [cases hp; rename_i hpos]
  obtain rfl : _ = me := congrArg Prod.snd hp
  have hn : n ≠ 0 := by omega
  rcases commit_cases (show At _ .empty from ⟨⟨rfl, rfl⟩, rfl, rfl⟩) hc with
    ⟨-, h, -⟩ | ⟨-, k, -, hat, hg, -, hk⟩
  · exact absurd rfl h
  obtain rfl : k = n := hk rfl
  rw [if_neg hn] at hat
  change Grown samples a.samples k at hg
  obtain ⟨c, hrd, -⟩ := hg.new samples.top (Nat.le_refl _) (by omega)
  constructor
  · intro hall
    by_contra hne
    obtain ⟨a', e, hat', -⟩ := getBuffer_free hat hrd
    have hrun : exec step ⟨a, []⟩ [.getBuffer] = some ⟨a', [samples.top]⟩ := by
      rw [exec_cons, step, e]; rfl
    obtain ⟨q, b, hq⟩ := (hall _ _ hrun).succeeds.mpr (by simp only [List.length_singleton]; omega)
    rw [getBuffer_fail hat' fun _ h => by cases h] at hq
    cases hq
  · rintro rfl es s hr
    have hcr : created samples a.samples = [samples.top] := by
      rw [created, hg.top_eq, Nat.add_sub_cancel_left]; rfl
    rw [hcr]
    refine OneSample.conserved (exec_inv' (I := OneSample samples.top) ?_
      ⟨⟨c, hrd⟩, .inl ⟨hat, rfl⟩⟩ hr)
    exact fun _ _ _ h hs => h.step hs

/-- With two buffers the second is out of reach. -/
theorem not_conserved_two :
    ∃ me a m' s, setProperties memAllocatorCreate (some (2, 100)) = (.ok, me) ∧
      commit ⟨.empty, .empty, me⟩ (setMemstruct 0 0 0) [5000, 8000] = some (.ok, a, m') ∧
      exec step ⟨a, []⟩ [.getBuffer] = some s ∧ s.outstanding.length = 1 ∧
      ¬ Conserved 2 (created .empty a.samples) s := by
  refine ⟨_, _, _, _, rfl, rfl, rfl, rfl, fun h => ?_⟩
  obtain ⟨p, a, hg⟩ := h.succeeds.mpr (by decide)
  cases hg

/-- With one buffer it is conserved. -/
theorem conserved_iff_one :
    let me := (setProperties memAllocatorCreate (some ((1 : Nat), 100))).2
    ∃ a m', commit ⟨.empty, .empty, me⟩ (setMemstruct 0 0 0) [5000] = some (.ok, a, m') ∧
      ∀ es s, exec step ⟨a, []⟩ es = some s → Conserved 1 (created .empty a.samples) s := by
  intro me
  obtain ⟨a, m', hc⟩ : ∃ a m',
    commit ⟨.empty, .empty, me⟩ (setMemstruct 0 0 0) [5000] = some (.ok, a, m') := ⟨_, _, rfl⟩
  have hp : setProperties memAllocatorCreate (some ((1 : Nat), 100)) = (.ok, me) := rfl
  exact ⟨a, m', hc, (conserved_iff hp hc).mpr rfl⟩

end Lending

end DShow.Alloc
