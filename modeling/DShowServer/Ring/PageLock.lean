import DShowServer.Ring.Session

/-!
# Page locks and the ring

`DS_Filter_CopySample` locks the page of the frame it notes and `FreeFrame`
unlocks it, so that a page should be locked exactly while a slot holds a frame
in it (`LocksMatch`). `KeepsLocks` is the exact condition on a step to keep
this: `memstruct_setlock` reaches the pages in use above its own, a frame
dropped from a full ring stays locked, two slots can share a page, and
`SeekInternal` clears the ring without unlocking anything.
-/

namespace DShow.Ring.Session

open Pool Run SampleProcUserData

variable {s s' : Session}

/-- A page is locked exactly if a slot that is not free holds a frame in it. -/
def LocksMatch (s : Session) : Prop :=
  ∀ k < s.pool.mem.pagecount, s.pool.mem.locked k ≠ 0 ↔
    ∃ i < pdMaxFrames, (s.ring.frame i).state ≠ .free ∧
      s.pool.mem.InPage k (s.ring.frame i).frame_pointer

instance : Decidable s.LocksMatch :=
  inferInstanceAs (Decidable (∀ k < s.pool.mem.pagecount, _ ↔ ∃ i < pdMaxFrames, _))

/-- A frame of the list lies in page `k`. -/
def InFrames (m : MemStruct) (k : Nat) (fs : List (FrameState × Picture)) : Prop :=
  ∃ f ∈ fs, m.InPage k f.2.pointer

/-- The sample of a delivery lies in a page in use. -/
def InSharedPage (s : Session) : Event → Prop
  | .deliver x => ∀ p, x.pointer = some p → ∃ k, s.pool.mem.used k ≠ 0 ∧ s.pool.mem.InPage k p
  | _ => True

/-- The condition on a step to keep the locks and the slots matched. A
delivery: the pages in use above its page are locked, and a frame it drops
leaves its page to another slot. `FreeFrame`, if it frees a slot: no page in
use above is locked, and no other slot holds a frame in its page while the page
is in use; a page no longer in use stays locked, so that there another slot has
to hold one. A seek: no slot is occupied. -/
def KeepsLocks (s : Session) : Event → Prop
  | .deliver x => ∀ p k, x.pointer = some p → s.pool.mem.InPage k p →
    (∀ j, k < j → s.pool.mem.used j ≠ 0 → s.pool.mem.locked j ≠ 0) ∧
    ∀ f ∈ s.ring.occupied.drop (pdMaxFrames - 1), ∀ j, s.pool.mem.InPage j f.2.pointer →
      j = k ∨ InFrames s.pool.mem j (s.ring.occupied.take (pdMaxFrames - 1))
  | .freeFrame => s.ring.last.state = .sent →
    ∀ k, s.pool.mem.InPage k s.ring.last.frame_pointer →
      (s.pool.mem.used k ≠ 0 ↔ ¬ InFrames s.pool.mem k s.ring.occupied.tail) ∧
      ∀ j, k < j → s.pool.mem.used j ≠ 0 → s.pool.mem.locked j = 0
  | .seek => s.ring.occupied = []
  | _ => True

theorem locksMatch_iff : s.LocksMatch ↔ ∀ k < s.pool.mem.pagecount,
    s.pool.mem.locked k ≠ 0 ↔ InFrames s.pool.mem k s.ring.occupied := by
  refine forall_congr' fun k => imp_congr_right fun _ => iff_congr Iff.rfl ?_
  simp only [InFrames, mem_occupied]
  constructor
  · rintro ⟨i, hi, hs, hp⟩; exact ⟨_, ⟨i, hi, rfl, hs⟩, hp⟩
  · rintro ⟨_, ⟨i, hi, rfl, hs⟩, hp⟩; exact ⟨i, hi, hs, hp⟩

/-- What holds in every run whose samples lie in shared pages. -/
structure Placed (s : Session) : Prop where
  inv : s.Inv
  pool : s.pool.Safe
  placed : ∀ f ∈ s.ring.occupied, ∃ k < s.pool.mem.pagecount, s.pool.mem.InPage k f.2.pointer

theorem fresh_placed {base count size : Nat} (hs : 0 < size) (hs' : size < 2 ^ 31)
    (hc : count < 2 ^ 31) (hb : base + size * count < 2 ^ 32) (input : Bool) :
    (fresh (.start base count size) input).Placed ∧
      (fresh (.start base count size) input).LocksMatch := by
  have hocc : (fresh (.start base count size) input).ring.occupied = [] := zero_wf.2
  refine ⟨⟨fresh_inv _ _, PoolState.start_safe hs hs' hc hb, fun f hf => ?_⟩,
    locksMatch_iff.mpr fun k _ => ⟨fun h => absurd rfl h, ?_⟩⟩
  · rw [hocc] at hf; cases hf
  · rintro ⟨f, hf, -⟩; rw [hocc] at hf; cases hf

theorem inFrames_append {m : MemStruct} {k : Nat} {fs gs : List (FrameState × Picture)} :
    InFrames m k (fs ++ gs) ↔ InFrames m k fs ∨ InFrames m k gs := by
  simp only [InFrames, List.mem_append, or_and_right, exists_or]

theorem inFrames_cons {m : MemStruct} {k : Nat} {f : FrameState × Picture}
    {fs : List (FrameState × Picture)} :
    InFrames m k (f :: fs) ↔ m.InPage k f.2.pointer ∨ InFrames m k fs := by
  simp only [InFrames, List.mem_cons, or_and_right, exists_or, exists_eq_left]

theorem inFrames_take_drop (m : MemStruct) (k n : Nat) (fs : List (FrameState × Picture)) :
    InFrames m k fs ↔ InFrames m k (fs.take n) ∨ InFrames m k (fs.drop n) := by
  rw [← inFrames_append, List.take_append_drop]

/-! ## The steps that write locks or slots -/

/-- A delivery into page `k`. -/
theorem deliver_locksMatch (h : s.Placed) (hm : s.LocksMatch) {x : MediaSample} {p k : Nat}
    (hx : x.pointer = some p) (hu : s.pool.mem.used k ≠ 0) (hp : s.pool.mem.InPage k p)
    {r : SampleProcUserData} {m : MemStruct} {pool : PoolState} {delivered : List Picture}
    (hlock : s.pool.mem.memstructSetlock p 1 = some m) (hmem : pool.mem = m)
    (ho : r.occupied = s.ring.occupied.take (pdMaxFrames - 1) ++ [(.set, x.picture p)]) :
    LocksMatch { s with ring := r, pool := pool, delivered := delivered } ↔
      s.KeepsLocks (.deliver x) := by
  have hw := h.pool.wf
  obtain ⟨-, rfl⟩ := (MemStruct.memstructSetlock_page hw hp (hw.lt_of_used hu).1).mp hlock
  have hpage : ∀ j, s.pool.mem.InPage j p ↔ j = k :=
    fun j => ⟨fun hj => hj.inj hp, fun hj => hj ▸ hp⟩
  have hnew : ∀ j, InFrames s.pool.mem j r.occupied ↔
      InFrames s.pool.mem j (s.ring.occupied.take (pdMaxFrames - 1)) ∨ j = k := by
    intro j
    rw [ho, inFrames_append]
    exact or_congr_right (by simp [InFrames, MediaSample.picture, hpage])
  have hold : ∀ j < s.pool.mem.pagecount, s.pool.mem.locked j ≠ 0 ↔
      InFrames s.pool.mem j (s.ring.occupied.take (pdMaxFrames - 1)) ∨
      InFrames s.pool.mem j (s.ring.occupied.drop (pdMaxFrames - 1)) := fun j hj => by
    rw [locksMatch_iff.mp hm j hj]; exact inFrames_take_drop _ _ _ _
  rw [locksMatch_iff, hmem]
  show (∀ j < s.pool.mem.pagecount, (ite (s.pool.mem.used j ≠ 0 ∧ k ≤ j) 1 (s.pool.mem.locked j) ≠ 0 ↔
    InFrames s.pool.mem j r.occupied)) ↔ _
  simp only [hnew]
  constructor
  · intro hall p' k' hx' hp'
    cases hx.symm.trans hx'
    obtain rfl := hp'.inj hp
    refine ⟨fun j hj huj => ?_, fun f hf j hfj => ?_⟩
    · have := (hall j (hw.lt_of_used huj).1).mp (by rw [if_pos ⟨huj, by omega⟩]; decide)
      exact (hold j (hw.lt_of_used huj).1).mpr (.inl (this.resolve_right (by omega)))
    · obtain ⟨j', hj', hfj'⟩ := h.placed f (List.mem_of_mem_drop hf)
      obtain rfl := hfj.inj hfj'
      have hlj := (hold j hj').mpr (.inr ⟨f, hf, hfj⟩)
      refine ((hall j hj').mp ?_).symm
      split
      · decide
      · exact hlj
  · intro hk j hj
    obtain ⟨habove, hdrop⟩ := hk p k hx hp
    have hdrop' : InFrames s.pool.mem j (s.ring.occupied.drop (pdMaxFrames - 1)) →
        InFrames s.pool.mem j (s.ring.occupied.take (pdMaxFrames - 1)) ∨ j = k :=
      fun ⟨f, hf, hfj⟩ => (hdrop f hf j hfj).symm
    split
    · rename_i hc
      refine ⟨fun _ => ?_, fun _ => by decide⟩
      rcases Nat.eq_or_lt_of_le hc.2 with rfl | hlt
      · exact .inr rfl
      · exact ((hold j hj).mp (habove j hlt hc.1)).elim .inl hdrop'
    · rename_i hc
      have hjk : j ≠ k := by rintro rfl; exact hc ⟨hu, Nat.le_refl _⟩
      rw [hold j hj]
      exact ⟨fun ho => ho.elim .inl hdrop', fun ho => .inl (ho.resolve_right hjk)⟩

/-- `FreeFrame` of a frame in page `k`. -/
theorem freeFrame_locksMatch (h : s.Placed) (hm : s.LocksMatch) (hs : s.ring.last.state = .sent)
    {r : SampleProcUserData} {m : MemStruct} {pool : PoolState} {ph : Phase}
    (hlock : s.pool.mem.memstructSetlock s.ring.last.frame_pointer 0 = some m) (hmem : pool.mem = m)
    (ho : s.ring.occupied = s.ring.last.core :: r.occupied) :
    LocksMatch { s with ring := r, pool := pool, phase := ph } ↔ s.KeepsLocks .freeFrame := by
  have hw := h.pool.wf
  obtain ⟨k, hk, hp⟩ := h.placed s.ring.last.core (by rw [ho]; exact List.mem_cons_self)
  change s.pool.mem.InPage k s.ring.last.frame_pointer at hp
  obtain ⟨-, rfl⟩ := (MemStruct.memstructSetlock_page hw hp hk).mp hlock
  have hold : ∀ j < s.pool.mem.pagecount, s.pool.mem.locked j ≠ 0 ↔
      j = k ∨ InFrames s.pool.mem j r.occupied := fun j hj => by
    rw [locksMatch_iff.mp hm j hj, ho, inFrames_cons]
    exact or_congr_left ⟨fun hj => hj.inj hp, fun hj => hj ▸ hp⟩
  have htail : s.ring.occupied.tail = r.occupied := by rw [ho]; rfl
  rw [locksMatch_iff, hmem]
  show (∀ j < s.pool.mem.pagecount, (ite (s.pool.mem.used j ≠ 0 ∧ k ≤ j) 0 (s.pool.mem.locked j) ≠ 0 ↔
    InFrames s.pool.mem j r.occupied)) ↔ _
  simp only [KeepsLocks, htail]
  constructor
  · intro hall _ k' hp'
    obtain rfl := hp'.inj hp
    refine ⟨?_, fun j hj huj => ?_⟩
    · have := hall k' hk
      by_cases hu : s.pool.mem.used k' = 0
      · rw [if_neg (by simp [hu]), hold k' hk] at this
        simpa [hu] using this
      · rw [if_pos ⟨hu, Nat.le_refl _⟩] at this
        simpa [hu] using this
    · have hjc := (hw.lt_of_used huj).1
      have := hall j hjc
      rw [if_pos ⟨huj, by omega⟩] at this
      by_contra hl
      exact absurd (this.mpr (((hold j hjc).mp hl).resolve_left (by omega))) (by simp)
  · intro hk' j hj
    obtain ⟨hpk, habove⟩ := hk' hs k hp
    split
    · rename_i hc
      refine ⟨fun h => absurd rfl h, fun hin => ?_⟩
      rcases Nat.eq_or_lt_of_le hc.2 with rfl | hlt
      · exact absurd hin (hpk.mp hc.1)
      · exact absurd (habove j hlt hc.1) ((hold j hj).mpr (.inr hin))
    · rename_i hc
      rw [hold j hj]
      refine ⟨fun ho => ho.elim (fun hjk => ?_) id, .inr⟩
      subst hjk
      by_contra hn
      exact hc ⟨hpk.mpr hn, Nat.le_refl _⟩

/-- A seek leaves the locks as they are. -/
theorem seek_locksMatch (h : s.Placed) (hm : s.LocksMatch) :
    LocksMatch (fresh s.pool s.input) ↔ s.ring.occupied = [] := by
  have hocc : (fresh s.pool s.input).ring.occupied = [] := zero_wf.2
  rw [locksMatch_iff, hocc]
  constructor
  · intro hall
    refine List.eq_nil_iff_forall_not_mem.mpr fun f hf => ?_
    obtain ⟨k, hk, hp⟩ := h.placed f hf
    obtain ⟨_, hmem, -⟩ := (hall k hk).mp ((locksMatch_iff.mp hm k hk).mpr ⟨f, hf, hp⟩)
    cases hmem
  · intro ho k hk
    rw [← ho]
    exact locksMatch_iff.mp hm k hk

/-! ## Runs -/

/-- Frames stay placed when pages keep their addresses. -/
theorem placed_of_over {m m' : MemStruct} (ho : PoolState.Over m.base m.pagecount m.pagesize m')
    {fs : List (FrameState × Picture)}
    (h : ∀ f ∈ fs, ∃ k < m.pagecount, m.InPage k f.2.pointer) :
    ∀ f ∈ fs, ∃ k < m'.pagecount, m'.InPage k f.2.pointer := by
  intro f hf
  obtain ⟨k, hk, hp⟩ := h f hf
  obtain ⟨h₁, h₂, h₃⟩ := ho
  exact ⟨k, h₂ ▸ hk, by simpa only [MemStruct.InPage, h₁, h₃] using hp⟩

theorem Placed.step (h : s.Placed) {e : Event} (hd : s.InSharedPage e)
    (hs : Session.step s e = some s') : s'.Placed := by
  obtain ⟨hpool, ho⟩ := step_safe h.inv h.pool hs
  refine ⟨h.inv.step hs, hpool, placed_of_over ho ?_⟩
  suffices hnew : ∀ q ∈ pointers s', ∃ k < s.pool.mem.pagecount, s.pool.mem.InPage k q from
    fun f hf => hnew _ (List.mem_map_of_mem hf)
  have hold : ∀ q ∈ pointers s, ∃ k < s.pool.mem.pagecount, s.pool.mem.InPage k q :=
    List.forall_mem_map.mpr h.placed
  intro q hq
  cases e with
  | deliver x =>
    rcases pointers_deliver h.inv hs with ⟨-, e⟩ | ⟨p, hx, e⟩
    · exact hold q (e ▸ hq)
    · rcases List.mem_append.mp (e ▸ hq) with hq | hq
      · exact hold q (List.mem_of_mem_take hq)
      · obtain ⟨k, hu, hp⟩ := hd p hx
        rw [List.mem_singleton.mp hq]
        exact ⟨k, (h.pool.wf.lt_of_used hu).1, hp⟩
  | _ =>
    rw [pointers_step h.inv (fun _ he => by cases he) hs] at hq
    exact hold q (remain_subset _ _ _ hq)

/-- A step keeps the locks and the slots matched exactly under its condition. -/
theorem locksMatch_step (h : s.Placed) (hm : s.LocksMatch) {e : Event} (hd : s.InSharedPage e)
    (hs : step s e = some s') : s'.LocksMatch ↔ s.KeepsLocks e := by
  cases h.inv.effect hs with
  | undelivered hx hw ho =>
    refine iff_of_true (locksMatch_iff.mpr fun k hk => ?_) fun p k hx' => by rw [hx] at hx'; cases hx'
    simp only [ho]
    exact locksMatch_iff.mp hm k hk
  | delivered hx hlock hw ho =>
    obtain ⟨k, hu, hp⟩ := hd _ hx
    exact deliver_locksMatch h hm hx hu hp hlock rfl ho
  | pool hc hp =>
    refine iff_of_true (fun k hk => ?_) trivial
    rcases h.pool.step_mem hp with ⟨u, e⟩ | ⟨_, _, rfl, -⟩
    · simp only [e] at hk ⊢
      exact hm k hk
    · exact absurd rfl (hc _ _)
  | freed hph hsent hlock hw ho => exact freeFrame_locksMatch h hm hsent hlock rfl ho
  | notSent hph hns => exact iff_of_true hm fun hsent => absurd hsent hns
  | answered hph hpage hw ho ho' =>
    refine iff_of_true (locksMatch_iff.mpr fun k hk => ?_) trivial
    have := locksMatch_iff.mp hm k hk
    rw [ho, inFrames_cons] at this
    rw [ho', inFrames_cons]
    exact this
  | seek => exact seek_locksMatch h hm
  | inputRelease | timed | noFrame | getPTS => exact iff_of_true hm trivial

/-- **When the locks match the ring.** In a run of commands and of deliveries
whose samples lie in shared pages, from a new pool and an empty ring, the
locks match the slots in every state, between any two commands in particular,
exactly if every step meets its condition. -/
theorem locks_match_iff {base count size : Nat} (hs : 0 < size) (hs' : size < 2 ^ 31)
    (hc : count < 2 ^ 31) (hb : base + size * count < 2 ^ 32) {input : Bool} {es : List Event}
    {t : Session} (hr : exec step (fresh (.start base count size) input) es = some t)
    (hd : Meets step InSharedPage (fresh (.start base count size) input) es) :
    Meets step KeepsLocks (fresh (.start base count size) input) es ↔
      ∀ fs gs u, es = fs ++ gs → exec step (fresh (.start base count size) input) fs = some u →
        u.LocksMatch := by
  obtain ⟨hp, hm⟩ := fresh_placed hs hs' hc hb input
  exact meets_iff (I := Placed) (M := LocksMatch) (D := InSharedPage)
    (fun _ _ _ h hd hs => h.step hd hs) (fun _ _ _ h hm hd hs => locksMatch_step h hm hd hs) hp hm hd hr

/-- A block in the first page, before the first command. -/
theorem step_oneBlock : step (fresh (.start 4096 2 16) true) (.pool (.malloc 8 9000)) =
    some (fresh .oneBlock true) := rfl

/-- A frame in the page answered, then a seek: the page stays locked. -/
theorem locks_not_match :
    let es := [.deliver ⟨none, some 4096, 8, 8, 1⟩, .freeFrame, .setPTS, .decode false, .getPTS, .seek]
    Meets step InSharedPage (fresh (.start 4096 2 16) true) (.pool (.malloc 8 9000) :: es) ∧
      ∃ t, exec step (fresh (.start 4096 2 16) true) (.pool (.malloc 8 9000) :: es) = some t ∧
        t.phase = .idle ∧ ¬ t.LocksMatch := by
  refine ⟨meets_cons.mpr ⟨trivial, fun u hu => ?_⟩, _, rfl, rfl, fun h => ?_⟩
  · obtain rfl := Option.some.inj (step_oneBlock.symm.trans hu)
    refine meets_cons.mpr ⟨fun p hp => ?_, fun _ _ => meets_cons.mpr ⟨trivial, fun _ _ =>
      meets_cons.mpr ⟨trivial, fun _ _ => meets_cons.mpr ⟨trivial, fun _ _ =>
        meets_cons.mpr ⟨trivial, fun _ _ => meets_cons.mpr ⟨trivial, fun _ _ => trivial⟩⟩⟩⟩⟩⟩
    cases hp
    exact ⟨0, by decide⟩
  · obtain ⟨i, -, hs, -⟩ := (h 0 (by decide)).mp (by decide)
    exact hs rfl

/-- A frame in each of two pages, the upper one delivered first: both are
answered and freed, and the locks follow. -/
theorem locks_match_iff_one :
    let es := [.pool (.malloc 8 9000), .pool (.malloc 8 9000), .deliver ⟨none, some 4112, 8, 8, 1⟩,
      .deliver ⟨none, some 4096, 8, 8, 2⟩, .freeFrame, .setPTS, .decode false, .getPTS, .freeFrame,
      .setPTS, .decode false, .getPTS, .freeFrame]
    ∃ t, exec step (fresh (.start 4096 2 16) true) es = some t ∧
      t.answers.map Answer.pointer = [4112, 4096] ∧ t.ring.occupied = [] ∧
      Meets step KeepsLocks (fresh (.start 4096 2 16) true) es := by
  intro es
  have key : (exec step (fresh (.start 4096 2 16) true) es).map (fun t =>
      (t.answers.map Answer.pointer, t.ring.occupied)) = some ([4112, 4096], []) := by decide +kernel
  obtain ⟨t, ht, ha⟩ := Option.map_eq_some_iff.mp key
  obtain ⟨hptr, hocc⟩ := Prod.mk.inj ha
  have hd : Meets step InSharedPage (fresh (.start 4096 2 16) true) es := by
    refine ⟨trivial, fun u hu => ⟨trivial, fun v hv => ⟨?_, fun w hw => ⟨?_, fun _ _ => ?_⟩⟩⟩⟩
    · cases hu; cases hv
      rintro p ⟨⟩
      exact ⟨1, by decide⟩
    · cases hu; cases hv; cases hw
      rintro p ⟨⟩
      exact ⟨0, by decide⟩
    · iterate 9 refine ⟨trivial, fun _ _ => ?_⟩
      trivial
  refine ⟨t, ht, hptr, hocc, (locks_match_iff (by decide) (by decide) (by decide) (by decide) ht
    hd).mpr (forall_of_take ?_)⟩
  decide +kernel

end DShow.Ring.Session
