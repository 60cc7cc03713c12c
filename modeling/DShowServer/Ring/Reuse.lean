import DShowServer.Alloc.Lifetime
import DShowServer.Ring.Session

/-!
# Reuse of a delivered buffer

`DS_Filter_CopySample` keeps the pointer of a sample but no reference to it, so
that the codec may give the sample back and be lent it again while a slot of
the ring still needs its bytes. As the allocator has only one sample within
reach, every slot holds its buffer (`Inv.place`), and `GetBuffer` hands out a
buffer that is needed exactly if it hands one out while a slot is occupied
(`needed_iff`). Where it does not, the bytes of a frame stay what they were at
its delivery.

`noted` keeps, for each occupied slot, the bytes of its frame at the delivery,
and `filling` the samples that were lent and not delivered since, whose buffers
the codec may write.
-/

namespace DShow.Ring

open Pool Run Alloc SampleProcUserData

/-- A codec at work: the server's side, the allocator of its output, and the
contents of the buffers by address. -/
structure Codec where
  session : Session
  alloc : AllocState
  bytes : Nat → List UInt8
  filling : List Nat
  noted : List (List UInt8)

inductive CodecEvent
  | getBuffer
  | addRef (p : Nat)
  | release (p : Nat)
  | fill (p : Nat) (data : List UInt8)
  | deliver (p : Nat) (x : MediaSample)
  | server (e : Event)

namespace Codec

def start (alloc : AllocState) (pool : PoolState) (input : Bool) (bytes : Nat → List UInt8) : Codec :=
  ⟨.fresh pool input, alloc, bytes, [], []⟩

/-- One step: a call of the codec on the allocator or a sample, the codec
writing a buffer it was lent, a delivery of a sample that it holds, or anything
else of the server's session. -/
def step (s : Codec) : CodecEvent → Option Codec
  | .getBuffer =>
    (getBuffer s.alloc).map fun (p, a) => { s with alloc := a, filling := p.toList ++ s.filling }
  | .addRef p =>
    if IsHeld s.alloc p then (sampleAddRef s.alloc p).map fun a => { s with alloc := a } else none
  | .release p =>
    if IsHeld s.alloc p then
      (sampleRelease s.alloc p).map fun a =>
        { s with alloc := a, filling := s.filling.filter fun q => IsHeld a q }
    else none
  | .fill p data =>
    if p ∈ s.filling then
      (s.alloc.samples.read p).map fun c => { s with bytes := Function.update s.bytes c.block data }
    else none
  | .deliver p x =>
    if IsHeld s.alloc p then
      (s.alloc.samples.read p).bind fun c =>
        if x.pointer = some c.block then
          (s.session.step (.deliver x)).map fun t =>
            { s with
              session := t
              filling := s.filling.filter fun q => q ≠ p
              noted := s.noted.take (pdMaxFrames - 1) ++ [s.bytes c.block] }
        else none
    else none
  | .server e =>
    match e with
    | .deliver _ => none
    | e => (s.session.step e).map fun t => { s with session := t, noted := remain s.session e s.noted }

/-- `GetBuffer` hands out a sample whose buffer a slot set or sent still holds. -/
def HandsOutNeeded (s : Codec) : Prop :=
  ∃ p a c, getBuffer s.alloc = some (some p, a) ∧ s.alloc.samples.read p = some c ∧
    ∃ i < pdMaxFrames, (s.session.ring.frame i).state ≠ .free ∧
      (s.session.ring.frame i).frame_pointer = c.block

/-- No call of `GetBuffer` does. -/
def LendsFree (s : Codec) : CodecEvent → Prop
  | .getBuffer => ¬ s.HandsOutNeeded
  | _ => True

/-- A buffer is asked for only while no slot is occupied, or while the free
list is empty. -/
def LendsIdle (s : Codec) : CodecEvent → Prop
  | .getBuffer => s.alloc.me.free_list = 0 ∨ s.session.ring.occupied = []
  | _ => True

instance (s : Codec) : ∀ e, Decidable (LendsIdle s e)
  | .getBuffer => inferInstanceAs (Decidable (_ ∨ _))
  | .addRef _ | .release _ | .fill _ _ | .deliver _ _ | .server _ => instDecidableTrue

/-- The invariant of a codec at work. -/
structure Inv (s : Codec) : Prop where
  session : s.session.Inv
  place : ∃ pl, At s.alloc pl ∧ Held s.alloc pl ∧
    ∀ q ∈ pointers s.session, ∃ p ∈ pl.toList, ∃ c, s.alloc.samples.read p = some c ∧ q = c.block
  filling : ∀ p ∈ s.filling, IsHeld s.alloc p

/-- The bytes of the frames in the ring are those of their delivery, and no
buffer is written while there are frames. -/
structure Kept (s : Codec) : Prop where
  bytes_eq : s.noted = (pointers s.session).map s.bytes
  idle : s.filling ≠ [] → pointers s.session = []

variable {s s' : Codec}

/-- A buffer that is needed is handed out exactly if one is handed out while
slots are occupied. -/
theorem needed_iff (h : s.Inv) :
    s.HandsOutNeeded ↔ s.alloc.me.free_list ≠ 0 ∧ s.session.ring.occupied ≠ [] := by
  obtain ⟨pl, hat, hh, hq⟩ := h.place
  constructor
  · rintro ⟨p, a, c, hg, hc, i, hi, hst, hp⟩
    refine ⟨fun h0 => ?_, fun hocc => ?_⟩
    · rw [getBuffer, if_pos h0] at hg
      cases hg
    · have := mem_occupied.mpr ⟨i, hi, rfl, hst⟩
      rw [hocc] at this
      cases this
  · rintro ⟨h0, hocc⟩
    obtain ⟨f, rest, ho⟩ := List.exists_cons_of_ne_nil hocc
    have hf : f ∈ s.session.ring.occupied := by rw [ho]; exact List.mem_cons_self
    obtain ⟨p, hp, c, hc, hb⟩ := hq f.2.pointer (List.mem_map_of_mem hf)
    obtain ⟨i, hi, hcore, hst⟩ := mem_occupied.mp hf
    cases pl with
    | empty => cases hp
    | used q => exact absurd hat.lists.1 h0
    | free q =>
      obtain rfl := List.mem_singleton.mp hp
      obtain ⟨a, e, -⟩ := getBuffer_free hat hc
      subst hcore
      exact ⟨p, a, c, e, hc, i, hi, hst, hb⟩

theorem lendsFree_iff (h : s.Inv) (e : CodecEvent) : s.LendsFree e ↔ s.LendsIdle e := by
  cases e with
  | getBuffer =>
    simp only [LendsFree, LendsIdle, needed_iff h]
    tauto
  | _ => exact Iff.rfl

/-- A write to the one sample within reach that keeps its block. -/
theorem pointers_writes {a a' : AllocState} {pl pl' : Place} {p : Nat} {c c' : CMediaSample}
    {ps : List Nat} (hp : pl.toList = [p]) (hp' : pl'.toList = [p]) (hw : Writes a a' p c c')
    (hb : c'.block = c.block)
    (h : ∀ q ∈ ps, ∃ p ∈ pl.toList, ∃ c, a.samples.read p = some c ∧ q = c.block) :
    ∀ q ∈ ps, ∃ p ∈ pl'.toList, ∃ c, a'.samples.read p = some c ∧ q = c.block := by
  intro q hq
  obtain ⟨p', hp₁, d, hd, rfl⟩ := h q hq
  rw [hp, List.mem_singleton] at hp₁
  subst hp₁
  cases hw.was.symm.trans hd
  exact ⟨p', by rw [hp']; exact List.mem_cons_self, c', by rw [hw.read_eq, if_pos rfl], hb.symm⟩

/-- What a step does, and when it can be made. -/
def Stepped (s s' : Codec) : CodecEvent → Prop
  | .getBuffer => ∃ p a, getBuffer s.alloc = some (p, a) ∧
      s' = { s with alloc := a, filling := p.toList ++ s.filling }
  | .addRef p => IsHeld s.alloc p ∧ ∃ a, sampleAddRef s.alloc p = some a ∧ s' = { s with alloc := a }
  | .release p => IsHeld s.alloc p ∧ ∃ a, sampleRelease s.alloc p = some a ∧
      s' = { s with alloc := a, filling := s.filling.filter fun q => IsHeld a q }
  | .fill p data => p ∈ s.filling ∧ ∃ c, s.alloc.samples.read p = some c ∧
      s' = { s with bytes := Function.update s.bytes c.block data }
  | .deliver p x => IsHeld s.alloc p ∧ ∃ c, s.alloc.samples.read p = some c ∧ x.pointer = some c.block ∧
      ∃ t, s.session.step (.deliver x) = some t ∧ s' = { s with
        session := t
        filling := s.filling.filter fun q => q ≠ p
        noted := s.noted.take (pdMaxFrames - 1) ++ [s.bytes c.block] }
  | .server e => (∀ x, e ≠ .deliver x) ∧ ∃ t, s.session.step e = some t ∧
      s' = { s with session := t, noted := remain s.session e s.noted }

theorem step_cases {e : CodecEvent} (hs : Codec.step s e = some s') : s.Stepped s' e := by
  cases e with
  | getBuffer =>
    simp only [Codec.step, Option.map_eq_some_iff] at hs
    obtain ⟨⟨p, a⟩, hg, rfl⟩ := hs
    exact ⟨p, a, hg, rfl⟩
  | addRef p =>
    simp only [Codec.step] at hs
    split at hs <;> [rename_i hp; cases hs]
    obtain ⟨a, ha, rfl⟩ := Option.map_eq_some_iff.mp hs
    exact ⟨hp, a, ha, rfl⟩
  | release p =>
    simp only [Codec.step] at hs
    split at hs <;> [rename_i hp; cases hs]
    obtain ⟨a, ha, rfl⟩ := Option.map_eq_some_iff.mp hs
    exact ⟨hp, a, ha, rfl⟩
  | fill p data =>
    simp only [Codec.step] at hs
    split at hs <;> [rename_i hp; cases hs]
    obtain ⟨c, hc, rfl⟩ := Option.map_eq_some_iff.mp hs
    exact ⟨hp, c, hc, rfl⟩
  | deliver p x =>
    simp only [Codec.step] at hs
    split at hs <;> [rename_i hp; cases hs]
    obtain ⟨c, hc, hs⟩ := Option.bind_eq_some_iff.mp hs
    split at hs <;> [rename_i hx; cases hs]
    obtain ⟨t, ht, rfl⟩ := Option.map_eq_some_iff.mp hs
    exact ⟨hp, c, hc, hx, t, ht, rfl⟩
  | server e =>
    cases e with
    | deliver => cases hs
    | _ =>
      simp only [Codec.step, Option.map_eq_some_iff] at hs
      obtain ⟨t, ht, rfl⟩ := hs
      exact ⟨fun _ h => (by cases h), t, ht, rfl⟩

/-- Every step keeps the invariant. -/
theorem Inv.step (h : s.Inv) {e : CodecEvent} (hs : Codec.step s e = some s') : s'.Inv := by
  obtain ⟨hses, ⟨pl, hat, hh, hq⟩, hf⟩ := h
  have hs := step_cases hs
  cases e with
  | getBuffer =>
    obtain ⟨r, a, hg, rfl⟩ := hs
    rcases getBuffer_cases hat hh hg with ⟨p, c, rfl, rfl, hw, hat', hh'⟩ | ⟨-, rfl, rfl⟩
    · refine ⟨hses, ⟨.used p, hat', hh', pointers_writes rfl rfl hw rfl hq⟩, fun q hq => ?_⟩
      rcases List.mem_cons.mp hq with rfl | hq
      · refine ⟨_, by rw [hw.read_eq, if_pos rfl], ?_⟩
        have : c.refcount = 0 := by simpa using hh.counts q c hw.was
        show 0 < c.refcount + 1
        omega
      · exact absurd (hh.used (hf q hq)) nofun
    · exact ⟨hses, ⟨pl, hat, hh, hq⟩, hf⟩
  | addRef p =>
    obtain ⟨hp, a, ha, rfl⟩ := hs
    obtain ⟨c, rfl, hw, hat', hh'⟩ := sampleAddRef_cases hat hh hp ha
    refine ⟨hses, ⟨.used p, hat', hh', pointers_writes rfl rfl hw rfl hq⟩, fun q hq => ?_⟩
    obtain ⟨rfl⟩ : Place.used p = .used q := hh.used (hf q hq)
    refine ⟨_, by rw [hw.read_eq, if_pos rfl], ?_⟩
    have : 0 < c.refcount := by simpa using hh.counts p c hw.was
    show 0 < c.refcount + 1
    omega
  | release p =>
    obtain ⟨hp, a, ha, rfl⟩ := hs
    obtain ⟨c, rfl, hw, hat', hh'⟩ := sampleRelease_cases hat hh hp ha
    refine ⟨hses, ⟨_, hat', hh', pointers_writes rfl (by split <;> rfl) hw rfl hq⟩, fun q hq => ?_⟩
    exact of_decide_eq_true (List.mem_filter.mp hq).2
  | fill p data =>
    obtain ⟨-, c, -, rfl⟩ := hs
    exact ⟨hses, ⟨pl, hat, hh, hq⟩, hf⟩
  | deliver p x =>
    obtain ⟨hp, c, hc, hx, t, ht, rfl⟩ := hs
    refine ⟨hses.step ht, ⟨pl, hat, hh, fun q hq' => ?_⟩, fun q hq => hf q (List.mem_of_mem_filter hq)⟩
    rw [pointers_deliver_some hses hx ht] at hq'
    rcases List.mem_append.mp hq' with hq' | hq'
    · exact hq q (List.mem_of_mem_take hq')
    · obtain rfl := hh.used hp
      exact ⟨p, List.mem_cons_self, c, hc, List.mem_singleton.mp hq'⟩
  | server e =>
    obtain ⟨he, t, ht, rfl⟩ := hs
    refine ⟨hses.step ht, ⟨pl, hat, hh, fun q hq' => ?_⟩, hf⟩
    rw [pointers_step hses he ht] at hq'
    exact hq q (remain_subset _ _ _ hq')

/-- A step that lends no buffer while slots are occupied keeps the bytes. -/
theorem Kept.step (hk : s.Kept) (h : s.Inv) {e : CodecEvent} (hc : s.LendsIdle e)
    (hs : Codec.step s e = some s') : s'.Kept := by
  obtain ⟨hb, hidle⟩ := hk
  obtain ⟨hses, ⟨pl, hat, hh, hq⟩, hf⟩ := h
  have hs := step_cases hs
  cases e with
  | getBuffer =>
    obtain ⟨r, a, hg, rfl⟩ := hs
    rcases getBuffer_cases hat hh hg with ⟨p, c, rfl, rfl, -⟩ | ⟨-, rfl, rfl⟩
    · refine ⟨hb, fun _ => ?_⟩
      rcases hc with h0 | hocc
      · exact absurd h0 hat.lists.1.ne_zero
      · simp only [pointers, hocc, List.map_nil]
    · exact ⟨hb, hidle⟩
  | addRef p =>
    obtain ⟨-, a, -, rfl⟩ := hs
    exact ⟨hb, hidle⟩
  | release p =>
    obtain ⟨-, a, -, rfl⟩ := hs
    exact ⟨hb, fun hne => hidle fun he => hne (by rw [he]; rfl)⟩
  | fill p data =>
    obtain ⟨hp, c, -, rfl⟩ := hs
    have hnil := hidle (List.ne_nil_of_mem hp)
    rw [hnil] at hb
    refine ⟨?_, fun _ => hnil⟩
    show s.noted = List.map _ (pointers s.session)
    rw [hb, hnil]
    rfl
  | deliver p x =>
    obtain ⟨hp, c, -, hx, t, ht, rfl⟩ := hs
    refine ⟨?_, fun hne => absurd ?_ hne⟩
    · show _ = List.map s.bytes (pointers t)
      rw [pointers_deliver_some hses hx ht, hb, List.map_append, List.map_take]
      rfl
    · -- only the sample that is delivered can have been lent
      refine List.filter_eq_nil_iff.mpr fun q hq => ?_
      cases (hh.used hp).symm.trans (hh.used (hf q hq))
      simp
  | server e =>
    obtain ⟨he, t, ht, rfl⟩ := hs
    have hp := pointers_step hses he ht
    refine ⟨?_, fun hne => ?_⟩
    · show remain s.session e s.noted = List.map s.bytes (pointers t)
      rw [hp, hb, remain_map]
    · show pointers t = []
      rw [hp]
      exact List.eq_nil_of_subset_nil (hidle hne ▸ remain_subset s.session e (pointers s.session))

/-! ## Runs -/

theorem start_inv {life : Life} (hl : life.Inv) (pool : PoolState) (input : Bool)
    (bytes : Nat → List UInt8) : (start life.alloc pool input bytes).Inv := by
  obtain ⟨pl, hat, hh⟩ := hl.place
  refine ⟨Session.fresh_inv pool input, ⟨pl, hat, hh, fun q hq => ?_⟩,
    fun _ h => absurd h List.not_mem_nil⟩
  change q ∈ pointers (.fresh pool input) at hq
  rw [pointers_fresh] at hq
  cases hq

theorem start_kept (alloc : AllocState) (pool : PoolState) (input : Bool) (bytes : Nat → List UInt8) :
    (start alloc pool input bytes).Kept := by
  refine ⟨?_, fun h => absurd rfl h⟩
  show [] = List.map bytes (pointers (.fresh pool input))
  rw [pointers_fresh]
  rfl

/-- **When a delivered frame is not overwritten.** Of an allocator in any state
it can reach, and any run of the codec and the server from an empty ring:
`GetBuffer` never hands out a buffer that a slot still needs exactly if it is
called only while no slot is occupied or the free list is empty; and then the
bytes of the frames in the ring are those of their delivery. -/
theorem lends_free_iff {m : MemStruct} {hist : List LifeEvent} {life : Life}
    (hl : exec Life.step (Life.start m) hist = some life) {pool : PoolState} {input : Bool}
    {bytes : Nat → List UInt8} {es : List CodecEvent} {t : Codec}
    (hr : exec step (start life.alloc pool input bytes) es = some t) :
    (Meets step LendsFree (start life.alloc pool input bytes) es ↔
      Meets step LendsIdle (start life.alloc pool input bytes) es) ∧
    (Meets step LendsIdle (start life.alloc pool input bytes) es →
      t.noted = t.session.ring.occupied.map fun f => t.bytes f.2.pointer) := by
  have hli : life.Inv := exec_inv' (fun _ _ _ h hs => (Life.Inv.step h hs).1) (Life.start_inv m) hl
  have hi := start_inv hli pool input bytes
  refine ⟨meets_congr (fun _ _ _ h hs => h.step hs) (fun _ e h => lendsFree_iff h e) hi, fun hm => ?_⟩
  have := exec_inv (I := fun s => s.Inv ∧ s.Kept)
    (fun _ _ _ h hc hs => ⟨h.1.step hs, h.2.step h.1 hc hs⟩) ⟨hi, start_kept ..⟩ hm hr
  rw [this.2.bytes_eq, pointers, List.map_map]
  rfl

/-- Two frames delivered for one packet: the second is written over the first,
which no one has asked for yet. -/
theorem lends_needed :
    ∃ life, exec Life.step (Life.start (setMemstruct 0 0 0)) [.commit [5000]] = some life ∧
      ∃ t, exec step (start life.alloc (.start 0 0 0) true fun _ => [])
          [.getBuffer, .fill 1 [1], .deliver 1 ⟨none, some 5000, 1, 1, 0⟩, .release 1] = some t ∧
        t.HandsOutNeeded ∧
        ∃ u, exec step t [.getBuffer, .fill 1 [2]] = some u ∧ u.noted = [[1]] ∧
          (u.session.ring.occupied.map fun f => u.bytes f.2.pointer) = [[2]] := by
  have key : ((exec Life.step (Life.start (setMemstruct 0 0 0)) [.commit [5000]]).bind fun life =>
      (exec step (start life.alloc (.start 0 0 0) true fun _ => [])
        [.getBuffer, .fill 1 [1], .deliver 1 ⟨none, some 5000, 1, 1, 0⟩, .release 1]).bind fun t =>
      (exec step t [.getBuffer, .fill 1 [2]]).map fun u =>
        (t.alloc.me.free_list, t.session.ring.occupied.length, u.noted,
          u.session.ring.occupied.map fun f => u.bytes f.2.pointer)) =
      some (3, 1, [[1]], [[2]]) := by decide +kernel
  simp only [Option.bind_eq_some_iff, Option.map_eq_some_iff, Prod.mk.injEq] at key
  obtain ⟨life, hl, t, ht, u, hu, hfree, hocc, hnoted, hbytes⟩ := key
  have hi : t.Inv := exec_inv' (fun _ _ _ h hs => h.step hs)
    (start_inv (exec_inv' (fun _ _ _ h hs => (Life.Inv.step h hs).1) (Life.start_inv _) hl) ..) ht
  refine ⟨life, hl, t, ht, (needed_iff hi).mpr ⟨by rw [hfree]; decide, fun h => ?_⟩,
    u, hu, hnoted, hbytes⟩
  rw [h] at hocc
  cases hocc

/-- A frame delivered, asked for and freed by the next command, and only then
its buffer lent again for another. -/
theorem lends_free_iff_one :
    let es := [.getBuffer, .fill 1 [1], .deliver 1 ⟨none, some 5000, 1, 1, 0⟩, .release 1,
      .server .freeFrame, .server .setPTS, .server (.decode false), .server .getPTS,
      .server .freeFrame, .getBuffer, .fill 1 [2], .deliver 1 ⟨none, some 5000, 1, 1, 7⟩, .release 1]
    ∃ life, exec Life.step (Life.start (setMemstruct 0 0 0)) [.commit [5000]] = some life ∧
      ∃ t, exec step (start life.alloc (.start 4096 2 16) true fun _ => []) es = some t ∧
        Meets step LendsFree (start life.alloc (.start 4096 2 16) true fun _ => []) es ∧
        t.session.answers.map Answer.pointer = [5000] ∧
        (t.session.ring.occupied.map fun f => t.bytes f.2.pointer) = [[2]] := by
  intro es
  have key : ((exec Life.step (Life.start (setMemstruct 0 0 0)) [.commit [5000]]).bind fun life =>
      (exec step (start life.alloc (.start 4096 2 16) true fun _ => []) es).map fun t =>
        (decide (Meets step LendsIdle (start life.alloc (.start 4096 2 16) true fun _ => []) es),
          t.session.answers.map Answer.pointer, t.noted)) = some (true, [5000], [[2]]) := by
    decide +kernel
  simp only [Option.bind_eq_some_iff, Option.map_eq_some_iff, Prod.mk.injEq,
    decide_eq_true_eq] at key
  obtain ⟨life, hl, t, ht, hm, hptr, hn⟩ := key
  obtain ⟨hfree, hkept⟩ := lends_free_iff hl ht
  exact ⟨life, hl, t, ht, hfree.mpr hm, hptr, (hkept hm).symm.trans hn⟩

end Codec

end DShow.Ring
