import DShowServer.Decoder.Command

/-!
# The sample of the decoder

The decoder's allocator has one sample. `Holds` says how large it is and how
many references the codec has kept: while there are none, a packet goes through
it as it was sent (`Holds.decodeInternal`), and while there is one `GetBuffer`
has nothing to give.
-/

namespace DShow.Decoder

open Pool Alloc DShow.Protocol

/-! ## References -/

/-- `Release` of the used sample. -/
theorem sampleRelease_used {a : AllocState} {p : Nat} {c : CMediaSample} (h : At a (.used p))
    (hc : a.samples.read p = some c) : ∃ a', sampleRelease a p = some a' ∧
      At a' (if c.refcount = 1 then .free p else .used p) ∧
      a'.samples.read p = some { c with refcount := c.refcount - 1 } := by
  obtain ⟨s, hs, -, hr⟩ := Store.exists_modify hc fun c => { c with refcount := c.refcount - 1 }
  have hat : At { a with samples := s } (.used p) := ⟨h.lists, h.new_pointer, h.modified⟩
  have hp : s.read p = some { c with refcount := c.refcount - 1 } := by rw [hr, if_pos rfl]
  simp only [sampleRelease, hc, hs, Option.bind_eq_bind, Option.bind_some]
  by_cases h1 : c.refcount = 1
  · obtain ⟨a', e, hat', hs', -⟩ := releaseBuffer_used hat (Store.ne_zero_of_read hc)
    refine ⟨a', ?_, ?_, ?_⟩
    · rw [if_pos (by omega), e]
      rfl
    · rwa [if_pos h1]
    · rwa [hs']
  · exact ⟨_, if_neg (by omega), by rwa [if_neg h1], hp⟩

namespace Allocator

/-- The references that the codec takes. -/
theorem addRefs_used {a : AllocState} {p n : Nat} {c : CMediaSample} (h : At a (.used p))
    (hc : a.samples.read p = some c) : ∃ a', addRefs n a p = some a' ∧ At a' (.used p) ∧
      a'.samples.read p = some { c with refcount := c.refcount + n } := by
  induction n generalizing a c with
  | zero => exact ⟨a, rfl, h, by simpa using hc⟩
  | succ n ih =>
    obtain ⟨s, hs, -, hr⟩ := Store.exists_modify hc fun c => { c with refcount := c.refcount + 1 }
    have hat : At { a with samples := s } (.used p) := ⟨h.lists, h.new_pointer, h.modified⟩
    obtain ⟨a', e, hat', hc'⟩ := ih hat (by rw [hr, if_pos rfl])
    refine ⟨a', ?_, hat', ?_⟩
    · rw [addRefs, sampleAddRef, hs]
      exact e
    · rw [hc']
      congr 2
      push_cast
      omega

/-! ## One sample -/

/-- The sample within reach, in a block of its own with room for its size. -/
structure HasSample (a : Allocator) (pl : Place) (p : Nat) (size refs : Int) : Prop where
  lists : At a.alloc pl
  sample : ∃ c, a.alloc.samples.read p = some c ∧ c.refcount = refs ∧ c.size = size ∧
    c.block = c.own_block ∧ c.own_block ≠ 0
  size_pos : 0 ≤ size
  size_lt : size < 2 ^ 31
  room : size ≤ (a.fields p).room

/-- Between the commands the sample has the references the codec has kept. -/
def Holds (a : Allocator) (p : Nat) (size : Int) (kept : Nat) : Prop :=
  a.HasSample (if kept = 0 then .free p else .used p) p size kept

/-- The size of the sample within reach and the references to it. -/
def sample (a : Allocator) : Option (Int × Nat) := do
  let p ← a.alloc.within.head?
  let c ← a.alloc.samples.read p
  pure (c.size, c.refcount.toNat)

variable {a a' : Allocator} {p kept : Nat} {size : Int}

theorem Holds.sample_eq (h : a.Holds p size kept) : a.sample = some (size, kept) := by
  obtain ⟨c, hc, href, hsize, -⟩ := h.sample
  have hw : a.alloc.within = [p] := by
    rw [h.lists.within_eq]
    split <;> rfl
  simp only [Allocator.sample, hw, List.head?_cons, Option.bind_eq_bind, Option.bind_some, hc, hsize,
    href, Int.toNat_natCast]
  rfl

theorem sample_empty (h : At a.alloc .empty) : a.sample = none := by
  rw [Allocator.sample, h.within_eq]
  rfl

/-- `cbBuffer` after `SetProperties`; a size that it refuses leaves the default. -/
def bufferSize (lSampleSize : Int) : Int :=
  if int32 lSampleSize ≤ 0 then 65536 else if int32 lSampleSize = 2 then 10240 else int32 lSampleSize

theorem create_me (lSampleSize : Int) : (create lSampleSize).alloc.me =
    { memAllocatorCreate with cbBuffer := bufferSize lSampleSize } := by
  simp only [create, setProperties, bufferSize, memAllocatorCreate]
  split <;> simp_all

theorem bufferSize_pos (lSampleSize : Int) :
    0 < bufferSize lSampleSize ∧ bufferSize lSampleSize < 2 ^ 31 := by
  simp only [bufferSize, int32, Int.bmod]
  omega

theorem create_at (lSampleSize : Int) : At (create lSampleSize).alloc .empty where
  lists := by rw [create_me]; exact ⟨rfl, rfl⟩
  new_pointer := by rw [create_me]; rfl
  modified := by rw [create_me]; rfl

theorem wrap32_room {n : Int} (h₀ : 0 ≤ n) (h : n < 2 ^ 31) :
    (wrap32 (wrap32 n + safetyAcel) : Int) = n + 1024 := by
  simp only [wrap32, safetyAcel]
  omega

/-- `Commit` on a new allocator: its one sample, if there is memory for it and
for its block. -/
theorem commit_create (n : Int) (blocks : List Nat) :
    (create n).commit blocks = none ∧ blocks.head? = some 0 ∨
    ∃ a, (create n).commit blocks = some a ∧ blocks.head? ≠ some 0 ∧
      match blocks.head? with
      | none => At a.alloc .empty
      | some _ => a.Holds 1 (bufferSize n) 0 := by
  have hpos := bufferSize_pos n
  have hat := create_at n
  have hcb : ¬ (create n).alloc.me.cbBuffer < 0 := by
    rw [create_me]
    show ¬ bufferSize n < 0
    omega
  have hcommit : Alloc.commit (create n).alloc noPool blocks =
      commitFrom 1 blocks (create n).alloc noPool := by
    rw [Alloc.commit, if_neg hcb, if_neg (by simp [hat.lists.1, hat.lists.2]), create_me]
    rfl
  cases blocks with
  | nil =>
    refine .inr ⟨⟨(create n).alloc, _⟩, by rw [commit, hcommit]; rfl, by simp, ?_⟩
    exact hat
  | cons b rest =>
    have hmalloc : ∀ k, noPool.malloc k b = some (b, noPool) := fun k => rfl
    rw [commit, hcommit]
    simp only [commitFrom, cMediaSampleCreate, hmalloc, Option.bind_eq_bind, Option.bind_some,
      List.head?_cons]
    by_cases hb : b = 0
    · exact .inl ⟨by rw [if_pos hb]; rfl, by rw [hb]⟩
    obtain ⟨nodes, e, hone, -⟩ := addTail_null (create n).alloc.nodes (create n).alloc.samples.top
    simp only [if_neg hb, Option.pure_def, Option.bind_some, hat.lists.1, Store.alloc_fst, e,
      Option.map_some]
    refine .inr ⟨_, rfl, by simpa using hb, ?_⟩
    refine {
      lists := ⟨⟨hone, hat.lists.2⟩, hat.new_pointer, hat.modified⟩
      sample := ⟨_, Store.read_alloc.trans (if_pos rfl), rfl, ?_, rfl, hb⟩
      size_pos := by omega
      size_lt := hpos.2
      room := ?_ }
    · rw [create_me]
    · show bufferSize n ≤ (wrap32 (wrap32 (create n).alloc.me.cbBuffer + safetyAcel) : Int)
      rw [create_me, wrap32_room hpos.1.le hpos.2]
      show bufferSize n ≤ bufferSize n + 1024
      omega

/-! ## A packet -/

variable {src : List UInt8} {refs : Int} {pl : Place}

theorem HasSample.getBuffer (h : a.HasSample (.free p) p size refs) :
    ∃ b, getBuffer a.alloc = some (some p, b) ∧
      HasSample { a with alloc := b } (.used p) p size (refs + 1) := by
  obtain ⟨c, hc, rfl, hsize, hblock, hown⟩ := h.sample
  obtain ⟨b, e, hat, -, hb, -⟩ := getBuffer_free h.lists hc
  have hc' : b.samples.read p = some { c with refcount := c.refcount + 1 } := by rw [hb, if_pos rfl]
  exact ⟨b, e, hat, ⟨_, hc', rfl, hsize, hblock, hown⟩, h.size_pos, h.size_lt, h.room⟩

theorem HasSample.sampleRelease (h : a.HasSample (.used p) p size refs) :
    ∃ b, sampleRelease a.alloc p = some b ∧
      HasSample { a with alloc := b } (if refs = 1 then .free p else .used p) p size (refs - 1) := by
  obtain ⟨c, hc, rfl, hsize, hblock, hown⟩ := h.sample
  obtain ⟨b, e, hat, hc'⟩ := sampleRelease_used h.lists hc
  exact ⟨b, e, hat, ⟨_, hc', rfl, hsize, hblock, hown⟩, h.size_pos, h.size_lt, h.room⟩

theorem HasSample.addRefs (h : a.HasSample (.used p) p size refs) (n : Nat) :
    ∃ b, addRefs n a.alloc p = some b ∧ HasSample { a with alloc := b } (.used p) p size (refs + n) := by
  obtain ⟨c, hc, rfl, hsize, hblock, hown⟩ := h.sample
  obtain ⟨b, e, hat, hc'⟩ := addRefs_used (n := n) h.lists hc
  exact ⟨b, e, hat, ⟨_, hc', rfl, hsize, hblock, hown⟩, h.size_pos, h.size_lt, h.room⟩

@[simp] theorem setFields_self (f : SampleFields) : (a.setFields p f).fields p = f :=
  Function.update_self ..

/-- Other fields of the sample may change. -/
theorem HasSample.setFields (h : a.HasSample pl p size refs) {f : SampleFields}
    (hf : f.room = (a.fields p).room) : (a.setFields p f).HasSample pl p size refs := by
  refine ⟨h.lists, h.sample, h.size_pos, h.size_lt, ?_⟩
  rw [setFields_self, hf]
  exact h.room

theorem realloc_noPool {own size block : Nat} (h : own ≠ 0) :
    noPool.realloc own size block = some (block, noPool) :=
  MemStruct.realloc_outside (by
    show (decide (own < 0) || decide (0 < own)) = true
    simp only [Bool.or_eq_true, decide_eq_true_eq]
    omega) size block

/-- A length that fits, or for which there is memory. -/
theorem HasSample.setActualDataLength (h : a.HasSample pl p size refs) {len : Int} {block : Nat}
    (h₀ : 0 ≤ len) (hlen : len < 2 ^ 31) (hb : len ≤ size ∨ block ≠ 0) :
    ∃ a', a.setActualDataLength p len block = some a' ∧ a'.HasSample pl p (max size len) refs ∧
      (a'.fields p).actual_size = len ∧ (a'.fields p).time_start = (a.fields p).time_start := by
  obtain ⟨c, hc, href, rfl, hblock, hown⟩ := h.sample
  simp only [Allocator.setActualDataLength, hc, Option.bind_eq_bind, Option.bind_some]
  by_cases hfit : c.size < len
  · obtain ⟨s, hs, -, hr⟩ := Store.exists_modify hc fun c => { c with
      own_block := block, block := if c.own_block = c.block then block else c.block, size := len }
    simp only [if_pos hfit, realloc_noPool hown, Option.bind_some, hs, Option.pure_def]
    rw [max_eq_right hfit.le]
    refine ⟨_, rfl, ⟨⟨h.lists.lists, h.lists.new_pointer, h.lists.modified⟩,
      ⟨_, (hr p).trans (if_pos rfl), href, rfl, if_pos hblock.symm, ?_⟩, h₀, hlen, ?_⟩, ?_⟩
    · show block ≠ 0
      omega
    · rw [setFields_self, wrap32_room h₀ hlen]
      omega
    · simp only [setFields_self, and_self]
  · simp only [if_neg hfit, Option.pure_def]
    rw [max_eq_left (not_lt.mp hfit)]
    exact ⟨_, rfl, h.setFields rfl, by simp⟩

/-- A packet that fits is copied. -/
theorem HasSample.copyTo (h : a.HasSample pl p size refs) (hfit : src.length ≤ size) :
    ∃ a', a.copyTo p src = some a' ∧ a'.HasSample pl p size refs ∧
      a'.fields p = { a.fields p with data := src } := by
  obtain ⟨c, hc, href, hsize, hblock, hown⟩ := h.sample
  have hroom : src.length ≤ (a.fields p).room := by
    have := h.room
    omega
  simp only [Allocator.copyTo, hc, Option.bind_eq_bind, Option.bind_some]
  rw [if_pos ⟨hblock ▸ hown, hroom⟩]
  exact ⟨_, rfl, h.setFields rfl, by simp⟩

/-- `SetPTS` takes the sample, sets its time and gives it back. -/
theorem Holds.setPts (h : a.Holds p size 0) (pts : BitVec 64) :
    ∃ a', a.setPts pts = some a' ∧ a'.Holds p size 0 ∧ (a'.fields p).time_start = pts := by
  obtain ⟨b, e, h⟩ := HasSample.getBuffer h
  obtain ⟨b', e', h⟩ := h.sampleRelease
  simp only [Allocator.setPts, e, e', Option.bind_eq_bind, Option.bind_some, Option.pure_def]
  exact ⟨_, rfl, h.setFields rfl, by simp⟩

/-- Without a free sample `SetPTS` goes through `NULL`. -/
theorem setPts_none (h : At a.alloc pl) (hp : ∀ p, pl ≠ .free p) (pts : BitVec 64) :
    a.setPts pts = none := by
  rw [Allocator.setPts, getBuffer_fail h hp]
  rfl

/-- **A packet on its way.** With no reference kept and room or memory for the packet,
`Receive` gets it as it was sent. -/
theorem Holds.decodeInternal (h : a.Holds p size 0) (disc : Bool) {ans : DecodeAnswer}
    (hlen : src.length < 2 ^ 31) (hb : src.length ≤ size ∨ ans.block ≠ 0) :
    ∃ a', a.decodeInternal disc src ans =
        some (some ⟨src, src.length, (a.fields p).time_start, disc⟩, a') ∧
      a'.Holds p (max size src.length) ans.keeps := by
  have hint : int32 src.length = src.length := int32_of_lt (by omega) (by omega)
  obtain ⟨b, e, h₁⟩ := HasSample.getBuffer h
  obtain ⟨a₂, e₂, h₂, hact, htime⟩ := h₁.setActualDataLength (by omega) (by omega) hb
  obtain ⟨a₃, e₃, h₃, hf⟩ := h₂.copyTo (le_max_right size (src.length : Int))
  obtain ⟨b₄, e₄, h₄⟩ := h₃.addRefs ans.keeps
  obtain ⟨b₅, e₅, h₅⟩ := h₄.sampleRelease
  simp only [Allocator.decodeInternal, e, hint, e₂, e₃, e₄, e₅, Option.bind_eq_bind, Option.bind_some,
    Option.pure_def]
  refine ⟨_, congrArg some (Prod.ext (congrArg some ?_) rfl), ?_⟩
  · show Received.mk _ _ _ _ = _
    rw [hf, hact, htime, Int.toNat_natCast, List.take_length]
  · have hk : ((0 : Nat) : Int) + 1 + ans.keeps = 1 ↔ ans.keeps = 0 := by omega
    have hr : ((0 : Nat) : Int) + 1 + ans.keeps - 1 = ans.keeps := by omega
    rw [Holds]
    rw [hr] at h₅
    simp only [hk] at h₅
    exact h₅.setFields rfl

/-- Where there is no memory for a longer packet, it is copied to `NULL`. -/
theorem Holds.decodeInternal_none (h : a.Holds p size 0) (disc : Bool) {ans : DecodeAnswer}
    (hlen : src.length < 2 ^ 31) (hfit : size < src.length) (hb : ans.block = 0) :
    a.decodeInternal disc src ans = none := by
  have hint : int32 src.length = src.length := int32_of_lt (by omega) (by omega)
  obtain ⟨b, e, h₁⟩ := HasSample.getBuffer h
  obtain ⟨c, hc, -, rfl, hblock, hown⟩ := h₁.sample
  change b.samples.read p = some c at hc
  obtain ⟨s, hs, -, hr⟩ := Store.exists_modify hc fun c => { c with
    own_block := ans.block, block := if c.own_block = c.block then ans.block else c.block
    size := src.length }
  have hp := (hr p).trans (if_pos rfl)
  simp only [Allocator.decodeInternal, e, hint, Allocator.setActualDataLength, hc, if_pos hfit,
    realloc_noPool hown, hs, Option.bind_eq_bind, Option.bind_some, Option.pure_def,
    Allocator.copyTo, Allocator.setFields, hp, if_pos hblock.symm]
  rw [if_neg fun h => h.1 hb]
  rfl

/-- Whatever is received, the length it is given is the one of an `int`. -/
theorem Holds.actual_size_eq (h : a.Holds p size 0) {disc : Bool} {ans : DecodeAnswer}
    {r : Option Received} (e : a.decodeInternal disc src ans = some (r, a')) :
    ∃ received, r = some received ∧ received.actual_size = int32 src.length := by
  obtain ⟨b, e₁, -⟩ := HasSample.getBuffer h
  simp only [Allocator.decodeInternal, e₁, Option.bind_eq_bind, Option.bind_some,
    Option.bind_eq_some_iff, Option.pure_def, Option.some.injEq, Prod.mk.injEq] at e
  obtain ⟨a₂, e₂, a₃, e₃, -, -, -, -, rfl, -⟩ := e
  refine ⟨_, rfl, ?_⟩
  have h₂ : (a₂.fields p).actual_size = int32 src.length := by
    simp only [Allocator.setActualDataLength, Option.bind_eq_bind, Option.bind_eq_some_iff] at e₂
    obtain ⟨c, -, e₂⟩ := e₂
    split at e₂
    · simp only [Option.bind_eq_some_iff, Option.pure_def, Option.some.injEq] at e₂
      obtain ⟨-, -, -, -, rfl⟩ := e₂
      rw [setFields_self]
    · cases e₂
      rw [setFields_self]
  simp only [Allocator.copyTo, Option.bind_eq_bind, Option.bind_eq_some_iff] at e₃
  obtain ⟨c, -, e₃⟩ := e₃
  split at e₃ <;> cases e₃
  simpa using h₂

/-! ## A reference given back -/

theorem HasSample.within_eq (h : a.HasSample pl p size refs) (hp : pl.toList = [p]) :
    a.alloc.within = [p] := by
  rw [h.lists.within_eq, hp]

/-- The sample is held while the codec has a reference. -/
theorem Holds.find_held (h : a.Holds p size kept) :
    (a.alloc.within.find? fun p => IsHeld a.alloc p) = if kept = 0 then none else some p := by
  obtain ⟨c, hc, href, -⟩ := HasSample.sample h
  have hheld : IsHeld a.alloc p ↔ kept ≠ 0 := by
    constructor
    · rintro ⟨d, hd, hpos⟩
      cases hc.symm.trans hd
      omega
    · exact fun hk => ⟨c, hc, by omega⟩
  rw [HasSample.within_eq h (by split <;> rfl), List.find?_singleton]
  simp only [hheld, decide_not, Bool.not_eq_true', decide_eq_false_iff_not]
  split <;> simp_all

/-- `Release` by the codec. -/
theorem Holds.sampleRelease (h : a.Holds p size (kept + 1)) :
    ∃ b, sampleRelease a.alloc p = some b ∧ Holds { a with alloc := b } p size kept := by
  obtain ⟨b, e, h⟩ := HasSample.sampleRelease (show a.HasSample (.used p) p size (kept + 1 : Nat) from h)
  refine ⟨b, e, ?_⟩
  have hk : ((kept + 1 : Nat) : Int) = 1 ↔ kept = 0 := by omega
  have hr : ((kept + 1 : Nat) : Int) - 1 = kept := by omega
  rw [hr] at h
  simp only [hk] at h
  exact h

end Allocator

end DShow.Decoder
