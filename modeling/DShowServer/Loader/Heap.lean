import DShowServer.Framework.Chain
import DShowServer.Framework.Simulate
import Mathlib.Data.BitVec

/-!
# Memory for the loaded code

`mreq_private` puts a header in front of every block that it takes from `malloc`, and links the headers. `my_release`
looks whether the header is still what it was before it takes the block out of the list, and `my_garbagecollection`
releases what is left.

The list in memory, the count and the mutex follow the list of the live blocks over any run (`heap_track`), a
block keeps what is in it while others come and go (`heap_keeps`), and the garbage collection ends exactly if no
header in the list has been written over (`garbagecollection_returns`).
-/

namespace DShow.Loader

open Simulate

/-- `AREATYPE_CLIENT` and so on. -/
inductive AreaType
  | client
  | event
  | mutex
  | cond
  | critsect
deriving DecidableEq

/-- `alloc_header`, and the memory behind it. -/
structure AllocHeader where
  deadbeef : BitVec 32
  size : BitVec 32
  type : AreaType
  data : List UInt8
deriving DecidableEq

/-- The list from `last_alloc` on, `alccnt`, and whether `memmut` is initialised. -/
structure Heap where
  list : Chain AllocHeader
  alccnt : Int
  memmut : Bool

/-- What lies behind a new header: zeros, or what `malloc` has left there. -/
def area (size : BitVec 32) (to_zero : Bool) (left : Nat → UInt8) : List UInt8 :=
  (List.range size.toNat).map fun i => if to_zero then 0 else left i

/-- The block of a request. -/
def newBlock (size : BitVec 32) (to_zero : Bool) (type : AreaType) (left : Nat → UInt8) : AllocHeader :=
  ⟨0xdeadbeef, size, type, area size to_zero left⟩

namespace Heap

/-- `mreq_private`, where `malloc` fails or answers with a block of any content. It fails for more than 2 GB. -/
def mreqPrivate (s : Heap) (size : BitVec 32) (to_zero : Bool) (type : AreaType) (malloc : Option (Nat → UInt8)) :
    Option (Nat × Heap) :=
  let nsize := size + 32
  if nsize.msb then some (0, s)
  else match malloc with
    | none => some (0, s)
    | some left =>
      -- the header does not fit into a block that is smaller
      if nsize < 32 then none
      else if s.list.newest ≠ 0 ∧ s.memmut = false then none
      else (s.list.push (newBlock size to_zero type left)).map fun p => (p.1, ⟨p.2, s.alccnt + 1, true⟩)

/-- `my_release`, without what becomes of the object in the block. -/
def myRelease (s : Heap) (memory : Nat) : Option (Nat × Heap) :=
  if memory = 0 then some (0, s)
  else (s.list.value memory).bind fun header =>
    if header.deadbeef ≠ 0xdeadbeef then some (0, s)
    else if s.memmut = false then none
    else (s.list.unlink memory).map fun list => (0, ⟨list, s.alccnt - 1, decide (list.newest ≠ 0)⟩)

/-- `my_size`. -/
def mySize (s : Heap) (memory : Nat) : Option (BitVec 32) :=
  if memory = 0 then some 0 else (s.list.value memory).map AllocHeader.size

/-- `memcpy` of a block over the start of another. -/
def copyOver (old : AllocHeader) (h : AllocHeader) : AllocHeader :=
  { h with data := old.data.take old.size.toNat ++ h.data.drop old.size.toNat }

/-- `my_realloc`. -/
def myRealloc (s : Heap) (memory : Nat) (size : BitVec 32) (malloc : Option (Nat → UInt8)) : Option (Nat × Heap) :=
  if memory = 0 then s.mreqPrivate size false .client malloc
  else (s.list.value memory).bind fun old =>
    if old.size.slt size then do
      let (ans, s) ← s.mreqPrivate size false .client malloc
      let list ← s.list.setValue ans (copyOver old)
      let (_, s) ← myRelease { s with list } memory
      pure (ans, s)
    else some (memory, s)

/-- `my_garbagecollection` from some counts on, as long as it lasts. -/
def collectFrom : Nat → BitVec 32 → Nat → Int → Heap → Option (BitVec 32 × Nat × Heap)
  | 0, _, _, _, _ => none
  | fuel + 1, unfree, unfreecnt, max_fatal, s =>
    if s.list.newest = 0 then some (unfree, unfreecnt, s)
    else do
      let size ← s.mySize s.list.newest
      let (r, s) ← s.myRelease s.list.newest
      if r ≠ 0 then
        if max_fatal - 1 < 0 then some (unfree + size, unfreecnt + 1, s)
        else collectFrom fuel (unfree + size) (unfreecnt + 1) (max_fatal - 1) s
      else collectFrom fuel (unfree + size) (unfreecnt + 1) max_fatal s

/-- `my_garbagecollection`: the bytes and the blocks that were left. -/
def myGarbagecollection (fuel : Nat) (s : Heap) : Option (BitVec 32 × Nat × Heap) := collectFrom fuel 0 0 8 s

def start : Heap := ⟨.empty, 0, false⟩

end Heap

/-- A call of the loaded code, or what it does to its memory: it writes to a block, or over a header. -/
inductive HeapCall
  | mreq (size : BitVec 32) (to_zero : Bool) (type : AreaType) (malloc : Option (Nat → UInt8))
  | release (memory : Nat)
  | realloc (memory : Nat) (size : BitVec 32) (malloc : Option (Nat → UInt8))
  | write (memory i : Nat) (b : UInt8)
  | overrun (memory : Nat) (deadbeef : BitVec 32)

def Heap.call (s : Heap) : HeapCall → Option (Nat × Heap)
  | .mreq size to_zero type malloc => s.mreqPrivate size to_zero type malloc
  | .release memory => s.myRelease memory
  | .realloc memory size malloc => s.myRealloc memory size malloc
  | .write memory i b =>
    (s.list.setValue memory fun h => { h with data := h.data.set i b }).map fun list => (0, { s with list })
  | .overrun memory deadbeef =>
    (s.list.setValue memory fun h => { h with deadbeef }).map fun list => (0, { s with list })

/-! ## The live blocks -/

/-- The blocks that are live, the newest first, and the address of the next. -/
structure Blocks where
  live : List (Nat × AllocHeader)
  top : Nat

namespace Blocks

def block (g : Blocks) (memory : Nat) : Option AllocHeader := (Keyed.lookup Prod.fst g.live memory).map Prod.snd

def mreq (g : Blocks) (size : BitVec 32) (to_zero : Bool) (type : AreaType) (malloc : Option (Nat → UInt8)) :
    Option (Nat × Blocks) :=
  if (size + 32).msb then some (0, g)
  else match malloc with
    | none => some (0, g)
    | some left =>
      if size + 32 < 32 then none
      else some (g.top, ⟨(g.top, newBlock size to_zero type left) :: g.live, g.top + 1⟩)

def release (g : Blocks) (memory : Nat) : Option (Nat × Blocks) :=
  if memory = 0 then some (0, g)
  else (g.block memory).bind fun header =>
    if header.deadbeef ≠ 0xdeadbeef then some (0, g)
    else some (0, ⟨g.live.eraseP fun b => b.1 = memory, g.top⟩)

/-- A block changed. -/
def change (g : Blocks) (memory : Nat) (f : AllocHeader → AllocHeader) : Option Blocks :=
  (g.block memory).map fun _ => ⟨Chain.setIn g.live memory f, g.top⟩

def realloc (g : Blocks) (memory : Nat) (size : BitVec 32) (malloc : Option (Nat → UInt8)) : Option (Nat × Blocks) :=
  if memory = 0 then g.mreq size false .client malloc
  else (g.block memory).bind fun old =>
    if old.size.slt size then do
      let (ans, g) ← g.mreq size false .client malloc
      let g ← g.change ans (Heap.copyOver old)
      let (_, g) ← g.release memory
      pure (ans, g)
    else some (memory, g)

def call (g : Blocks) : HeapCall → Option (Nat × Blocks)
  | .mreq size to_zero type malloc => g.mreq size to_zero type malloc
  | .release memory => g.release memory
  | .realloc memory size malloc => g.realloc memory size malloc
  | .write memory i b => (g.change memory fun h => { h with data := h.data.set i b }).map fun g => (0, g)
  | .overrun memory deadbeef => (g.change memory fun h => { h with deadbeef }).map fun g => (0, g)

def start : Blocks := ⟨[], 1⟩

end Blocks

/-- The heap holds the live blocks and no others. -/
structure Heap.Tracks (s : Heap) (g : Blocks) : Prop where
  list : s.list.Holds g.live
  top : s.list.nodes.top = g.top
  value : ∀ a, s.list.value a = g.block a
  alccnt : s.alccnt = g.live.length
  memmut : s.memmut = !g.live.isEmpty

namespace Heap

variable {s s' : Heap} {g : Blocks} {memory : Nat} {f : AllocHeader → AllocHeader}

theorem start_tracks : start.Tracks .start where
  list := ⟨rfl, trivial, List.nodup_nil⟩
  top := rfl
  value _ := rfl
  alccnt := rfl
  memmut := rfl

theorem Tracks.memmut_of_ne (h : s.Tracks g) (hne : g.live ≠ []) : s.memmut = true := by
  rw [h.memmut]
  simpa using hne

/-- Related results. -/
abbrev Same (x : Option (Nat × Heap)) (y : Option (Nat × Blocks)) : Prop :=
  Option.Rel (fun p q => p.1 = q.1 ∧ p.2.Tracks q.2) x y

theorem Tracks.mreq (h : s.Tracks g) (size : BitVec 32) (to_zero : Bool) (type : AreaType)
    (malloc : Option (Nat → UInt8)) :
    Same (s.mreqPrivate size to_zero type malloc) (g.mreq size to_zero type malloc) := by
  unfold mreqPrivate Blocks.mreq
  dsimp only
  split
  · exact .some ⟨rfl, h⟩
  · cases malloc with
    | none => exact .some ⟨rfl, h⟩
    | some left =>
      dsimp only
      split
      · exact .none
      · rw [if_neg]
        · obtain ⟨list, hp, hl⟩ := h.list.push (newBlock size to_zero type left)
          obtain ⟨-, htop⟩ := Chain.push_top hp
          rw [hp]
          refine .some ⟨h.top, ⟨h.top ▸ hl, htop.trans (congrArg Nat.succ h.top), fun a => ?_, ?_, rfl⟩⟩
          · rw [Chain.push_value hp, Blocks.block, Keyed.lookup_cons, h.value, h.top]
            by_cases ha : a = g.top
            · rw [if_pos ha, if_pos ha.symm]
              rfl
            · rw [if_neg ha, if_neg (Ne.symm ha), Blocks.block]
          · rw [h.alccnt, List.length_cons]
            rfl
        · rintro ⟨hne, hm⟩
          rw [h.memmut_of_ne fun h0 => hne (h.list.newest_eq_zero.mpr h0)] at hm
          cases hm

theorem Tracks.change (h : s.Tracks g) (memory : Nat) (f : AllocHeader → AllocHeader) :
    Option.Rel (fun list g => Tracks { s with list } g) (s.list.setValue memory f) (g.change memory f) := by
  unfold Blocks.change
  cases hb : g.block memory with
  | none =>
    rw [Chain.setValue_eq_none ((h.value memory).trans hb)]
    exact .none
  | some v =>
    obtain ⟨b, hb, -⟩ := Option.map_eq_some_iff.mp hb
    obtain ⟨hmem, rfl⟩ := Keyed.key_of_lookup hb
    obtain ⟨list, hs, hl, htop⟩ := h.list.setValue f ⟨b.2, hmem⟩
    rw [hs]
    refine .some ⟨hl, htop.trans h.top, fun a => ?_, ?_, ?_⟩
    · rw [Chain.setValue_value hs, h.value, Blocks.block, Blocks.block, Chain.lookup_setIn]
      split <;> simp [Option.map_map, Function.comp_def]
    · rw [h.alccnt, Chain.setIn, List.length_map]
    · rw [h.memmut, Chain.setIn, List.isEmpty_map]

theorem Tracks.release (h : s.Tracks g) (memory : Nat) : Same (s.myRelease memory) (g.release memory) := by
  unfold myRelease Blocks.release
  split
  · exact .some ⟨rfl, h⟩
  · rw [h.value memory]
    unfold Blocks.block
    cases hf : Keyed.lookup Prod.fst g.live memory with
    | none => exact .none
    | some b =>
      obtain ⟨rfl, l₁, l₂, hl, herase⟩ := Keyed.append_of_lookup hf
      rw [Option.map_some, Option.bind_some, Option.bind_some]
      split
      · exact .some ⟨rfl, h⟩
      · have hne : g.live ≠ [] := fun h0 => by simp [h0] at hl
        have hh := h.list
        rw [hl] at hh
        obtain ⟨list, hu, hl'⟩ := hh.unlink
        rw [if_neg (by rw [h.memmut_of_ne hne]; exact fun h => nomatch h), hu, herase]
        refine .some ⟨rfl, ⟨hl', (Chain.unlink_top hu).trans h.top, fun a => ?_, ?_, ?_⟩⟩
        · rw [Chain.unlink_value hu, h.value, Blocks.block, Blocks.block, ← herase, Keyed.lookup_eraseP h.list.nodup]
          split <;> rfl
        · rw [h.alccnt, hl]
          simp only [List.length_append, List.length_cons]
          omega
        · show decide (list.newest ≠ 0) = !(l₁ ++ l₂).isEmpty
          rw [Bool.eq_iff_iff, decide_eq_true_iff, ne_eq, hl'.newest_eq_zero]
          simp

theorem Tracks.realloc (h : s.Tracks g) (memory : Nat) (size : BitVec 32) (malloc : Option (Nat → UInt8)) :
    Same (s.myRealloc memory size malloc) (g.realloc memory size malloc) := by
  unfold myRealloc Blocks.realloc
  split
  · exact h.mreq size false .client malloc
  · rw [h.value memory]
    cases g.block memory with
    | none => exact .none
    | some old =>
      rw [Option.bind_some, Option.bind_some]
      split
      · refine rel_bind (h.mreq size false .client malloc) ?_
        rintro ⟨ans, s₁⟩ ⟨-, g₁⟩ ⟨rfl, h₁⟩
        refine rel_bind (h₁.change ans (copyOver old)) fun list g₂ h₂ => ?_
        refine rel_bind (h₂.release memory) ?_
        rintro ⟨_, s₃⟩ ⟨_, g₃⟩ ⟨_, h₃⟩
        exact .some ⟨rfl, h₃⟩
      · exact .some ⟨rfl, h⟩

theorem Tracks.call (h : s.Tracks g) (e : HeapCall) : Same (s.call e) (g.call e) := by
  cases e with
  | mreq size to_zero type malloc => exact h.mreq size to_zero type malloc
  | release memory => exact h.release memory
  | realloc memory size malloc => exact h.realloc memory size malloc
  | write memory i b => exact rel_map (h.change memory _) fun _ _ h => ⟨rfl, h⟩
  | overrun memory deadbeef => exact rel_map (h.change memory _) fun _ _ h => ⟨rfl, h⟩

/-- **The headers follow the live blocks.** Over any run the heap and the list of the live blocks answer the same and
fail at the same call; the list from `last_alloc` on holds these blocks, `alccnt` counts them, and `memmut` is there as
long as there is one. -/
theorem heap_track (es : List HeapCall) :
    Option.Rel (fun p q => p.1 = q.1 ∧ p.2.Tracks q.2) (outputs call start es) (outputs Blocks.call .start es) :=
  outputs_rel (fun _ _ e h => h.call e) start_tracks es

end Heap

/-! ## What becomes of a block -/

/-- The block that a call names. -/
def HeapCall.memory : HeapCall → Nat
  | .mreq .. => 0
  | .release memory | .realloc memory .. | .write memory .. | .overrun memory _ => memory

namespace Blocks

variable {g g' : Blocks} {memory r : Nat} {b : AllocHeader}

/-- A block of a place before the next one. -/
def Has (g : Blocks) (memory : Nat) (b : AllocHeader) : Prop := g.block memory = some b ∧ memory < g.top

theorem Has.mreq {size : BitVec 32} {to_zero : Bool} {type : AreaType} {malloc : Option (Nat → UInt8)}
    (h : g.Has memory b) (hr : g.mreq size to_zero type malloc = some (r, g')) : g'.Has memory b := by
  unfold Blocks.mreq at hr
  split at hr
  · cases hr
    exact h
  · cases malloc with
    | none =>
      cases hr
      exact h
    | some left =>
      dsimp only at hr
      split at hr
      · cases hr
      · cases hr
        refine ⟨?_, Nat.lt_succ_of_lt h.2⟩
        unfold Blocks.block
        rw [Keyed.lookup_cons, if_neg (Nat.ne_of_gt h.2)]
        exact h.1

theorem Has.change {a : Nat} {f : AllocHeader → AllocHeader} (h : g.Has memory b) (ha : a ≠ memory)
    (hr : g.change a f = some g') : g'.Has memory b := by
  obtain ⟨-, -, rfl⟩ := Option.map_eq_some_iff.mp hr
  refine ⟨?_, h.2⟩
  unfold Blocks.block
  rw [Chain.lookup_setIn_of_ne ha.symm]
  exact h.1

theorem Has.release {a : Nat} (h : g.Has memory b) (ha : a ≠ memory) (hr : g.release a = some (r, g')) :
    g'.Has memory b := by
  unfold Blocks.release at hr
  split at hr
  · cases hr
    exact h
  · obtain ⟨header, -, hr⟩ := Option.bind_eq_some_iff.mp hr
    split at hr
    · cases hr
      exact h
    · cases hr
      refine ⟨?_, h.2⟩
      unfold Blocks.block
      rw [Keyed.lookup_eraseP_of_ne ha]
      exact h.1

/-- What `my_realloc` answers when it has to ask for a block is the place of a new one, or 0. -/
theorem mreq_ne {size : BitVec 32} {to_zero : Bool} {type : AreaType} {malloc : Option (Nat → UInt8)}
    (h : memory < g.top) (h0 : memory ≠ 0) (hr : g.mreq size to_zero type malloc = some (r, g')) : r ≠ memory := by
  unfold Blocks.mreq at hr
  split at hr
  · cases hr
    exact h0.symm
  · cases malloc with
    | none =>
      cases hr
      exact h0.symm
    | some left =>
      dsimp only at hr
      split at hr
      · cases hr
      · cases hr
        exact Nat.ne_of_gt h

theorem Has.call {e : HeapCall} (h : g.Has memory b) (h0 : memory ≠ 0) (he : e.memory ≠ memory)
    (hr : g.call e = some (r, g')) : g'.Has memory b := by
  cases e with
  | mreq size to_zero type malloc => exact h.mreq hr
  | release a => exact h.release he hr
  | realloc a size malloc =>
    unfold Blocks.call Blocks.realloc at hr
    dsimp only at hr
    split at hr
    · exact h.mreq hr
    · obtain ⟨old, -, hr⟩ := Option.bind_eq_some_iff.mp hr
      split at hr
      · obtain ⟨⟨ans, g₁⟩, h₁, hr⟩ := Option.bind_eq_some_iff.mp hr
        obtain ⟨g₂, h₂, hr⟩ := Option.bind_eq_some_iff.mp hr
        obtain ⟨⟨r₃, g₃⟩, h₃, hr⟩ := Option.bind_eq_some_iff.mp hr
        cases hr
        exact ((h.mreq h₁).change (mreq_ne h.2 h0 h₁) h₂).release he h₃
      · cases hr
        exact h
  | write a i v =>
    obtain ⟨g₁, h₁, hr⟩ := Option.map_eq_some_iff.mp hr
    cases hr
    exact h.change he h₁
  | overrun a deadbeef =>
    obtain ⟨g₁, h₁, hr⟩ := Option.map_eq_some_iff.mp hr
    cases hr
    exact h.change he h₁

end Blocks

namespace Heap

/-- Two blocks, one of them written to, and what is done with others. -/
def twoBlocks : List HeapCall :=
  [.mreq 2 true .client (some fun _ => 9), .mreq 1 false .client (some fun _ => 9), .write 1 1 5]

def otherBlocks : List HeapCall :=
  [.realloc 2 3 (some fun _ => 8), .mreq 1 true .event (some fun _ => 9), .release 3]

/-! ## Releasing what is left -/

section

variable {s s' : Heap} {b : Nat × AllocHeader} {l : List (Nat × AllocHeader)} {top : Nat}

theorem Tracks.newest (h : s.Tracks ⟨b :: l, top⟩) : s.list.newest = b.1 := h.list.newest

theorem Tracks.ne_zero (h : s.Tracks ⟨b :: l, top⟩) : b.1 ≠ 0 := Store.ne_zero_of_read h.list.seg.1

theorem Tracks.block (h : s.Tracks ⟨b :: l, top⟩) : s.list.value b.1 = some b.2 := by
  rw [h.value]
  unfold Blocks.block
  rw [Keyed.lookup_cons, if_pos rfl]
  rfl

/-- A block whose header was written over stays where it is. -/
theorem Tracks.release_corrupted (h : s.Tracks ⟨b :: l, top⟩) (hb : b.2.deadbeef ≠ 0xdeadbeef) :
    s.myRelease b.1 = some (0, s) := by
  rw [myRelease, if_neg h.ne_zero, h.block, Option.bind_some, if_pos hb]

theorem Tracks.release_newest (h : s.Tracks ⟨b :: l, top⟩) (hb : b.2.deadbeef = 0xdeadbeef) :
    ∃ s', s.myRelease b.1 = some (0, s') ∧ s'.Tracks ⟨l, top⟩ := by
  have hg : Blocks.release ⟨b :: l, top⟩ b.1 = some (0, ⟨l, top⟩) := by
    rw [Blocks.release, if_neg h.ne_zero, ← h.value, h.block, Option.bind_some, if_neg (not_not_intro hb),
      List.eraseP_cons_of_pos (p := fun c : Nat × AllocHeader => decide (c.1 = b.1)) (decide_eq_true rfl)]
  obtain ⟨⟨r, s'⟩, hs', hr, h'⟩ := rel_right (h.release b.1) hg
  cases hr
  exact ⟨s', hs', h'⟩

theorem collectFrom_succ (h : s.Tracks ⟨b :: l, top⟩) (hr : s.myRelease b.1 = some (0, s')) (fuel : Nat)
    (unfree : BitVec 32) (unfreecnt : Nat) (max_fatal : Int) :
    collectFrom (fuel + 1) unfree unfreecnt max_fatal s =
      collectFrom fuel (unfree + b.2.size) (unfreecnt + 1) max_fatal s' := by
  have hsize : s.mySize b.1 = some b.2.size := by rw [mySize, if_neg h.ne_zero, h.block]; rfl
  rw [collectFrom, h.newest, if_neg h.ne_zero, hsize, Option.bind_eq_bind, Option.bind_some, hr, Option.bind_eq_bind,
    Option.bind_some]
  exact if_neg (not_not_intro rfl)

/-- Where every header is intact, the collection takes one turn for each block. -/
theorem collectFrom_intact {l : List (Nat × AllocHeader)} (h : s.Tracks ⟨l, top⟩)
    (hl : ∀ b ∈ l, b.2.deadbeef = 0xdeadbeef) (unfree : BitVec 32) (unfreecnt : Nat) (max_fatal : Int) :
    ∃ s', s'.Tracks ⟨[], top⟩ ∧ ∀ fuel, collectFrom fuel unfree unfreecnt max_fatal s =
      if l.length < fuel then some (unfree + (l.map fun b => b.2.size).sum, unfreecnt + l.length, s') else none := by
  induction l generalizing s unfree unfreecnt with
  | nil =>
    refine ⟨s, h, fun fuel => ?_⟩
    cases fuel with
    | zero => rfl
    | succ fuel =>
      rw [collectFrom, if_pos (h.list.newest_eq_zero.mpr rfl)]
      simp
  | cons b l ih =>
    obtain ⟨hb, hl⟩ := List.forall_mem_cons.mp hl
    obtain ⟨s₁, hs₁, h₁⟩ := h.release_newest hb
    obtain ⟨s', h', hf⟩ := ih h₁ hl (unfree + b.2.size) (unfreecnt + 1)
    refine ⟨s', h', fun fuel => ?_⟩
    cases fuel with
    | zero => rfl
    | succ fuel =>
      rw [collectFrom_succ h hs₁, hf, List.length_cons, List.map_cons, List.sum_cons, ← BitVec.add_assoc]
      simp only [Nat.succ_lt_succ_iff, Nat.add_assoc, Nat.add_comm 1]

/-- At a corrupted header it takes turns without end: `my_release` leaves the block where it is and answers 0 all the
same, which `max_fatal` does not count. -/
theorem collectFrom_corrupted {l : List (Nat × AllocHeader)} (h : s.Tracks ⟨l, top⟩) (hb : b ∈ l)
    (hd : b.2.deadbeef ≠ 0xdeadbeef) (fuel : Nat) (unfree : BitVec 32) (unfreecnt : Nat) (max_fatal : Int) :
    collectFrom fuel unfree unfreecnt max_fatal s = none := by
  induction fuel generalizing s l unfree unfreecnt with
  | zero => rfl
  | succ fuel ih =>
    cases l with
    | nil => cases hb
    | cons c l =>
      by_cases hc : c.2.deadbeef = 0xdeadbeef
      · obtain ⟨s₁, hs₁, h₁⟩ := h.release_newest hc
        rw [collectFrom_succ h hs₁]
        rcases List.mem_cons.mp hb with rfl | hb
        · exact absurd hc hd
        · exact ih h₁ hb _ _
      · rw [collectFrom_succ h (h.release_corrupted hc)]
        exact ih h hb _ _

end

/-- **When the garbage collection ends.** After any run it ends if and only if no live block has had its header written
over, and then the bytes and blocks that it counts are those of the live blocks and the list is empty. -/
theorem garbagecollection_returns {es : List HeapCall} {rs : List Nat} {s : Heap}
    (hs : outputs call start es = some (rs, s)) : ∃ g, outputs Blocks.call .start es = some (rs, g) ∧
      ((∃ fuel r, s.myGarbagecollection fuel = some r) ↔ ∀ b ∈ g.live, b.2.deadbeef = 0xdeadbeef) ∧
      ∀ fuel unfree unfreecnt s', s.myGarbagecollection fuel = some (unfree, unfreecnt, s') →
        unfree = (g.live.map fun b => b.2.size).sum ∧ unfreecnt = g.live.length ∧ s'.Tracks ⟨[], g.top⟩ := by
  obtain ⟨⟨qs, g⟩, hg, hr, h⟩ := rel_left (heap_track es) hs
  cases hr
  have hall : ∀ fuel r, s.myGarbagecollection fuel = some r → ∀ b ∈ g.live, b.2.deadbeef = 0xdeadbeef := by
    intro fuel r hf b hb
    by_contra hd
    cases (collectFrom_corrupted h hb hd fuel 0 0 8).symm.trans hf
  refine ⟨g, hg, ⟨fun ⟨fuel, r, hf⟩ => hall fuel r hf, fun hl => ?_⟩, fun fuel unfree unfreecnt s' hf => ?_⟩
  · obtain ⟨s', -, hs'⟩ := collectFrom_intact h hl 0 0 8
    exact ⟨g.live.length + 1, _, (hs' _).trans (if_pos (Nat.lt_succ_self _))⟩
  · obtain ⟨s₁, h₁, hs₁⟩ := collectFrom_intact h (hall fuel _ hf) 0 0 8
    have heq := (hs₁ fuel).symm.trans hf
    split at heq
    · cases heq
      exact ⟨BitVec.zero_add _, Nat.zero_add _, h₁⟩
    · cases heq

/-- A header written over below another block. -/
def overrunBlock : List HeapCall :=
  [.mreq 2 true .client (some fun _ => 9), .overrun 1 0, .mreq 1 true .client (some fun _ => 9)]

theorem garbagecollection_returns_overrun : ∃ rs s, outputs call start overrunBlock = some (rs, s) ∧
    ¬ ∃ fuel r, s.myGarbagecollection fuel = some r := by
  obtain ⟨s, hs⟩ : ∃ s, outputs call start overrunBlock = some ([1, 0, 2], s) := ⟨_, rfl⟩
  obtain ⟨g, hg, hiff, -⟩ := garbagecollection_returns hs
  cases hg
  exact ⟨_, s, hs, by rw [hiff]; decide⟩

end Heap

end DShow.Loader
