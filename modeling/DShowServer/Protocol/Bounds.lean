import DShowServer.Options.Model
import DShowServer.Pool.Tables
import DShowServer.Protocol.Arithmetic

/-!
# Writes outside the picture area and the pool's tables

Two lengths reach the server's memory from outside without being compared with
the room there is: that of a frame outside the shared pages, which is copied
into the picture area, and the page count of the command line, which bounds the
loops over the pool's tables.

* `picture_bounds_iff`: the frames for which the copy stays in the area;
* `numpages_iff`: the command lines for which the tables are not left.
-/

namespace DShow.Protocol

open Pool DShow.Ring Run Options

/-! ## The picture area -/

/-- The number of bytes that `DS_VideoDecoder_DecodeInternal` copies from
`frame_pointer` to `pImage`, where it copies. -/
def imageCopy (input : Bool) (r : SampleProcUserData) (m : MemStruct) : Option Nat :=
  if input = true ∧ r.last.state = .set ∧ m.getMemstructPagenum r.last.frame_pointer = some (-1) then
    some (wrap32 r.last.frame_size)
  else none

/-- The copy that the next decode command makes. -/
def nextCopy (s : Session) : Option Nat :=
  match s.phase with
  | .timed => imageCopy s.input s.ring s.pool.mem
  | _ => none

/-- The bytes reserved for the picture: those before the pages. -/
def MachineLayout.pictureRoom (l : MachineLayout) : Nat := (l.base - l.picture).toNat

theorem pictureRoom_eq {o : SizeOptions} {mem : BitVec 32} {l : MachineLayout}
    (hl : layout o mem = some l) : l.pictureRoom = (o.width * o.height * o.bits / 8).toNat := by
  obtain ⟨-, rfl⟩ := layout_eq_some.mp hl
  have e : ∀ b n : BitVec 32, b + n - b = n := fun b n => by bv_omega
  exact congrArg BitVec.toNat (e _ _)

/-- The pool that the server sets up. -/
def serverPool (l : MachineLayout) : PoolState := ⟨l.pool, []⟩

/-- Every copy into the picture area stays inside, whatever the codec delivers of
these frames, and whatever is asked of the server. -/
def PictureInside (l : MachineLayout) (frames : MediaSample → Prop) : Prop :=
  ∀ input es s n, (∀ x, .deliver x ∈ es → frames x) →
    exec Session.step (.fresh (serverPool l) input) es = some s → nextCopy s = some n →
    n ≤ l.pictureRoom

theorem outside_iff_of_range {m m' : MemStruct} (h : m'.range = m.range) (p : Nat) :
    m'.outside p = m.outside p := by
  simp only [MemStruct.range, Prod.mk.injEq] at h
  simp only [MemStruct.outside, h.1, h.2.1]

/-- A page number is -1 only outside the range. -/
theorem outside_of_pagenum {m : MemStruct} {p : Nat} (h : m.getMemstructPagenum p = some (-1)) :
    m.outside p = true := by
  by_contra ho
  simp only [MemStruct.getMemstructPagenum, ho, if_false, Option.map_eq_some_iff] at h
  obtain ⟨i, -, hi⟩ := h
  exact absurd hi (by simp)

theorem range_of_event {s s' : Session} (h : s.Inv) {e : Event} (hs : s.step e = some s') :
    s'.pool.mem.range = s.pool.mem.range := by
  rcases Session.step_pool h hs with he | ⟨c, hc⟩
  · rw [he]
  · exact MemStruct.range_of_step hc

/-- The picture is that of one of the frames. -/
def Delivered (frames : MediaSample → Prop) (f : Picture) : Prop :=
  ∃ x p, frames x ∧ x.pointer = some p ∧ f = x.picture p

/-- The ring holds frames that were delivered, and no others. -/
structure HoldsFrames (l : MachineLayout) (frames : MediaSample → Prop) (s : Session) : Prop where
  inv : s.Inv
  range_eq : s.pool.mem.range = l.pool.range
  delivered : ∀ f ∈ s.ring.occupied, Delivered frames f.2

variable {l : MachineLayout} {frames : MediaSample → Prop} {s s' : Session}

theorem holdsFrames_fresh {pool : PoolState} (h : pool.mem.range = l.pool.range) (input : Bool) :
    HoldsFrames l frames (.fresh pool input) := by
  refine ⟨Session.fresh_inv _ _, h, fun f hf => ?_⟩
  have hocc : (Session.fresh pool input).ring.occupied = [] := SampleProcUserData.zero_wf.2
  rw [hocc] at hf
  cases hf

/-- A step keeps it, if what it delivers is one of the frames. -/
theorem HoldsFrames.step (h : HoldsFrames l frames s) {e : Event} (he : ∀ x, e = .deliver x → frames x)
    (hs : s.step e = some s') : HoldsFrames l frames s' := by
  obtain ⟨hi, hr, hd⟩ := h
  have hr' := (range_of_event hi hs).trans hr
  have hi' := hi.step hs
  cases hi.effect hs with
  | undelivered hx hw ho => exact ⟨hi', hr', fun f hf => hd f (ho ▸ hf)⟩
  | delivered hx hlock hw ho =>
    refine ⟨hi', hr', fun f hf => ?_⟩
    rw [ho] at hf
    rcases List.mem_append.mp hf with hf | hf
    · exact hd f (List.mem_of_mem_take hf)
    · rw [List.mem_singleton.mp hf]
      exact ⟨_, _, he _ rfl, hx, rfl⟩
  | freed hph hsent hlock hw ho =>
    exact ⟨hi', hr', fun f hf => hd f (by rw [ho]; exact List.mem_cons_of_mem _ hf)⟩
  | answered hph hpage hw ho ho' =>
    refine ⟨hi', hr', fun f hf => ?_⟩
    rw [ho'] at hf
    rcases List.mem_cons.mp hf with rfl | hf
    · exact hd (.set, s.ring.last.picture) (by rw [ho]; exact List.mem_cons_self)
    · exact hd f (by rw [ho]; exact List.mem_cons_of_mem _ hf)
  | seek hph => exact holdsFrames_fresh hr _
  | pool | inputRelease | notSent | timed | noFrame | getPTS => exact ⟨hi', hr', hd⟩

/-- What is copied is a frame that was delivered outside the pages, as long as
its sample said. -/
theorem HoldsFrames.nextCopy (h : HoldsFrames l frames s) {n : Nat} (hn : nextCopy s = some n) :
    ∃ x p, frames x ∧ x.pointer = some p ∧ l.pool.outside p = true ∧ n = wrap32 x.len := by
  simp only [Protocol.nextCopy] at hn
  split at hn <;> [skip; cases hn]
  simp only [imageCopy] at hn
  split at hn <;> [rename_i hc; cases hn]
  obtain ⟨-, hset, hpage⟩ := hc
  cases hn
  obtain ⟨rest, ho⟩ := h.inv.wf.occupied_eq_cons (by rw [hset]; decide)
  obtain ⟨x, p, hx, hp, he⟩ := h.delivered _ (by rw [ho]; exact List.mem_cons_self)
  have hptr : s.ring.last.frame_pointer = p := congrArg Picture.pointer he
  have hlen : s.ring.last.frame_size = x.len := congrArg Picture.size he
  refine ⟨x, p, hx, hp, ?_, by rw [hlen]⟩
  rw [← outside_iff_of_range h.range_eq p, ← hptr]
  exact outside_of_pagenum hpage

/-- A frame that is delivered outside the pages to an empty ring is the next to
be copied. -/
theorem copy_of_deliver (pool : PoolState) {x : MediaSample} {p : Nat} (hx : x.pointer = some p)
    (ho : pool.mem.outside p = true) :
    ∃ s, exec Session.step (.fresh pool true) [.freeFrame, .setPTS, .deliver x] = some s ∧
      nextCopy s = some (wrap32 x.len) := by
  have hlock : pool.mem.memstructSetlock p 1 = some pool.mem := if_pos ho
  have hfree : freeFrame SampleProcUserData.zero pool.mem = some (.zero, pool.mem) := rfl
  have hslot : SampleProcUserData.zero.findSlot = some 0 := by decide
  refine ⟨_, by
    simp only [exec_cons, exec_nil, Session.step, Session.fresh, hfree, Option.map_some, Option.bind_some,
      if_true, copySample, hslot, hx, hlock]; rfl, ?_⟩
  have hpage : pool.mem.getMemstructPagenum p = some (-1) := if_pos ho
  simp [nextCopy, imageCopy, SampleProcUserData.last, SampleProcUserData.setFrame,
    SampleProcUserData.zero, hpage]

/-- **The picture area.** The copies stay in it exactly if every frame that the
codec delivers outside the shared pages is reported no longer than the area. -/
theorem picture_bounds_iff {o : SizeOptions} {mem : BitVec 32} {l : MachineLayout}
    (hl : layout o mem = some l) {frames : MediaSample → Prop}
    (hf : ∀ x, frames x → 0 < x.len ∧ x.len < 2 ^ 31) :
    PictureInside l frames ↔
      ∀ x p, frames x → x.pointer = some p → l.pool.outside p = true →
        x.len ≤ (o.width * o.height * o.bits / 8).toNat := by
  rw [← pictureRoom_eq hl]
  have hlen : ∀ x, frames x → (wrap32 x.len : Int) = x.len := fun x hx => by
    obtain ⟨h₁, h₂⟩ := hf x hx
    simp only [wrap32]
    omega
  constructor
  · intro h x p hx hp ho
    obtain ⟨s, hr, hn⟩ := copy_of_deliver (serverPool l) hp ho
    have hle := h true _ s _ (fun y hy => ?_) hr hn
    · have := hlen x hx
      omega
    · obtain rfl : y = x := by simpa using hy
      exact hx
  · intro h input es s n hes hr hn
    have hm : Meets Session.step (fun _ e => ∀ x, e = .deliver x → frames x)
        (.fresh (serverPool l) input) es := by
      refine meets_of_mem (P := fun e => ∀ x, e = Event.deliver x → frames x) _ fun e he x hx => ?_
      subst hx
      exact hes x he
    have hs : HoldsFrames l frames s :=
      exec_inv (fun _ _ _ hu hc hst => hu.step hc hst) (holdsFrames_fresh rfl input) hm hr
    obtain ⟨x, p, hx, hp, ho, rfl⟩ := hs.nextCopy hn
    have := hlen x hx
    have := h x p hx hp ho
    omega

/-- A picture of 16 by 16 pixels, and a frame of four rows more. -/
theorem picture_overrun :
    ∃ l, layout ⟨16, 16, 16, 0⟩ 4096 = some l ∧ l.pictureRoom = 512 ∧
      ∃ s, exec Session.step (.fresh (serverPool l) true)
          [.freeFrame, .setPTS, .deliver ⟨none, some 65536, 0, 640, 0⟩] = some s ∧
        nextCopy s = some 640 ∧ ¬ PictureInside l fun x => 0 < x.len ∧ x.len < 2 ^ 31 := by
  have hl : layout ⟨16, 16, 16, 0⟩ 4096 = some _ := layout_eq_some.mpr ⟨by decide, rfl⟩
  have hroom := pictureRoom_eq hl
  obtain ⟨s, hr, hn⟩ := copy_of_deliver ⟨setMemstruct 0 0 0, []⟩
    (x := ⟨none, some 65536, 0, 640, 0⟩) rfl (by decide)
  refine ⟨_, hl, hroom, s, hr, hn, fun h => ?_⟩
  have := h true _ s _ (fun y hy => ?_) hr hn
  · rw [hroom] at this
    exact absurd this (by decide)
  · obtain rfl : y = ⟨none, some 65536, 0, 640, 0⟩ := by simpa using hy
    decide

/-- The same picture, and frames of its size. -/
theorem picture_bounds_iff_one :
    ∃ l, layout ⟨16, 16, 16, 0⟩ 4096 = some l ∧ PictureInside l fun x => x.len = 512 := by
  have hl : layout ⟨16, 16, 16, 0⟩ 4096 = some _ := layout_eq_some.mpr ⟨by decide, rfl⟩
  refine ⟨_, hl, (picture_bounds_iff hl fun x hx => ?_).mpr
    fun x p hx _ _ => ?_⟩
  · rw [hx]; decide
  · rw [hx]; decide

/-! ## The page count of the command line -/

/-- The options that the layout is computed from. -/
def sizeOptions (o : Settings) : SizeOptions := ⟨o.width, o.height, o.bits, o.pagecount⟩

theorem wrap32_toInt (x : BitVec 32) : wrap32 x.toInt = x.toNat := by
  have := x.isLt
  rw [BitVec.toInt_eq_toNat_cond, wrap32]
  split <;> omega

/-- The pool is what `set_memstruct` sets up, for the page count of the options. -/
theorem pool_of_layout {o : SizeOptions} {mem : BitVec 32} {l : MachineLayout}
    (hl : layout o mem = some l) :
    (∃ base count size, l.pool = setMemstruct base count size) ∧
      l.pool.pagecount = o.pagecount.toNat := by
  obtain ⟨-, rfl⟩ := layout_eq_some.mp hl
  by_cases hc : o.pagecount = 0
  · simp only [hc, ne_eq, not_true_eq_false, if_false]
    exact ⟨⟨0, 0, 0, rfl⟩, rfl⟩
  · simp only [ne_eq, hc, not_false_eq_true, if_true]
    exact ⟨⟨_, _, _, rfl⟩, wrap32_toInt _⟩

/-- **The pool's tables.** For every command line, no calls on addresses of the
pool leave the tables exactly if the page count is at most 31; or, where the
pool's end lies below its base, if it is 32, or a page whose end is computed as
`NULL` is among the first 32. -/
theorem numpages_iff {argv : List (List Char)} {mem : BitVec 32} {l : MachineLayout}
    (hl : layout (sizeOptions (.parse argv)) mem = some l) :
    StaysInTables l.pool ↔ (Settings.parse argv).pagecount.toNat < tableSize ∨
      l.pool.endp < l.pool.base ∧ ((Settings.parse argv).pagecount.toNat = tableSize ∨
        ∃ i < tableSize, l.pool.pageEnd i = 0) := by
  obtain ⟨⟨base, count, size, he⟩, hc⟩ := pool_of_layout hl
  rw [← show l.pool.pagecount = (Settings.parse argv).pagecount.toNat from hc, he]
  exact staysInTables_iff base count size

/-- A command line for 16 by 16 pixels of 16 bits, with this many pages. -/
def commandLine (numpages : String) : List (List Char) :=
  ["dshowserver", "--size", "16x16", "--bits", "16", "--numpages", numpages].map String.toList

theorem parse_commandLine :
    Settings.parse (commandLine "32") = { width := 16, height := 16, bits := 16, pagecount := 32 } ∧
      Settings.parse (commandLine "10") =
        { width := 16, height := 16, bits := 16, pagecount := 10 } := by
  decide +kernel

/-- The pool of 32 pages: the release of a page that is not in use stores past
`used[]`. -/
theorem numpages_overrun :
    ∃ l, layout (sizeOptions (.parse (commandLine "32"))) 4096 = some l ∧ l.pool.pagecount = 32 ∧
      l.pool.outside l.pool.base = false ∧ l.pool.call (.free l.pool.base) = none ∧
      ¬ StaysInTables l.pool := by
  rw [parse_commandLine.1]
  have hl : layout ⟨16, 16, 16, 32⟩ 4096 = some _ := layout_eq_some.mpr ⟨by decide, rfl⟩
  have ho : (setMemstruct 4912 32 1536).outside 4912 = false := by decide
  have hf : (setMemstruct 4912 32 1536).call (.free 4912) = none :=
    free_base (m := setMemstruct 4912 32 1536) (fun _ => rfl) (by decide) (by decide)
  exact ⟨_, hl, rfl, ho, hf, not_staysInTables (c := .free 4912) ho hf⟩

/-- Ten pages, the most that a client asks for. -/
theorem numpages_iff_ten :
    ∃ l, layout (sizeOptions (.parse (commandLine "10"))) 4096 = some l ∧ StaysInTables l.pool := by
  have hl : layout (sizeOptions (.parse (commandLine "10"))) 4096 = some _ :=
    layout_eq_some.mpr ⟨by rw [parse_commandLine.2]; decide, rfl⟩
  exact ⟨_, hl, (numpages_iff hl).mpr (.inl (by rw [parse_commandLine.2]; decide))⟩

end DShow.Protocol
