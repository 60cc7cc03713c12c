import DShowServer.Ring.Session
import DShowServer.Transport.Timeout
import Mathlib.Tactic.Linarith

/-!
# The layout of the shared segment

Header, input area, picture and pages lie in one segment, whose layout the
server, MPlayer and xine each compute for themselves, in 32-bit arithmetic. The
server's reply word holds the page number that `get_memstruct_pagenum` found,
and a client adds the page's offset to where it takes the pages to start.

The server multiplies `uint32_t` values and the clients `int` values, so that
they differ where the number of bits of a picture passes 2³¹ (`picsize_eq`,
`picsize_of_ge`); xine keeps `width & 0x0F` bytes free before the pages, of
which the server knows nothing. And xine takes a reply only if `timed_semwait`
returned 0, which it does not where one came. `same_page_iff` says that nothing else
is wrong.
-/

namespace DShow.Protocol

open Pool DShow.Ring Run

/-- The value of an `int` expression. -/
def int32 (x : Int) : Int := x.bmod (2 ^ 32)

/-- What a client puts on the server's command line, and computes with. -/
structure Geometry where
  width : Nat
  height : Nat
  bits : Nat
  pagecount : Nat

/-- `sizeof(struct vd_struct)`. -/
def sizeofVdStruct : Nat := 48

/-- `SAFETY_SIZE`. -/
def safetySize : Nat := 1024

namespace Geometry

def pixels (g : Geometry) : Nat := g.width * g.height

def bitcount (g : Geometry) : Nat := g.width * g.height * g.bits

/-- `width * height * bits / 8` in `uint32_t`. -/
def bytes (g : Geometry) : Nat := wrap32 g.bitcount / 8

/-- The bytes of the segment, without any overflow. -/
def total (g : Geometry) : Nat :=
  sizeofVdStruct + g.pixels + g.bitcount / 8 + (g.bitcount / 8 + safetySize) * g.pagecount

end Geometry

/-! ## The three programs -/

/-- The server's variables, addresses in its own address space. -/
structure ServerLayout where
  pagesize : Int
  memsize : Int
  buffer : Nat
  picture : Nat
  base : Nat
  pool : MemStruct

/-- `main` of the server with the segment mapped at `mem`; it exits without a
size. -/
def serverLayout (g : Geometry) (mem : Nat) : Option ServerLayout :=
  if wrap32 g.pixels = 0 then none
  else
    let pagesize := int32 (g.bytes + safetySize)
    let base := wrap32 (mem + sizeofVdStruct + g.pixels + g.bytes)
    some {
      pagesize := pagesize
      memsize := int32 (sizeofVdStruct + g.pixels + g.bytes + pagesize * g.pagecount)
      buffer := wrap32 (mem + sizeofVdStruct)
      picture := wrap32 (mem + sizeofVdStruct + g.pixels)
      base := base
      pool := if g.pagecount ≠ 0 then setMemstruct base g.pagecount pagesize
        else setMemstruct 0 0 0 }

/-- A client's `ds_mpi_t`, pointers as offsets into the segment. MPlayer adds
`picsize` to `picture` where xine has `pagestart`. -/
structure DsMpi where
  data : Int
  picture : Int
  pagestart : Int
  picsize : Int
  pagesize : Int
  memsize : Int

/-- `picsize` of a client, `w * h * bpp / 8` in `int`. -/
def clientPicsize (g : Geometry) : Int := (int32 g.bitcount).tdiv 8

/-- `pagesize` of a client. -/
def clientPagesize (g : Geometry) : Int := int32 (clientPicsize g + 1024)

/-- What both clients compute, with `extra` bytes before the pages. -/
def clientLayout (g : Geometry) (extra : Nat) : DsMpi where
  data := sizeofVdStruct
  picture := sizeofVdStruct + int32 g.pixels
  pagestart := sizeofVdStruct + int32 g.pixels + clientPicsize g + extra
  picsize := clientPicsize g
  pagesize := clientPagesize g
  memsize := int32
    (sizeofVdStruct + g.pixels + clientPicsize g + extra + clientPagesize g * g.pagecount)

/-- `init` of MPlayer, where `extra` is 0. -/
def mplayerLayout (g : Geometry) : DsMpi := clientLayout g 0

/-- `dshowserver_decode_data` of xine at its first packet. -/
def xineLayout (g : Geometry) : DsMpi := clientLayout g (g.width &&& 0x0F)

/-- `unsigned char page = ret >> 8`. -/
def replyPage (ret : BitVec 32) : Nat := (ret >>> 8).toNat % 2 ^ 8

/-- Where a client finds the frame of a reply that it takes for one. -/
def DsMpi.frame (d : DsMpi) (ret : BitVec 32) : Option Int :=
  if ret ≠ 0 ∧ ret &&& 0x80000000 = 0 then
    some (if ret &&& 0x02 ≠ 0 then d.pagestart + int32 (replyPage ret * d.pagesize) else d.picture)
  else none

/-- MPlayer's `decode`, after a wait that returned `ok`. -/
def mplayerFrame (g : Geometry) (ok : Int) (ret : BitVec 32) : Option Int :=
  if ok = 1 then (mplayerLayout g).frame ret else none

/-- xine's `dshowserver_decode_data`, after a wait that returned `ok`. -/
def xineFrame (g : Geometry) (ok : Int) (ret : BitVec 32) : Option Int :=
  if ok = 0 then (xineLayout g).frame ret else none

/-! ## Arithmetic -/

theorem int32_of_lt {x : Int} (h₁ : -2 ^ 31 ≤ x) (h₂ : x < 2 ^ 31) : int32 x = x := by
  simp only [int32, Int.bmod]
  split <;> omega

variable {g : Geometry}

/-- Up to 2³¹ bits, the picture size of the clients is that of the server. -/
theorem picsize_eq (h : g.bitcount % 2 ^ 32 < 2 ^ 31) : clientPicsize g = g.bytes := by
  have e : int32 g.bitcount = (wrap32 g.bitcount : Nat) := by
    simp only [int32, Int.bmod, wrap32]
    split <;> omega
  simp only [clientPicsize, e, Geometry.bytes, Int.natCast_ediv]
  exact Int.tdiv_eq_ediv_of_nonneg (by omega)

/-- From there on it is not positive. -/
theorem picsize_of_ge (h : 2 ^ 31 ≤ g.bitcount % 2 ^ 32) :
    -2 ^ 28 ≤ clientPicsize g ∧ clientPicsize g ≤ 0 ∧ 2 ^ 28 ≤ g.bytes := by
  obtain ⟨n, e, hn⟩ : ∃ n : Nat, int32 g.bitcount = -n ∧ n ≤ 2 ^ 31 := by
    refine ⟨2 ^ 32 - g.bitcount % 2 ^ 32, ?_, by omega⟩
    simp only [int32, Int.bmod]
    split <;> omega
  simp only [clientPicsize, e, Int.neg_tdiv, Int.tdiv_eq_ediv_of_nonneg (Int.natCast_nonneg n),
    Geometry.bytes, wrap32]
  omega

/-- The picture and the pages of a segment of less than 2³¹ bytes, where only
the number of bits can wrap. -/
theorem bytes_bounds (ht : g.total < 2 ^ 31) :
    sizeofVdStruct + g.pixels + g.bytes + (g.bytes + safetySize) * g.pagecount < 2 ^ 31 ∧
      g.bytes * (g.pagecount + 1) < 2 ^ 31 := by
  have hle : g.bytes ≤ g.bitcount / 8 := by
    simp only [Geometry.bytes, wrap32]
    omega
  have hmul := Nat.mul_le_mul_right g.pagecount (Nat.add_le_add_right hle safetySize)
  simp only [Geometry.total] at ht
  refine ⟨by omega, ?_⟩
  rw [Nat.mul_succ]
  rw [Nat.add_mul] at hmul
  omega

/-- What the server computes for such a segment with pages in it. -/
theorem serverLayout_eq {mem : Nat} {l : ServerLayout} (hl : serverLayout g mem = some l)
    (ht : g.total < 2 ^ 31) (hc : 0 < g.pagecount) :
    l.pagesize = (g.bytes + safetySize : Nat) ∧
      l.memsize = (sizeofVdStruct + g.pixels + g.bytes + (g.bytes + safetySize) * g.pagecount : Nat) ∧
      (mem + l.memsize < 2 ^ 32 → l.base = mem + sizeofVdStruct + g.pixels + g.bytes) ∧
      l.pool = setMemstruct l.base g.pagecount l.pagesize := by
  obtain ⟨h, -⟩ := bytes_bounds ht
  have hle := Nat.le_mul_of_pos_right (g.bytes + safetySize) hc
  have hp : int32 (g.bytes + safetySize) = (g.bytes + safetySize : Nat) :=
    int32_of_lt (x := (g.bytes + safetySize : Nat)) (by omega) (by omega)
  have hm : int32 (sizeofVdStruct + g.pixels + g.bytes + (g.bytes + safetySize : Nat) * g.pagecount) =
      (sizeofVdStruct + g.pixels + g.bytes + (g.bytes + safetySize) * g.pagecount : Nat) :=
    int32_of_lt (x := (sizeofVdStruct + g.pixels + g.bytes + (g.bytes + safetySize) * g.pagecount : Nat))
      (by omega) (by omega)
  simp only [serverLayout] at hl
  split at hl <;> [cases hl; skip]
  simp only [hp, hm, Option.some.injEq] at hl
  subst hl
  refine ⟨rfl, rfl, fun hmem => ?_, if_pos (Nat.pos_iff_ne_zero.mp hc)⟩
  change mem + ((sizeofVdStruct + g.pixels + g.bytes + (g.bytes + safetySize) * g.pagecount : Nat) : Int) <
    2 ^ 32 at hmem
  have := MemStruct.wrap32_of_lt (n := mem + sizeofVdStruct + g.pixels + g.bytes) (by omega)
  push_cast at this
  exact this

theorem clientPagesize_eq (hb : g.bitcount % 2 ^ 32 < 2 ^ 31) (h : g.bytes + safetySize < 2 ^ 31) :
    clientPagesize g = (g.bytes + safetySize : Nat) := by
  have e : (g.bytes : Int) + 1024 = (g.bytes + safetySize : Nat) := by
    simp only [safetySize]
    omega
  rw [clientPagesize, picsize_eq hb, e]
  exact int32_of_lt (by omega) (by omega)

/-- Two multiples of a number that is larger than an offset. -/
theorem add_mul_eq_iff {q e i k : Nat} (he : e < q) : e + q * i = q * k ↔ i = k ∧ e = 0 := by
  refine ⟨fun h => ?_, fun ⟨hi, he⟩ => by rw [hi, he, Nat.zero_add]⟩
  have hm := congrArg (· % q) h
  simp only [Nat.add_mul_mod_self_left, Nat.mul_mod_right, Nat.mod_eq_of_lt he] at hm
  subst hm
  rw [Nat.zero_add] at h
  exact ⟨Nat.eq_of_mul_eq_mul_left he h, rfl⟩

/-- The page a client reads for the page number `i`, and the page `k` of the
server: nothing but a wrapped picture size or bytes before the pages keeps the
client from addressing page `i`. -/
theorem pagestart_eq_iff (ht : g.total < 2 ^ 31) {extra i k : Nat} (he : extra < 16)
    (hi : i ≤ g.pagecount) (hk : k < g.pagecount) :
    (clientLayout g extra).pagestart + int32 (i * (clientLayout g extra).pagesize) =
        (sizeofVdStruct + g.pixels + g.bytes + (g.bytes + safetySize) * k : Nat) ↔
      i = k ∧ g.bitcount % 2 ^ 32 < 2 ^ 31 ∧ extra = 0 := by
  obtain ⟨h, h'⟩ := bytes_bounds ht
  have hi' := Nat.mul_le_mul_left (g.bytes + safetySize) hi
  have hle := Nat.le_mul_of_pos_right (g.bytes + safetySize) (Nat.zero_lt_of_lt hk)
  have hq : extra < g.bytes + safetySize := by simp only [safetySize]; omega
  have hpix : int32 g.pixels = g.pixels := int32_of_lt (by omega) (by omega)
  simp only [clientLayout, hpix]
  clear hpix
  rcases Nat.lt_or_ge (g.bitcount % 2 ^ 32) (2 ^ 31) with hb | hb
  · have hmul : int32 (i * (g.bytes + safetySize : Nat)) = ((g.bytes + safetySize) * i : Nat) := by
      rw [mul_comm, ← Nat.cast_mul]
      exact int32_of_lt (by omega) (by omega)
    rw [picsize_eq hb, clientPagesize_eq hb (by clear hmul; omega), hmul]
    clear hmul
    simp only [hb, true_and]
    rw [← add_mul_eq_iff hq]
    omega
  · obtain ⟨h₁, h₂, h₃⟩ := picsize_of_ge hb
    refine ⟨fun heq => ?_, fun hc => absurd hc.2.1 (Nat.not_lt.mpr hb)⟩
    rw [clientPagesize] at heq
    generalize clientPicsize g = p at h₁ h₂ heq
    -- pictures of this size leave room for six pages
    have hi₆ : i ≤ 6 := by
      by_contra hlt
      have := Nat.mul_le_mul h₃ (show 8 ≤ g.pagecount + 1 by omega)
      omega
    have hmul : -(6 * 2 ^ 28) ≤ (i : Int) * (p + 1024) ∧ (i : Int) * (p + 1024) ≤ 6 * 1024 := by
      constructor <;> nlinarith
    rw [int32_of_lt (x := p + 1024) (by omega) (by omega),
      int32_of_lt (by omega) (by omega)] at heq
    omega

/-! ## The reply word -/

theorem replyPage_replyWord {i : Nat} (hi : i < 2 ^ 8) (interlace : Nat) :
    replyPage (replyWord i interlace) = i := by
  have hne : (i : Int) ≠ -1 := by omega
  simp only [replyPage, replyWord, if_pos hne]
  split <;> simp [BitVec.ushiftRight_or_distrib, Nat.shiftLeft_eq, Nat.shiftRight_eq_div_pow] <;> omega
theorem replyWord_lt {i : Nat} (hi : i < 2 ^ 8) (interlace : Nat) :
    (replyWord i interlace).toNat < 2 ^ 31 := by
  have hshift : (BitVec.ofNat 32 i <<< 8).toNat < 2 ^ 31 := by
    simp [Nat.shiftLeft_eq]
    omega
  have hpage : (0x02 ||| BitVec.ofNat 32 i <<< 8 ||| 0x01).toNat < 2 ^ 31 := by
    rw [BitVec.toNat_or, BitVec.toNat_or]
    exact Nat.or_lt_two_pow (Nat.or_lt_two_pow (by decide) hshift) (by decide)
  simp only [replyWord, if_pos (show (i : Int) ≠ -1 by omega), BitVec.ofInt_natCast]
  split
  · rw [BitVec.toNat_or]
    exact Nat.or_lt_two_pow hpage (by decide)
  · exact hpage

/-- A client takes a reply word with a page number for a frame in this page. -/
theorem frame_replyWord (d : DsMpi) {i : Nat} (hi : i < 2 ^ 8) (interlace : Nat) :
    d.frame (replyWord i interlace) = some (d.pagestart + int32 (i * d.pagesize)) := by
  have hbit : ∀ j < 2, (replyWord i interlace).getLsbD j = true := fun j hj => by
    simp only [replyWord, if_pos (show (i : Int) ≠ -1 by omega)]
    obtain rfl | rfl : j = 0 ∨ j = 1 := by omega
    all_goals split <;> simp
  have h₀ : replyWord i interlace ≠ 0 := fun h => by
    have := hbit 0 (by decide)
    rw [h] at this
    cases this
  have h₁ : replyWord i interlace &&& 0x02 ≠ 0 := fun h => by
    have := congrArg (fun x => x.getLsbD 1) h
    rw [BitVec.getLsbD_and, hbit 1 (by decide)] at this
    cases this
  have h₃₁ : replyWord i interlace &&& 0x80000000 = 0 := by
    rw [show (0x80000000 : BitVec 32) = BitVec.twoPow 32 31 from rfl, BitVec.and_twoPow, BitVec.getLsbD,
      Nat.testBit_lt_two_pow (replyWord_lt hi interlace)]
    rfl
  rw [DsMpi.frame, if_pos ⟨h₀, h₃₁⟩, if_pos h₁, replyPage_replyWord hi]

/-! ## Runs -/

/-- **When client and server address the same page.** The server's segment holds
less than 2³¹ bytes and lies in its address space. If in any run of a session
it answers a decode command with a frame at the start of page `k`, MPlayer, which
waits until the reply comes, finds the frame at its offset exactly if the page is
still in use and the number of bits of a picture does not wrap to a negative `int`.
xine takes no reply that comes; the frame that it would take the word for is that of
the server only if moreover the width is a multiple of 16. -/
theorem same_page_iff {g : Geometry} {mem : Nat} {l : ServerLayout}
    (hl : serverLayout g mem = some l) (ht : g.total < 2 ^ 31) (hmem : mem + l.memsize < 2 ^ 32)
    {input : Bool} {es : List Event} {s t : Session}
    (hr : exec Session.step (.fresh ⟨l.pool, []⟩ input) es = some s) {keep : Bool}
    (hd : s.step (.decode keep) = some t) {ret : BitVec 32} {pointer : Nat} {size : Int}
    (ha : t.phase = .answered ret pointer size) (hf : hasFrame ret = true) {k : Nat}
    (hk : k < g.pagecount) (hp : (pointer : Int) = l.base + l.pagesize * k)
    {client : Transport.Proc} {wait : Transport.Answers} (hw : client.Receives wait) :
    (mplayerFrame g (Transport.timedSemwait client wait).1 ret = some (pointer - mem : Int) ↔
      s.pool.mem.used k ≠ 0 ∧ g.bitcount % 2 ^ 32 < 2 ^ 31) ∧
    xineFrame g (Transport.timedSemwait client wait).1 ret = none ∧
    ((xineLayout g).frame ret = some (pointer - mem : Int) ↔
      s.pool.mem.used k ≠ 0 ∧ g.bitcount % 2 ^ 32 < 2 ^ 31 ∧ g.width % 16 = 0) := by
  obtain ⟨hsize, hmemsize, hbase, hpool⟩ := serverLayout_eq hl ht (Nat.zero_lt_of_lt hk)
  have hbase := hbase hmem
  obtain ⟨hfit, -⟩ := bytes_bounds ht
  rw [hmemsize] at hmem
  rw [hsize] at hpool hp
  have hle := Nat.le_mul_of_pos_right (g.bytes + safetySize) (Nat.zero_lt_of_lt hk)
  have hcount := Nat.le_mul_of_pos_left g.pagecount (show 0 < g.bytes + safetySize by
    simp only [safetySize]; omega)
  rw [show (⟨l.pool, []⟩ : PoolState) = .start l.base g.pagecount (g.bytes + safetySize) by
    rw [hpool]; rfl] at hr
  obtain ⟨hi, hsafe, ho⟩ := Session.run_pool (by simp only [safetySize]; omega) (by omega) (by omega)
    (by omega) hr
  -- the answer is about the first frame, and its page number is `i`
  obtain ⟨i, interlace, rfl, hi₁, hi₂, hik⟩ : ∃ (i : Nat) (interlace : Nat),
      ret = replyWord i interlace ∧ i ≤ g.pagecount ∧ i ≤ tableSize ∧
        (i = k ↔ s.pool.mem.used k ≠ 0) := by
    obtain ⟨page, interlace, hret, hpage⟩ := Session.decode_page hi hd ha hf
    have hin : s.pool.mem.InPage k pointer := by
      have := MemStruct.inPage_page hsafe.wf k
      rwa [MemStruct.page, ho.base_eq, ho.size_eq, show l.base + (g.bytes + safetySize) * k = pointer by
        zify; exact hp.symm] at this
    obtain ⟨i, rfl, hi₁, hi₂, hik⟩ :=
      MemStruct.getMemstructPagenum_spec hsafe.wf hin (ho.count_eq.symm ▸ hk) hpage
    exact ⟨i, interlace, hret, hi₁.trans_eq ho.count_eq, hi₂, hik⟩
  have hpage : (pointer : Int) - mem =
      (sizeofVdStruct + g.pixels + g.bytes + (g.bytes + safetySize) * k : Nat) := by
    push_cast at hp ⊢
    omega
  have hi₈ : i < 2 ^ 8 := Nat.lt_of_le_of_lt hi₂ (by decide)
  rw [hpage, ← hik, Transport.timedSemwait_receives hw]
  refine ⟨?_, if_neg (by decide), ?_⟩
  · rw [mplayerFrame, if_pos rfl, frame_replyWord _ hi₈, Option.some.injEq, mplayerLayout,
      pagestart_eq_iff ht (by decide) hi₁ hk]
    simp only [and_true]
  · rw [frame_replyWord _ hi₈, Option.some.injEq, xineLayout,
      Nat.and_two_pow_sub_one_eq_mod g.width 4, pagestart_eq_iff ht (Nat.mod_lt _ (by decide)) hi₁ hk]

/-- A client that is connected, and a wait in which a byte comes. -/
def connected : Transport.Proc := ⟨⟨.socket, true, 4, 3, [], 0, 0⟩, 0⟩

def byteComes : Transport.Answers := ⟨.ok 1, .ok 0, .ok 1, .ok 0, .ok 0, .ok 0⟩

/-- A width of 24: xine takes no reply, and would look for the frame eight bytes past
its start. -/
theorem not_same_page :
    Geometry.total ⟨24, 2, 16, 10⟩ < 2 ^ 31 ∧
    ∃ l, serverLayout ⟨24, 2, 16, 10⟩ 4096 = some l ∧
      ∃ s, exec Session.step (.fresh ⟨l.pool, []⟩ true) [.pool (.malloc 96 20000),
          .deliver ⟨none, some 4288, 96, 96, 0⟩, .freeFrame, .setPTS] = some s ∧
        s.pool.mem.used 0 ≠ 0 ∧ l.base + l.pagesize * 0 = 4288 ∧
        ∃ t, s.step (.decode false) = some t ∧ t.phase = .answered 0x03#32 4288 96 ∧
          connected.Receives byteComes ∧
          xineFrame ⟨24, 2, 16, 10⟩ (Transport.timedSemwait connected byteComes).1 0x03#32 ≠ some (4288 - 4096) ∧
          (xineLayout ⟨24, 2, 16, 10⟩).frame 0x03#32 = some (4288 - 4096 + 8) :=
  ⟨by decide, _, rfl, _, rfl, by decide, by decide, _, rfl, rfl, ⟨rfl, 1, rfl, by decide, rfl⟩, by decide, by decide⟩

/-- At a width of 32 MPlayer finds it, and xine would. -/
theorem same_page_iff_one :
    ∃ l, serverLayout ⟨32, 2, 16, 10⟩ 4096 = some l ∧
      ∃ s, exec Session.step (.fresh ⟨l.pool, []⟩ true) [.pool (.malloc 96 20000),
          .deliver ⟨none, some 4336, 96, 96, 0⟩, .freeFrame, .setPTS] = some s ∧
        mplayerFrame ⟨32, 2, 16, 10⟩ (Transport.timedSemwait connected byteComes).1 0x03#32 = some (4336 - 4096) ∧
        xineFrame ⟨32, 2, 16, 10⟩ (Transport.timedSemwait connected byteComes).1 0x03#32 = none ∧
        (xineLayout ⟨32, 2, 16, 10⟩).frame 0x03#32 = some (4336 - 4096) := by
  obtain ⟨l, hl, hm, hp⟩ : ∃ l, serverLayout ⟨32, 2, 16, 10⟩ 4096 = some l ∧
    4096 + l.memsize < 2 ^ 32 ∧ (4336 : Nat) = l.base + l.pagesize * (0 : Nat) :=
    ⟨_, rfl, by decide, by decide⟩
  obtain ⟨s, hr, hu, t, hd, ha⟩ : ∃ s, exec Session.step (.fresh ⟨l.pool, []⟩ true)
      [.pool (.malloc 96 20000), .deliver ⟨none, some 4336, 96, 96, 0⟩, .freeFrame, .setPTS] = some s ∧
      s.pool.mem.used 0 ≠ 0 ∧
      ∃ t, s.step (.decode false) = some t ∧ t.phase = .answered 0x03#32 4336 96 := by
    cases hl
    exact ⟨_, rfl, by decide, _, rfl, rfl⟩
  have := same_page_iff (g := ⟨32, 2, 16, 10⟩) hl (by decide) hm hr hd ha (by decide)
    (k := 0) (by decide) hp (show connected.Receives byteComes from ⟨rfl, 1, rfl, by decide, rfl⟩)
  exact ⟨l, hl, s, hr, this.1.mpr ⟨hu, by decide⟩, this.2.1, this.2.2.mpr ⟨hu, by decide, by decide⟩⟩

end DShow.Protocol
