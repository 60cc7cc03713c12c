import DShowServer.Protocol.Layout

/-!
# The server's layout in machine arithmetic

`main` computes the sizes of the segment from options that a user can set to
any 32-bit values. Its guard `width * height == 0` is itself computed modulo
2³², and nothing bounds the products: `layout_sound_iff` says for which options
the expressions have their integer values, so that the header, the input area,
the picture and the pages follow each other inside the segment.

`serverLayout_eq_layout` ties these expressions to `serverLayout`, which has
them as numbers.
-/

namespace DShow.Protocol

open Pool

/-- The options that `main` computes the layout from: `uint32_t width, height,
bits` and `int pagecount`. -/
structure SizeOptions where
  width : BitVec 32
  height : BitVec 32
  bits : BitVec 32
  pagecount : BitVec 32

namespace SizeOptions

/-- `width * height` as an integer. -/
def pixels (o : SizeOptions) : Nat := o.width.toNat * o.height.toNat

/-- `width * height * bits` as an integer. -/
def bitcount (o : SizeOptions) : Nat := o.width.toNat * o.height.toNat * o.bits.toNat

/-- The bytes of the segment as an integer. -/
def total (o : SizeOptions) : Int :=
  sizeofVdStruct + o.pixels + o.bitcount / 8 + (o.bitcount / 8 + safetySize) * o.pagecount.toInt

/-- The options as numbers. -/
def geometry (o : SizeOptions) : Geometry :=
  ⟨o.width.toNat, o.height.toNat, o.bits.toNat, o.pagecount.toNat⟩

end SizeOptions

/-- The server's variables in 32 bits: two `int`s and three pointers, `base`
being stored only where there are pages. -/
structure MachineLayout where
  pagesize : BitVec 32
  memsize : BitVec 32
  buffer : BitVec 32
  picture : BitVec 32
  base : BitVec 32
  pool : MemStruct

/-- The layout in `main`, with the segment mapped at `mem`; it exits without a
size. -/
def layout (o : SizeOptions) (mem : BitVec 32) : Option MachineLayout :=
  if o.width * o.height = 0 then none
  else
    let pagesize := o.width * o.height * o.bits / 8 + 1024
    let memsize := 48 + o.width * o.height + o.width * o.height * o.bits / 8 + pagesize * o.pagecount
    let base := mem + 48 + o.width * o.height + o.width * o.height * o.bits / 8
    some {
      pagesize := pagesize
      memsize := memsize
      buffer := mem + 48
      picture := mem + 48 + o.width * o.height
      base := base
      pool := if o.pagecount ≠ 0 then setMemstruct base.toNat o.pagecount.toInt pagesize.toInt
        else setMemstruct 0 0 0 }

/-- Part of the segment, by its offset. -/
structure Area where
  offset : Nat
  length : Nat

namespace MachineLayout

/-- The offset of page `k`, at the address `MALLOC` computes. -/
def pageOffset (l : MachineLayout) (mem : BitVec 32) (k : Nat) : Nat :=
  (BitVec.ofNat 32 (l.pool.base + l.pool.pagesize * k) - mem).toNat

/-- The header, `width * height` input bytes, `width * height * bits / 8`
picture bytes and the pages of the pool. -/
def areas (o : SizeOptions) (mem : BitVec 32) (l : MachineLayout) : List Area :=
  [⟨0, sizeofVdStruct⟩, ⟨(l.buffer - mem).toNat, o.pixels⟩, ⟨(l.picture - mem).toNat, o.bitcount / 8⟩] ++
    (List.range l.pool.pagecount).map fun k => ⟨l.pageOffset mem k, l.pool.pagesize⟩

/-- The variables have their integer values, and the areas follow each other
up to `memsize`. -/
structure Sound (o : SizeOptions) (mem : BitVec 32) (l : MachineLayout) : Prop where
  pagesize : l.pagesize.toInt = o.bitcount / 8 + safetySize
  memsize : l.memsize.toInt = o.total
  buffer : (l.buffer - mem).toNat = sizeofVdStruct
  picture : (l.picture - mem).toNat = sizeofVdStruct + o.pixels
  base : (l.base - mem).toNat = sizeofVdStruct + o.pixels + o.bitcount / 8
  /-- `memstruct.end`. -/
  endp : o.pagecount ≠ 0 → ((BitVec.ofNat 32 l.pool.endp - mem).toNat : Int) = o.total
  apart : (l.areas o mem).Pairwise fun a b => a.offset + a.length ≤ b.offset
  inside : ∀ a ∈ l.areas o mem, (a.offset + a.length : Int) ≤ l.memsize.toInt

end MachineLayout

/-! ## The expressions -/

variable {o : SizeOptions} {mem : BitVec 32} {l : MachineLayout}

theorem toNat_pixels (o : SizeOptions) : (o.width * o.height).toNat = o.pixels % 2 ^ 32 :=
  BitVec.toNat_mul ..

/-- The bytes of the picture are a wrapped product, divided. -/
theorem toNat_bytes (o : SizeOptions) :
    (o.width * o.height * o.bits / 8).toNat = o.bitcount % 2 ^ 32 / 8 := by
  simp only [BitVec.toNat_udiv, BitVec.toNat_mul, SizeOptions.bitcount, Nat.mod_mul_mod]
  rfl

/-- They are right up to 2³² bits. -/
theorem bytes_eq_iff (o : SizeOptions) : o.bitcount % 2 ^ 32 / 8 = o.bitcount / 8 ↔ o.bitcount < 2 ^ 32 := by
  omega

theorem pagesize_toInt (o : SizeOptions) :
    (o.width * o.height * o.bits / 8 + 1024 : BitVec 32).toInt =
      (o.bitcount % 2 ^ 32 / 8 + safetySize : Nat) := by
  have : (o.width * o.height * o.bits / 8 + 1024 : BitVec 32).toNat =
      o.bitcount % 2 ^ 32 / 8 + safetySize := by
    rw [BitVec.toNat_add, toNat_bytes]
    simp only [safetySize]
    show (_ + 1024) % _ = _
    omega
  rw [BitVec.toInt_eq_toNat_of_lt (by rw [this]; simp only [safetySize]; omega), this]

/-- `memsize` is the sum of the parts, reduced to an `int`. -/
theorem memsize_toInt (o : SizeOptions) :
    (48 + o.width * o.height + o.width * o.height * o.bits / 8 +
        (o.width * o.height * o.bits / 8 + 1024) * o.pagecount : BitVec 32).toInt =
      int32 (sizeofVdStruct + o.pixels + (o.bitcount % 2 ^ 32 / 8 : Nat) +
        (o.bitcount % 2 ^ 32 / 8 + safetySize : Nat) * o.pagecount.toInt) := by
  have e : ∀ x : BitVec 32, x = BitVec.ofInt 32 x.toNat := fun x => by simp
  have hpix : o.width * o.height = BitVec.ofInt 32 o.pixels := by
    rw [e o.width, e o.height, ← BitVec.ofInt_mul, SizeOptions.pixels]
    simp
  have hb := e (o.width * o.height * o.bits / 8)
  rw [toNat_bytes] at hb
  have hp : (o.width * o.height * o.bits / 8 + 1024 : BitVec 32) =
      BitVec.ofInt 32 (o.bitcount % 2 ^ 32 / 8 + safetySize : Nat) := by
    rw [← pagesize_toInt, BitVec.ofInt_toInt]
  rw [hp, hb, hpix, show (48 : BitVec 32) = BitVec.ofInt 32 sizeofVdStruct from rfl,
    ← BitVec.ofInt_add, ← BitVec.ofInt_add]
  nth_rewrite 1 [← BitVec.ofInt_toInt (x := o.pagecount)]
  rw [← BitVec.ofInt_mul, ← BitVec.ofInt_add, BitVec.toInt_ofInt]
  rfl

/-- An offset into the segment does not depend on where it is mapped. -/
theorem toNat_add_sub (mem x : BitVec 32) : (mem + 48 + x - mem).toNat = (48 + x.toNat) % 2 ^ 32 := by
  have e : mem + 48 + x - mem = 48 + x := by bv_omega
  rw [e, BitVec.toNat_add]
  rfl

theorem layout_eq_some :
    layout o mem = some l ↔ o.width * o.height ≠ 0 ∧ l = {
      pagesize := o.width * o.height * o.bits / 8 + 1024
      memsize := 48 + o.width * o.height + o.width * o.height * o.bits / 8 +
        (o.width * o.height * o.bits / 8 + 1024) * o.pagecount
      buffer := mem + 48
      picture := mem + 48 + o.width * o.height
      base := mem + 48 + o.width * o.height + o.width * o.height * o.bits / 8
      pool := if o.pagecount ≠ 0 then
          setMemstruct (mem + 48 + o.width * o.height + o.width * o.height * o.bits / 8).toNat
            o.pagecount.toInt (o.width * o.height * o.bits / 8 + 1024 : BitVec 32).toInt
        else setMemstruct 0 0 0 } := by
  rw [layout]
  split
  · rename_i h
    simp [h]
  · rename_i h
    simp only [Option.some.injEq, ne_eq, h, not_false_eq_true, true_and]
    exact eq_comm

/-! ## The layout as numbers -/

theorem wrap32_natCast (n : Nat) : wrap32 n = n % 2 ^ 32 := by
  simp only [wrap32]
  omega

/-- An `int` that is not negative is what it is as an `unsigned int`. -/
theorem toInt_of_nonneg {x : BitVec 32} (h : 0 ≤ x.toInt) : x.toInt = x.toNat := by
  have := x.isLt
  rw [BitVec.toInt_eq_toNat_cond] at *
  split at * <;> omega

/-- The expressions, read as numbers, are those of `serverLayout`. -/
theorem serverLayout_eq_layout (o : SizeOptions) (mem : BitVec 32) (hc : 0 ≤ o.pagecount.toInt) :
    serverLayout o.geometry mem.toNat = (layout o mem).map fun l =>
      ⟨l.pagesize.toInt, l.memsize.toInt, l.buffer.toNat, l.picture.toNat, l.base.toNat, l.pool⟩ := by
  have hcount := toInt_of_nonneg hc
  have hpix : wrap32 o.geometry.pixels = (o.width * o.height).toNat := by
    rw [toNat_pixels, wrap32_natCast]
    rfl
  have hbytes : o.geometry.bytes = (o.width * o.height * o.bits / 8).toNat := by
    rw [toNat_bytes, Geometry.bytes, wrap32_natCast]
    rfl
  have hsize : int32 ((o.geometry.bytes : Int) + safetySize) =
      (o.width * o.height * o.bits / 8 + 1024 : BitVec 32).toInt := by
    rw [pagesize_toInt, hbytes, toNat_bytes]
    exact int32_of_lt (x := (_ + safetySize : Nat)) (by omega) (by simp only [safetySize]; omega)
  have hmem : wrap32 (mem.toNat + sizeofVdStruct : Int) = (mem + 48).toNat := by
    rw [BitVec.toNat_add]
    exact wrap32_natCast (mem.toNat + sizeofVdStruct)
  have hpic : wrap32 (mem.toNat + sizeofVdStruct + o.geometry.pixels : Int) =
      (mem + 48 + o.width * o.height).toNat := by
    rw [BitVec.toNat_add, BitVec.toNat_add, toNat_pixels, ← Nat.add_mod]
    exact wrap32_natCast (mem.toNat + sizeofVdStruct + o.geometry.pixels)
  have hbase : wrap32 (mem.toNat + sizeofVdStruct + o.geometry.pixels + o.geometry.bytes : Int) =
      (mem + 48 + o.width * o.height + o.width * o.height * o.bits / 8).toNat := by
    rw [BitVec.toNat_add _ (_ / 8), ← hpic, ← hbytes]
    have e := wrap32_natCast (mem.toNat + sizeofVdStruct + o.geometry.pixels)
    have e' := wrap32_natCast (mem.toNat + sizeofVdStruct + o.geometry.pixels + o.geometry.bytes)
    push_cast at e e'
    rw [e, e', Nat.mod_add_mod]
  have hms := memsize_toInt o
  rw [← toNat_bytes, ← hbytes, hcount] at hms
  have h₀ : wrap32 o.geometry.pixels = 0 ↔ o.width * o.height = 0 := by
    rw [hpix]
    exact ⟨fun h => BitVec.eq_of_toNat_eq h, fun h => by rw [h]; rfl⟩
  have hn : o.geometry.pagecount ≠ 0 ↔ o.pagecount ≠ 0 :=
    not_congr ⟨fun h => BitVec.eq_of_toNat_eq h, fun h => by
      show o.pagecount.toNat = 0
      rw [h]; rfl⟩
  rw [serverLayout, layout]
  by_cases hz : o.width * o.height = 0
  · simp only [h₀.mpr hz, hz, if_true, Option.map_none]
  · simp only [mt h₀.mp hz, hz, if_false, Option.map_some, hsize, hmem, hpic, hbase, hn, hcount,
      Option.some.injEq, hms, pagesize_toInt]
    rw [← toNat_bytes, ← hbytes]
    rfl

/-! ## Options without overflow -/

/-- No product passes 2³² bits or a segment of 2³¹ bytes. -/
structure Fits (o : SizeOptions) : Prop where
  bitcount : o.bitcount < 2 ^ 32
  pagecount : 0 ≤ o.pagecount.toInt
  total : o.total < 2 ^ 31

/-- What of the segment lies before the pages, and up to the end of any page. -/
theorem Fits.bounds (h : Fits o) :
    o.pagecount.toInt = o.pagecount.toNat ∧
      o.total = (sizeofVdStruct + o.pixels + o.bitcount / 8 +
        (o.bitcount / 8 + safetySize) * o.pagecount.toNat : Nat) ∧
      sizeofVdStruct + o.pixels + o.bitcount / 8 +
        (o.bitcount / 8 + safetySize) * o.pagecount.toNat < 2 ^ 31 := by
  have hc := toInt_of_nonneg h.pagecount
  have ht : o.total = (sizeofVdStruct + o.pixels + o.bitcount / 8 +
      (o.bitcount / 8 + safetySize) * o.pagecount.toNat : Nat) := by
    rw [SizeOptions.total, hc]
    push_cast
    rfl
  exact ⟨hc, ht, by have := h.total; omega⟩

theorem Fits.pool_eq (h : Fits o) (hl : layout o mem = some l) :
    l.pool.pagecount = o.pagecount.toNat ∧
      (o.pagecount ≠ 0 → l.pool.base = l.base.toNat ∧
        l.pool.pagesize = o.bitcount / 8 + safetySize ∧
        l.pool.endp = wrap32 (l.base.toNat + (o.bitcount / 8 + safetySize : Nat) * o.pagecount.toNat)) := by
  obtain ⟨hc, -, -⟩ := h.bounds
  obtain ⟨-, rfl⟩ := layout_eq_some.mp hl
  by_cases h₀ : o.pagecount = 0
  · simp [h₀, setMemstruct, wrap32]
  simp only [ne_eq, h₀, not_false_eq_true, if_true, forall_const, setMemstruct, hc, pagesize_toInt,
    (bytes_eq_iff o).mpr h.bitcount]
  have hcount := o.pagecount.isLt
  have hbits := h.bitcount
  exact ⟨MemStruct.wrap32_of_lt hcount, trivial,
    MemStruct.wrap32_of_lt (by simp only [safetySize]; omega), trivial⟩

/-- The offsets of the three pointers. -/
theorem Fits.offsets (h : Fits o) (hl : layout o mem = some l) :
    (l.buffer - mem).toNat = sizeofVdStruct ∧
      (l.picture - mem).toNat = sizeofVdStruct + o.pixels ∧
      (l.base - mem).toNat = sizeofVdStruct + o.pixels + o.bitcount / 8 := by
  obtain ⟨-, -, hlt⟩ := h.bounds
  obtain ⟨-, rfl⟩ := layout_eq_some.mp hl
  have hpix := toNat_pixels o
  have hbytes := toNat_bytes o
  rw [(bytes_eq_iff o).mpr h.bitcount] at hbytes
  rw [Nat.mod_eq_of_lt (by omega)] at hpix
  simp only [sizeofVdStruct] at hlt ⊢
  refine ⟨?_, ?_, ?_⟩
  · have h0 := toNat_add_sub mem 0#32
    rwa [BitVec.add_zero] at h0
  · rw [toNat_add_sub, hpix]
    omega
  · have e := toNat_add_sub mem (o.width * o.height + o.width * o.height * o.bits / 8)
    rw [← BitVec.add_assoc] at e
    rw [e, BitVec.toNat_add, hpix, hbytes]
    omega

/-- An address `n` bytes after `base`. -/
theorem Fits.offset_add (h : Fits o) (hl : layout o mem = some l) {n : Nat}
    (hn : n ≤ (o.bitcount / 8 + safetySize) * o.pagecount.toNat) :
    (BitVec.ofNat 32 (l.base.toNat + n) - mem).toNat =
      sizeofVdStruct + o.pixels + o.bitcount / 8 + n := by
  obtain ⟨-, -, hlt⟩ := h.bounds
  obtain ⟨-, -, hbase⟩ := h.offsets hl
  have e : BitVec.ofNat 32 (l.base.toNat + n) - mem = l.base - mem + BitVec.ofNat 32 n := by
    rw [BitVec.ofNat_add, BitVec.ofNat_toNat, BitVec.setWidth_eq]
    bv_omega
  rw [e, BitVec.toNat_add, hbase, BitVec.toNat_ofNat]
  omega

theorem Fits.pageOffset (h : Fits o) (hl : layout o mem = some l) {k : Nat}
    (hk : k < o.pagecount.toNat) :
    l.pageOffset mem k =
      sizeofVdStruct + o.pixels + o.bitcount / 8 + (o.bitcount / 8 + safetySize) * k := by
  obtain ⟨hb, hs, -⟩ := (h.pool_eq hl).2 fun h₀ => by simp [h₀] at hk
  rw [MachineLayout.pageOffset, hb, hs]
  exact h.offset_add hl (Nat.mul_le_mul_left _ (Nat.le_of_lt hk))

/-- The end of the pool is that of the segment. -/
theorem Fits.endp (h : Fits o) (hl : layout o mem = some l) (h₀ : o.pagecount ≠ 0) :
    ((BitVec.ofNat 32 l.pool.endp - mem).toNat : Int) = o.total := by
  obtain ⟨-, ht, -⟩ := h.bounds
  obtain ⟨-, -, he⟩ := (h.pool_eq hl).2 h₀
  have e : wrap32 (l.base.toNat + (o.bitcount / 8 + safetySize : Nat) * o.pagecount.toNat : Int) =
      (l.base.toNat + (o.bitcount / 8 + safetySize) * o.pagecount.toNat) % 2 ^ 32 := by
    rw [← wrap32_natCast]
    push_cast
    rfl
  rw [he, e, show ∀ n, BitVec.ofNat 32 (n % 2 ^ 32) = BitVec.ofNat 32 n from fun n =>
    BitVec.eq_of_toNat_eq (by simp), h.offset_add hl (Nat.le_refl _), ht]

theorem Fits.areas_eq (h : Fits o) (hl : layout o mem = some l) :
    l.areas o mem =
      [⟨0, sizeofVdStruct⟩, ⟨sizeofVdStruct, o.pixels⟩, ⟨sizeofVdStruct + o.pixels, o.bitcount / 8⟩] ++
        (List.range o.pagecount.toNat).map fun k =>
          ⟨sizeofVdStruct + o.pixels + o.bitcount / 8 + (o.bitcount / 8 + safetySize) * k,
            o.bitcount / 8 + safetySize⟩ := by
  obtain ⟨hcount, hpool⟩ := h.pool_eq hl
  obtain ⟨hb, hp, -⟩ := h.offsets hl
  rw [MachineLayout.areas, hb, hp, hcount]
  refine congrArg _ (List.map_congr_left fun k hk => ?_)
  have hk := List.mem_range.mp hk
  rw [h.pageOffset hl hk, (hpool fun h₀ => by simp [h₀] at hk).2.1]

theorem Fits.memsize_eq (h : Fits o) (hl : layout o mem = some l) : l.memsize.toInt = o.total := by
  obtain ⟨hc, ht, hlt⟩ := h.bounds
  rw [(layout_eq_some.mp hl).2, memsize_toInt, (bytes_eq_iff o).mpr h.bitcount, hc, ht]
  rw [← int32_of_lt (x := (sizeofVdStruct + o.pixels + o.bitcount / 8 +
    (o.bitcount / 8 + safetySize) * o.pagecount.toNat : Nat)) (by omega) (by omega)]
  push_cast
  rfl

/-- Page `j` ends where the next begins, before any later offset. -/
theorem page_end_le (size : Nat) {j k : Nat} (hjk : j < k) : size * j + size ≤ size * k := by
  rw [← Nat.mul_succ]
  exact Nat.mul_le_mul_left size (Nat.succ_le_of_lt hjk)

theorem Fits.apart (h : Fits o) (hl : layout o mem = some l) :
    (l.areas o mem).Pairwise fun a b => a.offset + a.length ≤ b.offset := by
  rw [h.areas_eq hl, List.pairwise_append]
  refine ⟨by simp, List.pairwise_map.mpr ?_, ?_⟩
  · refine List.pairwise_lt_range.imp fun {j k} hjk => ?_
    have := page_end_le (o.bitcount / 8 + safetySize) hjk
    simp only
    omega
  · simp only [List.mem_map, List.mem_cons, List.not_mem_nil, or_false]
    rintro a ha b ⟨k, -, rfl⟩
    rcases ha with rfl | rfl | rfl <;> simp only <;> omega

theorem Fits.inside (h : Fits o) (hl : layout o mem = some l) :
    ∀ a ∈ l.areas o mem, (a.offset + a.length : Int) ≤ l.memsize.toInt := by
  obtain ⟨-, ht, -⟩ := h.bounds
  rw [h.areas_eq hl, h.memsize_eq hl, ht]
  simp only [List.mem_append, List.mem_map, List.mem_range, List.mem_cons, List.not_mem_nil, or_false]
  rintro a ((rfl | rfl | rfl) | ⟨k, hk, rfl⟩)
  · simp only
    omega
  · simp only
    omega
  · simp only
    omega
  · have := page_end_le (o.bitcount / 8 + safetySize) hk
    simp only
    omega

/-- Every product that wraps puts one of the variables wrong. -/
theorem MachineLayout.Sound.fits (h : l.Sound o mem) (hl : layout o mem = some l) : Fits o := by
  have hbits : o.bitcount < 2 ^ 32 := by
    have := h.pagesize
    rw [(layout_eq_some.mp hl).2, pagesize_toInt] at this
    exact (bytes_eq_iff o).mp (by omega)
  have hm := h.memsize
  rw [(layout_eq_some.mp hl).2, memsize_toInt, (bytes_eq_iff o).mpr hbits] at hm
  have hpic := h.inside ⟨(l.picture - mem).toNat, o.bitcount / 8⟩ (by simp [MachineLayout.areas])
  rw [h.picture, h.memsize] at hpic
  refine ⟨hbits, ?_, ?_⟩
  · by_contra hneg
    have := Int.mul_neg_of_pos_of_neg (a := (o.bitcount / 8 + safetySize : Nat))
      (by simp only [safetySize]; omega) (Int.not_le.mp hneg)
    simp only [SizeOptions.total] at hpic
    push_cast at hpic this
    omega
  · rw [← hm, int32]
    exact Int.bmod_lt (by decide)

/-- **The layout is sound exactly without overflow.** Wherever the server does
not exit, its expressions have their integer values and the areas follow each
other inside the segment if and only if `width * height * bits` is below 2³²,
the page count is not negative, and all the areas together are less than 2³¹
bytes. -/
theorem layout_sound_iff (o : SizeOptions) (mem : BitVec 32) {l : MachineLayout}
    (hl : layout o mem = some l) : l.Sound o mem ↔ Fits o := by
  refine ⟨fun h => h.fits hl, fun h => ?_⟩
  obtain ⟨hb, hp, hbase⟩ := h.offsets hl
  refine ⟨?_, h.memsize_eq hl, hb, hp, hbase, h.endp hl, h.apart hl, h.inside hl⟩
  rw [(layout_eq_some.mp hl).2, pagesize_toInt, (bytes_eq_iff o).mpr h.bitcount]
  push_cast
  rfl

/-- A picture of 2³² bits: none of its bytes are counted, so that the only page
starts where the picture does. -/
theorem not_sound :
    ∃ l, layout ⟨16384, 16384, 16, 1⟩ 4096 = some l ∧ l.picture = l.base ∧ l.pagesize = 1024 ∧
      ¬ l.Sound ⟨16384, 16384, 16, 1⟩ 4096 := by
  refine ⟨_, layout_eq_some.mpr ⟨by decide, rfl⟩, by decide, by decide, fun h => ?_⟩
  exact absurd h.pagesize (by decide)

/-- A television picture with ten pages. -/
theorem layout_sound_iff_one :
    ∃ l, layout ⟨720, 576, 16, 10⟩ 4096 = some l ∧ l.Sound ⟨720, 576, 16, 10⟩ 4096 := by
  have hl : layout ⟨720, 576, 16, 10⟩ 4096 = some _ := layout_eq_some.mpr ⟨by decide, rfl⟩
  exact ⟨_, hl, (layout_sound_iff _ _ hl).mpr ⟨by decide, by decide, by decide⟩⟩

end DShow.Protocol
