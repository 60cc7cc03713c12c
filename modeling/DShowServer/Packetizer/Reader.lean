import DShowServer.Framework.Bits
import DShowServer.Framework.Probe

/-!
# The bit reader of the packetizer (nal_parser.c)

`read_bits` takes bits off a byte at a time and stops where the buffer's length
says that it ends. `Left` ties the position of a reader to the bits that are
left of the bytes that may be read, and `Follows` a function on the reader to a
reader of bits: it takes the same bits and finds the same value, and where the
bits do not suffice and the buffer is said to be longer than it is, it reads a
byte that is not there.
-/

namespace DShow.Packetizer

open Bits

/-- `struct buf_reader`; `cur_offset` is the number of bits of the byte at
`cur_pos` that were not read yet. -/
structure BufReader where
  buf : Nat
  cur_pos : Nat
  len : Nat
  cur_offset : Nat
deriving DecidableEq

/-- A function on a reader. -/
abbrev Read (α : Type) := StateT BufReader Probe α

/-- A reader at its start. -/
def BufReader.start (buf len : Nat) : BufReader := ⟨buf, buf, len, 8⟩

/-- `i_mask[len]`. -/
def iMask (len : Nat) : BitVec 32 := BitVec.ofNat 32 (2 ^ len - 1)

theorem Read.run_bind {α β : Type} (x : Read α) (f : α → Read β) (r : BufReader) (m : Memory) :
    ((x >>= f) r).run m = ((x r).run m).bind fun p => (f p.1 p.2).run m := rfl

/-- `*addr`, as an `int`. -/
def byteAt (addr : Nat) : Read (BitVec 32) := do
  let x ← Probe.byte addr
  pure (BitVec.ofNat 32 x.toNat)

theorem run_byteAt (addr : Nat) (r : BufReader) (m : Memory) :
    (byteAt addr r).run m = (m addr).map fun x => (BitVec.ofNat 32 x.toNat, r) := by
  rw [byteAt, Read.run_bind]
  show ((m addr).bind fun x => some (x, r)).bind _ = _
  cases m addr <;> rfl

/-- The loop of `read_bits`, of at most `fuel` rounds. A shift by 32 or more takes
its count modulo 32, as the processor does. -/
def readLoop : Nat → BitVec 32 → Nat → Read (BitVec 32)
  | 0, bits, _ => pure bits
  | fuel + 1, bits, len => do
    let r ← get
    if 0 < len ∧ r.cur_pos - r.buf < r.len then
      let x ← byteAt r.cur_pos
      if len ≤ r.cur_offset then
        let bits := bits ||| ((x >>> (r.cur_offset - len)) &&& iMask len)
        set (if r.cur_offset - len = 0 then { r with cur_pos := r.cur_pos + 1, cur_offset := 8 }
          else { r with cur_offset := r.cur_offset - len })
        pure bits
      else
        let bits := bits ||| ((x &&& iMask r.cur_offset) <<< ((len - r.cur_offset) % 32))
        set { r with cur_pos := r.cur_pos + 1, cur_offset := 8 }
        readLoop fuel bits (len - r.cur_offset)
    else pure bits

/-- `read_bits`: every round takes a bit at least. -/
def readBits (len : Nat) : Read (BitVec 32) := readLoop len 0 len

/-- The loop of `read_exp_golomb`, which is left when `leading_zero_bits` is 32. -/
def leadingZeroBits : Nat → Read Nat
  | 0 => do
    let _ ← readBits 1
    pure 0
  | n + 1 => do
    let b ← readBits 1
    if b = 0 then do
      let k ← leadingZeroBits n
      pure (k + 1)
    else pure 0

/-- `read_exp_golomb`. -/
def readExpGolomb : Read (BitVec 32) := do
  let k ← leadingZeroBits 32
  let x ← readBits k
  pure ((1#32 <<< (k % 32)) - 1 + x)

/-- `read_exp_golomb_s`. -/
def readExpGolombS : Read (BitVec 32) := do
  let ue ← readExpGolomb
  pure (if ue &&& 1 ≠ 0 then (ue + 1) / 2 else -(ue / 2))

/-! ## Readers always return -/

/-- Where every byte is there the function has a result. -/
def Read.Total {α : Type} (x : Read α) : Prop := ∀ r, (x r).Total

namespace Read.Total

variable {α β : Type}

theorem pure (a : α) : Total (Pure.pure a) := fun r => Probe.Total.pure (a, r)

theorem get : Total MonadState.get := fun r => Probe.Total.pure (r, r)

theorem set (r : BufReader) : Total (MonadState.set r) := fun _ => Probe.Total.pure (PUnit.unit, r)

theorem bind {x : Read α} {f : α → Read β} (h : Total x) (hf : ∀ a, Total (f a)) : Total (x >>= f) :=
  fun r => (h r).bind fun p => hf p.1 p.2

theorem ite {c : Prop} [Decidable c] {x y : Read α} (h : Total x) (h' : Total y) :
    Total (if c then x else y) := by
  split
  · exact h
  · exact h'

theorem byteAt (addr : Nat) : Total (byteAt addr) := by
  intro r f
  rw [run_byteAt]
  exact ⟨_, rfl⟩

theorem readLoop (fuel : Nat) (bits : BitVec 32) (len : Nat) : Total (readLoop fuel bits len) := by
  induction fuel generalizing bits len with
  | zero => exact .pure bits
  | succ fuel ih =>
    exact get.bind fun r => .ite ((byteAt r.cur_pos).bind fun x => .ite
      ((set _).bind fun _ => .pure _) ((set _).bind fun _ => ih _ _)) (.pure bits)

theorem readBits (len : Nat) : Total (readBits len) := readLoop len 0 len

theorem leadingZeroBits (n : Nat) : Total (leadingZeroBits n) := by
  induction n with
  | zero => exact (readBits 1).bind fun _ => .pure 0
  | succ n ih => exact (readBits 1).bind fun b => .ite (ih.bind fun k => .pure (k + 1)) (.pure 0)

theorem readExpGolomb : Total readExpGolomb :=
  (leadingZeroBits 32).bind fun k => (readBits k).bind fun _ => .pure _

theorem readExpGolombS : Total readExpGolombS := readExpGolomb.bind fun _ => .pure _

end Read.Total

/-! ## The bits that are left -/

/-- What is left of the bytes `mem`, of which the reader was told at least so
many. -/
structure Left (mem : List UInt8) (r : BufReader) (bs : List Bool) : Prop where
  buf_le : r.buf ≤ r.cur_pos
  pos_le : r.cur_pos ≤ mem.length
  len_le : mem.length ≤ r.buf + r.len
  offset_pos : 0 < r.cur_offset
  offset_le : r.cur_offset ≤ 8
  bits_eq : bs = (ofBytes (mem.drop r.cur_pos)).drop (8 - r.cur_offset)

/-- The function takes the bits that the reader of bits takes, with a related
result; if they do not suffice it reads past the bytes, where the buffer is said
to go on. -/
def Follows {α β : Type} (R : α → β → Prop) (x : Read α) (y : BitReader β) : Prop :=
  ∀ mem r bs, Left mem r bs →
    (∀ b rest, y bs = some (b, rest) →
      ∃ a r', (x r).run (.ofList mem) = some (a, r') ∧ R a b ∧ Left mem r' rest ∧
        r'.buf = r.buf ∧ r'.len = r.len) ∧
    (y bs = none → mem.length < r.buf + r.len → (x r).run (.ofList mem) = none)

namespace Follows

variable {α β γ δ : Type} {R : α → β → Prop} {S : γ → δ → Prop}

theorem pure {a : α} {b : β} (h : R a b) : Follows R (Pure.pure a) (Pure.pure b) := by
  intro mem r bs hl
  refine ⟨fun b' rest hy => ?_, fun hy => (by cases hy)⟩
  cases hy
  exact ⟨a, r, rfl, h, hl, rfl, rfl⟩

theorem bind {x : Read α} {y : BitReader β} {f : α → Read γ} {g : β → BitReader δ}
    (h : Follows R x y) (hf : ∀ a b, R a b → Follows S (f a) (g b)) : Follows S (x >>= f) (y >>= g) := by
  intro mem r bs hl
  obtain ⟨hsome, hnone⟩ := h mem r bs hl
  have hbits : (y >>= g) bs = (y bs).bind fun (b, mid) => g b mid := rfl
  rw [Read.run_bind, hbits]
  cases hy : y bs with
  | none =>
    refine ⟨fun _ _ h => (by cases h), fun _ hshort => ?_⟩
    rw [hnone hy hshort]
    rfl
  | some p =>
    obtain ⟨b, mid⟩ := p
    obtain ⟨a, r', hx, hR, hl', hbuf, hlen⟩ := hsome b mid hy
    obtain ⟨hsome', hnone'⟩ := hf a b hR mem r' mid hl'
    rw [hx, Option.bind_some, Option.bind_some]
    refine ⟨fun d rest hd => ?_, fun hd hshort => hnone' hd (by rwa [hbuf, hlen])⟩
    obtain ⟨c, r'', hc, hS, hl'', hbuf', hlen'⟩ := hsome' d rest hd
    exact ⟨c, r'', hc, hS, hl'', hbuf'.trans hbuf, hlen'.trans hlen⟩

/-- A function of what is read. -/
theorem map {x : Read α} {y : BitReader β} (h : Follows R x y) (f : β → δ) {R' : α → δ → Prop}
    (hR : ∀ a b, R a b → R' a (f b)) : Follows R' x (y >>= fun b => Pure.pure (f b)) := by
  intro mem r bs hl
  obtain ⟨hsome, hnone⟩ := h mem r bs hl
  constructor
  · intro d rest hd
    obtain ⟨b, mid, hy, hd⟩ := BitReader.bind_eq_some.mp hd
    cases hd
    obtain ⟨a, r', hx, ha, hrest⟩ := hsome b _ hy
    exact ⟨a, r', hx, hR a b ha, hrest⟩
  · intro hd hshort
    refine hnone ?_ hshort
    rcases Option.bind_eq_none_iff.mp (show (y bs).bind _ = none from hd) with h
    cases hy : y bs with
    | none => rfl
    | some p => exact absurd (h p hy) (fun h => by cases h)

/-- A function of what the reader finds. -/
theorem map' {x : Read α} {y : BitReader β} (h : Follows R x y) {f : α → γ} {S : γ → β → Prop}
    (hS : ∀ a b, R a b → S (f a) b) : Follows S (x >>= fun a => Pure.pure (f a)) y := by
  intro mem r bs hl
  obtain ⟨hsome, hnone⟩ := h mem r bs hl
  rw [Read.run_bind]
  constructor
  · intro b rest hy
    obtain ⟨a, r', hx, ha, hrest⟩ := hsome b rest hy
    exact ⟨f a, r', by rw [hx]; rfl, hS a b ha, hrest⟩
  · intro hy hshort
    rw [hnone hy hshort]
    rfl

/-- Related results may be less related. -/
theorem imp {x : Read α} {y : BitReader β} {R' : α → β → Prop} (h : Follows R x y)
    (hR : ∀ a b, R a b → R' a b) : Follows R' x y := by
  intro mem r bs hl
  obtain ⟨hsome, hnone⟩ := h mem r bs hl
  refine ⟨fun b rest hy => ?_, hnone⟩
  obtain ⟨a, r', hx, ha, hrest⟩ := hsome b rest hy
  exact ⟨a, r', hx, hR a b ha, hrest⟩

end Follows

/-! ## Reading bits -/

/-- The byte at the position, of which `cur_offset` bits are left. -/
theorem Left.cons {mem : List UInt8} {r : BufReader} {bs : List Bool} (h : Left mem r bs)
    (hlt : r.cur_pos < mem.length) :
    bs = fixed r.cur_offset mem[r.cur_pos].toNat ++ ofBytes (mem.drop (r.cur_pos + 1)) := by
  have hle : 8 - r.cur_offset ≤ (fixed 8 mem[r.cur_pos].toNat).length := by
    rw [length_fixed]; omega
  rw [h.bits_eq, List.drop_eq_getElem_cons hlt, ofBytes_cons, List.drop_append_of_le_length hle,
    drop_fixed (by omega), show 8 - (8 - r.cur_offset) = r.cur_offset by have := h.offset_le; omega]

theorem Left.nil {mem : List UInt8} {r : BufReader} {bs : List Bool} (h : Left mem r bs)
    (heq : ¬ r.cur_pos < mem.length) : bs = [] := by
  rw [h.bits_eq, List.drop_eq_nil_of_le (Nat.not_lt.mp heq)]
  exact List.drop_nil

/-- The next byte. -/
theorem Left.next {mem : List UInt8} {r : BufReader} {bs : List Bool} (h : Left mem r bs)
    (hlt : r.cur_pos < mem.length) :
    Left mem { r with cur_pos := r.cur_pos + 1, cur_offset := 8 } (ofBytes (mem.drop (r.cur_pos + 1))) :=
  ⟨Nat.le_succ_of_le h.buf_le, hlt, h.len_le, Nat.succ_pos 7, Nat.le_refl 8, rfl⟩

theorem run_readLoop (fuel : Nat) (acc : BitVec 32) (len : Nat) (r : BufReader) (m : Memory) :
    (readLoop (fuel + 1) acc len r).run m =
      if 0 < len ∧ r.cur_pos - r.buf < r.len then (m r.cur_pos).bind fun x =>
        if len ≤ r.cur_offset then
          some (acc ||| ((BitVec.ofNat 32 x.toNat >>> (r.cur_offset - len)) &&& iMask len),
            if r.cur_offset - len = 0 then { r with cur_pos := r.cur_pos + 1, cur_offset := 8 }
            else { r with cur_offset := r.cur_offset - len })
        else (readLoop fuel
          (acc ||| ((BitVec.ofNat 32 x.toNat &&& iMask r.cur_offset) <<< ((len - r.cur_offset) % 32)))
          (len - r.cur_offset) { r with cur_pos := r.cur_pos + 1, cur_offset := 8 }).run m
      else some (acc, r) := by
  show ((if 0 < len ∧ r.cur_pos - r.buf < r.len then _ else _ : Read (BitVec 32)) r).run m = _
  split
  · rw [Read.run_bind, run_byteAt]
    cases m r.cur_pos with
    | none => rfl
    | some x =>
      rw [Option.map_some, Option.bind_some, Option.bind_some]
      split
      · rfl
      · rfl
  · rfl

theorem iMask_toNat {len : Nat} (h : len ≤ 32) : (iMask len).toNat = 2 ^ len - 1 := by
  have : 2 ^ len ≤ 2 ^ 32 := Nat.pow_le_pow_right Nat.two_pos h
  have := Nat.two_pow_pos len
  rw [iMask, BitVec.toNat_ofNat, Nat.mod_eq_of_lt (by omega)]

/-- The `len` bits of a byte above its `k` lowest. -/
theorem and_iMask {x len k : Nat} (hx : x < 256) (h : len ≤ 32) :
    (BitVec.ofNat 32 x >>> k) &&& iMask len = BitVec.ofNat 32 (value (fixed len (x >>> k))) := by
  have hshift : x >>> k ≤ x := Nat.shiftRight_le x k
  have hmod : (x >>> k) % 2 ^ len ≤ x >>> k := Nat.mod_le _ _
  apply BitVec.eq_of_toNat_eq
  rw [BitVec.toNat_and, iMask_toNat h, Nat.and_two_pow_sub_one_eq_mod, BitVec.toNat_ushiftRight,
    BitVec.toNat_ofNat, Nat.mod_eq_of_lt (show x < 2 ^ 32 by omega), value_fixed, BitVec.toNat_ofNat]
  exact (Nat.mod_eq_of_lt (Nat.lt_of_le_of_lt (hmod.trans hshift) (by omega))).symm

/-- Bits shifted in front of others. -/
theorem shiftLeft_or (x : BitVec 32) {k b : Nat} (hk : k < 32) (hb : b < 2 ^ k) :
    (x <<< (k % 32)) ||| BitVec.ofNat 32 b = BitVec.ofNat 32 (x.toNat * 2 ^ k + b) := by
  rw [← Nat.shiftLeft_eq, Nat.shiftLeft_add_eq_or_of_lt hb, BitVec.ofNat_or, Nat.mod_eq_of_lt hk]
  congr 1

/-- What `read_bits` makes of `len` bits, if it is not asked for more than 32. -/
def IsValue (len : Nat) (acc a : BitVec 32) (bits : List Bool) : Prop :=
  bits.length = len ∧ (len ≤ 32 → a = acc ||| BitVec.ofNat 32 (value bits))

theorem isValue_nil (acc : BitVec 32) : IsValue 0 acc acc [] := ⟨rfl, fun _ => BitVec.or_zero.symm⟩

theorem take_zero (bs : List Bool) : BitReader.take 0 bs = some ([], bs) := rfl

section

variable {mem : List UInt8} {r : BufReader} {bs : List Bool} {len : Nat}

/-- Bits that lie in the current byte. -/
theorem Left.take_within (h : Left mem r bs) (hlt : r.cur_pos < mem.length) (hle : len ≤ r.cur_offset) :
    BitReader.take len bs = some (fixed len (mem[r.cur_pos].toNat >>> (r.cur_offset - len)), bs.drop len) ∧
    Left mem (if r.cur_offset - len = 0 then { r with cur_pos := r.cur_pos + 1, cur_offset := 8 }
      else { r with cur_offset := r.cur_offset - len }) (bs.drop len) := by
  have hbits := h.cons hlt
  have hsuff : len ≤ bs.length := by rw [hbits, List.length_append, length_fixed]; omega
  have htake : bs.take len = fixed len (mem[r.cur_pos].toNat >>> (r.cur_offset - len)) := by
    rw [hbits, List.take_append_of_le_length (by rwa [length_fixed]), take_fixed hle]
  refine ⟨by rw [BitReader.take, if_pos hsuff, htake], ?_⟩
  split
  · rename_i h0
    rw [hbits, List.drop_append_of_le_length (by rwa [length_fixed]), drop_fixed hle, h0]
    exact h.next hlt
  · have hoff := h.offset_le
    refine ⟨h.buf_le, h.pos_le, h.len_le, by dsimp only; omega, by dsimp only; omega, ?_⟩
    rw [h.bits_eq, List.drop_drop]
    congr 1
    dsimp only
    omega

/-- Bits that go on in the next byte. -/
theorem Left.take_across (h : Left mem r bs) (hlt : r.cur_pos < mem.length) (hgt : r.cur_offset < len) :
    BitReader.take len bs = (BitReader.take (len - r.cur_offset) (ofBytes (mem.drop (r.cur_pos + 1)))).map
      fun p => (fixed r.cur_offset mem[r.cur_pos].toNat ++ p.1, p.2) := by
  have hbits := h.cons hlt
  have hsuff : len ≤ bs.length ↔ len - r.cur_offset ≤ (ofBytes (mem.drop (r.cur_pos + 1))).length := by
    rw [hbits, List.length_append, length_fixed]
    omega
  unfold BitReader.take
  split
  · rename_i hle
    have htake : (fixed r.cur_offset mem[r.cur_pos].toNat).take len = fixed r.cur_offset mem[r.cur_pos].toNat :=
      List.take_of_length_le (by rw [length_fixed]; omega)
    have hdrop : (fixed r.cur_offset mem[r.cur_pos].toNat).drop len = [] :=
      List.drop_eq_nil_of_le (by rw [length_fixed]; omega)
    rw [if_pos (hsuff.mp hle), hbits, List.take_append, List.drop_append, length_fixed, htake, hdrop]
    rfl
  · rename_i hle
    rw [if_neg (fun h' => hle (hsuff.mpr h'))]
    rfl

/-- The value of the bits is put together from both bytes. -/
theorem IsValue.across {x k : Nat} {acc a : BitVec 32} {rest : List Bool} (hx : x < 256) (hgt : k < len)
    (hk : 0 < k ∧ k ≤ 8)
    (h : IsValue (len - k) (acc ||| ((BitVec.ofNat 32 x &&& iMask k) <<< ((len - k) % 32))) a rest) :
    IsValue len acc a (fixed k x ++ rest) := by
  obtain ⟨hlen, hval⟩ := h
  refine ⟨by rw [List.length_append, length_fixed, hlen]; omega, fun hle => ?_⟩
  have hlow : (BitVec.ofNat 32 x &&& iMask k).toNat = value (fixed k x) := by
    rw [BitVec.toNat_and, iMask_toNat (by omega), Nat.and_two_pow_sub_one_eq_mod, value_fixed,
      BitVec.toNat_ofNat, Nat.mod_eq_of_lt (show x < 2 ^ 32 by omega)]
  have hrest := value_lt rest
  rw [hlen] at hrest
  rw [hval (by omega), BitVec.or_assoc, shiftLeft_or _ (by omega) hrest, value_append, hlen, hlow]

end

section

variable {mem : List UInt8} {r : BufReader} {bs : List Bool} {len : Nat}

/-- The loop at a byte that has the bits. -/
theorem Left.run_within (h : Left mem r bs) (hlt : r.cur_pos < mem.length) (hpos : 0 < len)
    (hle : len ≤ r.cur_offset) (fuel : Nat) (acc : BitVec 32) :
    (readLoop (fuel + 1) acc len r).run (.ofList mem) =
      some (acc ||| ((BitVec.ofNat 32 mem[r.cur_pos].toNat >>> (r.cur_offset - len)) &&& iMask len),
        if r.cur_offset - len = 0 then { r with cur_pos := r.cur_pos + 1, cur_offset := 8 }
        else { r with cur_offset := r.cur_offset - len }) := by
  have hbuf := h.buf_le
  have hlen := h.len_le
  rw [run_readLoop, if_pos ⟨hpos, by omega⟩, show Memory.ofList mem r.cur_pos = some mem[r.cur_pos] from
    List.getElem?_eq_getElem hlt, Option.bind_some, if_pos hle]

/-- The loop at a byte behind which it goes on. -/
theorem Left.run_across (h : Left mem r bs) (hlt : r.cur_pos < mem.length) (hgt : r.cur_offset < len)
    (fuel : Nat) (acc : BitVec 32) :
    (readLoop (fuel + 1) acc len r).run (.ofList mem) = (readLoop fuel
      (acc ||| ((BitVec.ofNat 32 mem[r.cur_pos].toNat &&& iMask r.cur_offset) <<< ((len - r.cur_offset) % 32)))
      (len - r.cur_offset) { r with cur_pos := r.cur_pos + 1, cur_offset := 8 }).run (.ofList mem) := by
  have hbuf := h.buf_le
  have hlen := h.len_le
  rw [run_readLoop, if_pos ⟨by omega, by omega⟩, show Memory.ofList mem r.cur_pos = some mem[r.cur_pos] from
    List.getElem?_eq_getElem hlt, Option.bind_some, if_neg (Nat.not_le.mpr hgt)]

end

theorem run_readLoop_zero (fuel : Nat) (acc : BitVec 32) (r : BufReader) (m : Memory) :
    (readLoop fuel acc 0 r).run m = some (acc, r) := by
  cases fuel with
  | zero => rfl
  | succ fuel => rw [run_readLoop, if_neg (fun h => absurd h.1 (Nat.lt_irrefl 0))]

theorem readLoop_follows {fuel len : Nat} (hfuel : len ≤ fuel) (acc : BitVec 32) :
    Follows (IsValue len acc) (readLoop fuel acc len) (BitReader.take len) := by
  induction fuel generalizing len acc with
  | zero =>
    obtain rfl : len = 0 := Nat.le_zero.mp hfuel
    exact .pure (isValue_nil acc)
  | succ fuel ih =>
    intro mem r bs hl
    rcases Nat.eq_zero_or_pos len with rfl | hpos
    · rw [run_readLoop_zero, take_zero]
      refine ⟨fun b rest hy => ?_, fun hy => (by cases hy)⟩
      cases hy
      exact ⟨acc, r, rfl, isValue_nil acc, hl, rfl, rfl⟩
    by_cases hlt : r.cur_pos < mem.length
    · have hbyte : mem[r.cur_pos].toNat < 256 := UInt8.toNat_lt _
      by_cases hle : len ≤ r.cur_offset
      · obtain ⟨htake, hleft⟩ := hl.take_within hlt hle
        rw [hl.run_within hlt hpos hle, htake]
        refine ⟨fun b rest hy => ?_, fun hy => (by cases hy)⟩
        cases hy
        refine ⟨_, _, rfl, ⟨length_fixed _ _, fun hlen => by rw [and_iMask hbyte hlen]⟩, hleft, ?_, ?_⟩
        · split <;> rfl
        · split <;> rfl
      · have hgt := Nat.not_le.mp hle
        have hoff := hl.offset_pos
        obtain ⟨hsome, hnone⟩ := ih (show len - r.cur_offset ≤ fuel by omega)
          (acc ||| ((BitVec.ofNat 32 mem[r.cur_pos].toNat &&& iMask r.cur_offset) <<<
            ((len - r.cur_offset) % 32))) mem _ _ (hl.next hlt)
        rw [hl.run_across hlt hgt, hl.take_across hlt hgt]
        refine ⟨fun b rest hy => ?_, fun hy hshort => hnone (Option.map_eq_none_iff.mp hy) hshort⟩
        obtain ⟨⟨bits, rest'⟩, hrest, hy⟩ := Option.map_eq_some_iff.mp hy
        cases hy
        obtain ⟨a, r', hrun, hval, hleft, hb, hn⟩ := hsome bits _ hrest
        exact ⟨a, r', hrun, hval.across hbyte hgt ⟨hoff, hl.offset_le⟩, hleft, hb, hn⟩
    · -- there is no byte
      have hbuf := hl.buf_le
      have hpos' := hl.pos_le
      rw [hl.nil hlt, BitReader.take, if_neg (by rw [List.length_nil]; omega)]
      refine ⟨fun b rest hy => (by cases hy), fun _ hshort => ?_⟩
      rw [run_readLoop, if_pos ⟨hpos, by omega⟩, show Memory.ofList mem r.cur_pos = none from
        List.getElem?_eq_none (Nat.not_lt.mp hlt)]
      rfl

/-- A number of up to 32 bits. -/
def IsNat (a : BitVec 32) (x : Nat) : Prop := x + 1 < 2 ^ 32 → a = BitVec.ofNat 32 x

theorem readBits_follows (len : Nat) : Follows (IsValue len 0) (readBits len) (BitReader.take len) :=
  readLoop_follows (Nat.le_refl len) 0

theorem readBits_number (len : Nat) :
    Follows (fun a x => len ≤ 32 → a = BitVec.ofNat 32 x) (readBits len) (BitReader.fixed len) :=
  (readBits_follows len).map value fun _ _ h hle => (h.2 hle).trans BitVec.zero_or

theorem leadingZeroBits_follows (n : Nat) : Follows Eq (leadingZeroBits n) (zeros n) := by
  induction n with
  | zero => exact (readBits_follows 1).bind fun _ _ _ => .pure rfl
  | succ n ih =>
    refine (readBits_follows 1).bind fun a b hab => ?_
    obtain ⟨hlen, hval⟩ := hab
    obtain ⟨c, rfl⟩ := List.length_eq_one_iff.mp hlen
    rw [hval (by decide)]
    cases c with
    | true => exact .pure rfl
    | false => exact ih.bind fun _ _ h => .pure (by rw [h])

/-- The number of an Exp-Golomb code of `k` zeros. -/
theorem sub_one_add {k : Nat} (hk : k < 32) (x : Nat) :
    (1#32 <<< k) - 1 + BitVec.ofNat 32 x = BitVec.ofNat 32 (2 ^ k - 1 + x) := by
  have hpos := Nat.two_pow_pos k
  have hpow : 2 ^ k < 2 ^ 32 := Nat.pow_lt_pow_right (by omega) hk
  have hshift : 1#32 <<< k = BitVec.ofNat 32 (2 ^ k) := by
    rw [← Nat.one_shiftLeft]
    rfl
  apply BitVec.eq_of_toNat_eq
  have hone : BitVec.toNat (1 : BitVec 32) = 1 := rfl
  rw [hshift, BitVec.toNat_add, BitVec.toNat_sub, hone, BitVec.toNat_ofNat, BitVec.toNat_ofNat,
    BitVec.toNat_ofNat]
  omega

theorem readExpGolomb_follows : Follows IsNat readExpGolomb (expGolomb 32) := by
  refine (leadingZeroBits_follows 32).bind fun k _ hk => ?_
  subst hk
  refine (readBits_number k).bind fun a x hax => .pure fun hlt => ?_
  have hk : k < 32 := by
    by_contra hk
    have := Nat.pow_le_pow_right Nat.two_pos (Nat.not_lt.mp hk)
    omega
  rw [hax (by omega), Nat.mod_eq_of_lt hk]
  exact sub_one_add hk x

/-- The signed codes are read like the others, whatever they stand for. -/
theorem readExpGolombS_follows : Follows (fun _ _ => True) readExpGolombS (expGolomb 32) :=
  readExpGolomb_follows.map' fun _ _ _ => trivial

/-! ## Reading a known code -/

/-- What a function makes of some bits, whatever follows them. -/
def Reads {α : Type} (x : Read α) (bits : List Bool) (P : α → Prop) : Prop :=
  ∀ mem r rest, Left mem r (bits ++ rest) →
    ∃ a r', (x r).run (.ofList mem) = some (a, r') ∧ P a ∧ Left mem r' rest

theorem Follows.reads {α β : Type} {R : α → β → Prop} {x : Read α} {y : BitReader β} {b : β}
    {bits : List Bool} (h : Follows R x y) (hy : Takes y b bits) : Reads x bits fun a => R a b := by
  intro mem r rest hl
  obtain ⟨a, r', hx, hR, hl', -⟩ := (h mem r _ hl).1 b rest (hy rest)
  exact ⟨a, r', hx, hR, hl'⟩

namespace Reads

variable {α β : Type} {x : Read α} {xs ys : List Bool} {P P' : α → Prop} {Q : β → Prop}

theorem pure {a : α} (h : P a) : Reads (Pure.pure a) [] P := fun _ r _ hl => ⟨a, r, rfl, h, hl⟩

theorem bind {f : α → Read β} (h : Reads x xs P) (hf : ∀ a, P a → Reads (f a) ys Q) :
    Reads (x >>= f) (xs ++ ys) Q := by
  intro mem r rest hl
  rw [List.append_assoc] at hl
  obtain ⟨a, r', hx, ha, hl'⟩ := h mem r _ hl
  obtain ⟨b, r'', hb, hQ, hl''⟩ := hf a ha mem r' rest hl'
  exact ⟨b, r'', by rw [Read.run_bind, hx, Option.bind_some, hb], hQ, hl''⟩

/-- A last step that takes no bits. -/
theorem bind_nil {f : α → Read β} (h : Reads x xs P) (hf : ∀ a, P a → Reads (f a) [] Q) :
    Reads (x >>= f) xs Q := by
  have := h.bind hf
  rwa [List.append_nil] at this

theorem imp (h : Reads x xs P) (hP : ∀ a, P a → P' a) : Reads x xs P' := by
  intro mem r rest hl
  obtain ⟨a, r', hx, ha, hl'⟩ := h mem r rest hl
  exact ⟨a, r', hx, hP a ha, hl'⟩

/-- A function of what is read. -/
theorem map {f : α → β} (h : Reads x xs P) (hf : ∀ a, P a → Q (f a)) :
    Reads (x >>= fun a => Pure.pure (f a)) xs Q :=
  h.bind_nil fun a ha => pure (hf a ha)

end Reads

theorem readBits_reads (bits : List Bool) (hlen : bits.length ≤ 32) :
    Reads (readBits bits.length) bits fun a => a = BitVec.ofNat 32 (value bits) :=
  ((readBits_follows bits.length).reads (.take bits rfl)).imp fun a ha => by
    rw [ha.2 hlen]
    exact BitVec.zero_or

theorem readExpGolomb_reads {x : Nat} (hx : x + 1 < 2 ^ 32) :
    Reads readExpGolomb (golomb x) fun a => a = BitVec.ofNat 32 x :=
  (readExpGolomb_follows.reads (.golomb hx)).imp fun _ ha => ha hx

theorem readExpGolombS_reads {x : Nat} (hx : x + 1 < 2 ^ 32) :
    Reads readExpGolombS (golomb x) fun _ => True :=
  readExpGolombS_follows.reads (.golomb hx)

end DShow.Packetizer
