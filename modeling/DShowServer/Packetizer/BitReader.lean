import DShowServer.Packetizer.SequenceParameterSet

/-!
# The position of the bit reader

A reader that stands in its buffer (`InBuffer`) has so many bits behind it
(`bitPos`) and others before it (`bitsLeft`). `readLoop_skips` is the loop of
`read_bits` by its three cases: bits of one byte, bits that go on in the next
byte, and the end of the buffer; so `read_bits` moves the position by the bits
it is asked for, or to the end, and finds them as a number, with zeros for those
that are not there. The Exp-Golomb functions are then runs of it. Their loops
are also given as the source has them, without a bound on their rounds (`Loops`):
they end whatever lies in the buffer, with what the functions find.
-/

namespace DShow.Packetizer

open Bits

/-- How many bits of the buffer lie before the position. -/
def BufReader.bitPos (r : BufReader) : Nat := 8 * (r.cur_pos - r.buf) + (8 - r.cur_offset)

/-- The position is in the buffer or at its end, behind which no byte may be
read. -/
structure InBuffer (mem : List UInt8) (r : BufReader) : Prop where
  ends : mem.length = r.buf + r.len
  buf_le : r.buf ≤ r.cur_pos
  offset_pos : 0 < r.cur_offset
  offset_le : r.cur_offset ≤ 8
  bitPos_le : r.bitPos ≤ 8 * r.len

/-- The bits of the buffer from the position on. -/
def bitsLeft (mem : List UInt8) (r : BufReader) : List Bool := (ofBytes (mem.drop r.buf)).drop r.bitPos

/-- The reader went on by `n` bits, or to the end. -/
structure Skips (mem : List UInt8) (n : Nat) (r r' : BufReader) : Prop where
  inside : InBuffer mem r'
  buf_eq : r'.buf = r.buf
  len_eq : r'.len = r.len
  left_eq : bitsLeft mem r' = (bitsLeft mem r).drop n

section

variable {mem : List UInt8} {r r' r'' : BufReader} {n k : Nat}

theorem bitsLeft_eq (h : r.buf ≤ r.cur_pos) :
    bitsLeft mem r = (ofBytes (mem.drop r.cur_pos)).drop (8 - r.cur_offset) := by
  rw [bitsLeft, BufReader.bitPos, ← List.drop_drop, drop_ofBytes, List.drop_drop, Nat.add_sub_cancel' h]

theorem InBuffer.length_left (h : InBuffer mem r) : r.bitPos + (bitsLeft mem r).length = 8 * r.len := by
  have hle := h.bitPos_le
  rw [bitsLeft, List.length_drop, length_ofBytes, List.length_drop, h.ends]
  omega

theorem InBuffer.pos_le (h : InBuffer mem r) : r.cur_pos ≤ mem.length := by
  have hbuf := h.buf_le
  have hle := h.bitPos_le
  have hends := h.ends
  unfold BufReader.bitPos at hle
  omega

theorem InBuffer.left (h : InBuffer mem r) : Left mem r (bitsLeft mem r) :=
  ⟨h.buf_le, h.pos_le, Nat.le_of_eq h.ends, h.offset_pos, h.offset_le, bitsLeft_eq h.buf_le⟩

/-- Two positions before the same bits are the same. -/
theorem InBuffer.eq (h : InBuffer mem r) (h' : InBuffer mem r') (hbuf : r.buf = r'.buf)
    (hlen : r.len = r'.len) (hleft : bitsLeft mem r = bitsLeft mem r') : r = r' := by
  have hpos := h.length_left
  have hpos' := h'.length_left
  obtain ⟨-, hb, ho, ho', -⟩ := h
  obtain ⟨-, hb', hp, hp', -⟩ := h'
  rw [hleft] at hpos
  obtain ⟨buf, cur_pos, len, cur_offset⟩ := r
  obtain ⟨buf', cur_pos', len', cur_offset'⟩ := r'
  simp only [BufReader.bitPos] at *
  subst hbuf hlen
  rw [BufReader.mk.injEq]
  omega

namespace Skips

theorem refl (h : InBuffer mem r) : Skips mem 0 r r := ⟨h, rfl, rfl, rfl⟩

theorem trans (h : Skips mem n r r') (h' : Skips mem k r' r'') : Skips mem (n + k) r r'' :=
  ⟨h'.inside, h'.buf_eq.trans h.buf_eq, h'.len_eq.trans h.len_eq, by
    rw [h'.left_eq, h.left_eq, List.drop_drop]⟩

theorem eq (h : Skips mem n r r') (h' : Skips mem n r r'') : r' = r'' :=
  h.inside.eq h'.inside (h.buf_eq.trans h'.buf_eq.symm) (h.len_eq.trans h'.len_eq.symm)
    (h.left_eq.trans h'.left_eq.symm)

theorem bitPos_eq (h : Skips mem n r r') (hr : InBuffer mem r) (hle : r.bitPos + n ≤ 8 * r.len) :
    r'.bitPos = r.bitPos + n := by
  have hleft := hr.length_left
  have hleft' := h.inside.length_left
  rw [h.left_eq, h.len_eq, List.length_drop] at hleft'
  omega

end Skips

/-- Other bits are left at another position of the buffer. -/
theorem InBuffer.skips (h : InBuffer mem r) (hl : Left mem r' ((bitsLeft mem r).drop n))
    (hbuf : r'.buf = r.buf) (hlen : r'.len = r.len) (hle : r'.bitPos ≤ 8 * r'.len) : Skips mem n r r' :=
  ⟨⟨by rw [hbuf, hlen, h.ends], hl.buf_le, hl.offset_pos, hl.offset_le, hle⟩, hbuf, hlen,
    (bitsLeft_eq hl.buf_le).trans hl.bits_eq.symm⟩

/-! ## Reading bits -/

/-- Bits of one byte. -/
theorem InBuffer.skips_within (h : InBuffer mem r) (hlt : r.cur_pos < mem.length) (hle : n ≤ r.cur_offset) :
    Skips mem n r (if r.cur_offset - n = 0 then { r with cur_pos := r.cur_pos + 1, cur_offset := 8 }
      else { r with cur_offset := r.cur_offset - n }) := by
  have hleft := (h.left.take_within hlt hle).2
  have hends := h.ends
  have hbuf := h.buf_le
  split at hleft
  · rename_i h0
    rw [if_pos h0]
    exact h.skips hleft rfl rfl (by simp only [BufReader.bitPos]; omega)
  · rename_i h0
    rw [if_neg h0]
    exact h.skips hleft rfl rfl (by simp only [BufReader.bitPos]; omega)

/-- The rest of a byte. -/
theorem InBuffer.skips_byte (h : InBuffer mem r) (hlt : r.cur_pos < mem.length) :
    Skips mem r.cur_offset r { r with cur_pos := r.cur_pos + 1, cur_offset := 8 } := by
  have := h.skips_within hlt (Nat.le_refl r.cur_offset)
  rwa [if_pos (Nat.sub_self _)] at this

/-- The end of the buffer, where every bit is missing. -/
theorem InBuffer.skips_end (h : InBuffer mem r) (hge : ¬ r.cur_pos - r.buf < r.len) (n : Nat) :
    bitsLeft mem r = [] ∧ Skips mem n r r := by
  have hnil : bitsLeft mem r = [] := h.left.nil (by have := h.ends; have := h.buf_le; omega)
  exact ⟨hnil, h, rfl, rfl, by rw [hnil, List.drop_nil]⟩

/-- The bits of a byte and of what follows it. -/
theorem InBuffer.padded_across (h : InBuffer mem r) (hlt : r.cur_pos < mem.length) (hgt : r.cur_offset < n) :
    padded n (bitsLeft mem r) = fixed r.cur_offset mem[r.cur_pos].toNat ++
      padded (n - r.cur_offset) (bitsLeft mem { r with cur_pos := r.cur_pos + 1, cur_offset := 8 }) := by
  have hbits := padded_append (n - r.cur_offset) (fixed r.cur_offset mem[r.cur_pos].toNat)
    (ofBytes (mem.drop (r.cur_pos + 1)))
  rw [length_fixed, Nat.add_sub_cancel' hgt.le, ← h.left.cons hlt] at hbits
  rw [hbits, bitsLeft_eq (Nat.le_succ_of_le h.buf_le)]
  rfl

theorem readLoop_skips {fuel len : Nat} (hfuel : len ≤ fuel) (acc : BitVec 32) (h : InBuffer mem r) :
    ∃ a r', (readLoop fuel acc len r).run (.ofList mem) = some (a, r') ∧ Skips mem len r r' ∧
      IsValue len acc a (padded len (bitsLeft mem r)) := by
  induction fuel generalizing len acc r with
  | zero =>
    obtain rfl : len = 0 := Nat.le_zero.mp hfuel
    exact ⟨acc, r, rfl, .refl h, isValue_nil acc⟩
  | succ fuel ih =>
    rcases Nat.eq_zero_or_pos len with rfl | hpos
    · exact ⟨acc, r, run_readLoop_zero _ _ _ _, .refl h, isValue_nil acc⟩
    by_cases hin : r.cur_pos - r.buf < r.len
    · have hlt : r.cur_pos < mem.length := by have := h.ends; have := h.buf_le; omega
      have hbyte : mem[r.cur_pos].toNat < 256 := UInt8.toNat_lt _
      by_cases hle : len ≤ r.cur_offset
      · obtain ⟨htake, -⟩ := h.left.take_within hlt hle
        refine ⟨_, _, h.left.run_within hlt hpos hle fuel acc, h.skips_within hlt hle, ?_⟩
        rw [BitReader.padded_of_take htake]
        exact ⟨length_fixed _ _, fun hlen => by rw [and_iMask hbyte hlen]⟩
      · have hgt := Nat.not_le.mp hle
        have hoff := h.offset_pos
        have hskip := h.skips_byte hlt
        obtain ⟨a, r', hrun, hskip', hval⟩ := ih (show len - r.cur_offset ≤ fuel by omega)
          (acc ||| ((BitVec.ofNat 32 mem[r.cur_pos].toNat &&& iMask r.cur_offset) <<<
            ((len - r.cur_offset) % 32))) hskip.inside
        refine ⟨a, r', (h.left.run_across hlt hgt fuel acc).trans hrun, ?_, ?_⟩
        · have := hskip.trans hskip'
          rwa [Nat.add_sub_cancel' hgt.le] at this
        · rw [h.padded_across hlt hgt]
          exact hval.across hbyte hgt ⟨hoff, h.offset_le⟩
    · obtain ⟨hnil, hskip⟩ := h.skips_end hin len
      refine ⟨acc, r, by rw [run_readLoop, if_neg (fun h => hin h.2)], hskip, ?_⟩
      rw [hnil, padded_nil]
      exact ⟨List.length_replicate, fun _ => by rw [value_replicate_false]; exact BitVec.or_zero.symm⟩

/-- `read_bits` goes on by the bits it is asked for, or to the end, and has zeros
for those that are not there. -/
theorem readBits_skips (h : InBuffer mem r) (n : Nat) :
    ∃ a r', (readBits n r).run (.ofList mem) = some (a, r') ∧ Skips mem n r r' ∧
      (n ≤ 32 → a.toNat = value (padded n (bitsLeft mem r))) := by
  obtain ⟨a, r', hrun, hskip, -, hval⟩ := readLoop_skips (Nat.le_refl n) 0 h
  refine ⟨a, r', hrun, hskip, fun hn => ?_⟩
  have hlt := value_lt (padded n (bitsLeft mem r))
  have hpow : 2 ^ n ≤ 2 ^ 32 := Nat.pow_le_pow_right Nat.two_pos hn
  rw [length_padded] at hlt
  rw [hval hn, show (0 : BitVec 32) = 0#32 from rfl, BitVec.zero_or, BitVec.toNat_ofNat,
    Nat.mod_eq_of_lt (by omega)]

/-- `read_bits` finds the next bits, highest first, and goes on by so many; bits read
in two calls are those read in one; and it never reads a byte behind the buffer,
whatever length it is given (a negative one is none). -/
theorem readBits_next (h : InBuffer mem r) :
    (∀ n, n ≤ 32 → n ≤ (bitsLeft mem r).length →
      ∃ a r', (readBits n r).run (.ofList mem) = some (a, r') ∧
        a.toNat = value ((bitsLeft mem r).take n) ∧ r'.bitPos = r.bitPos + n ∧ InBuffer mem r' ∧
        r'.buf = r.buf ∧ r'.len = r.len) ∧
    (∀ n k, n + k ≤ 32 → ∃ x y z r₁ r₂, (readBits n r).run (.ofList mem) = some (x, r₁) ∧
      (readBits k r₁).run (.ofList mem) = some (y, r₂) ∧
      (readBits (n + k) r).run (.ofList mem) = some (z, r₂) ∧ z.toNat = x.toNat * 2 ^ k + y.toNat) ∧
    (∀ n : Int, ∃ p, ∀ m, (Memory.ofList mem).Le m → (readBits n.toNat r).run m = some p) := by
  refine ⟨fun n hn hle => ?_, fun n k hnk => ?_, fun n => ?_⟩
  · obtain ⟨a, r', hrun, hskip, hval⟩ := readBits_skips h n
    have hpos : r'.bitPos = r.bitPos + n := hskip.bitPos_eq h (by have := h.length_left; omega)
    exact ⟨a, r', hrun, (hval hn).trans (by rw [padded_of_le hle]), hpos, hskip.inside, hskip.buf_eq,
      hskip.len_eq⟩
  · obtain ⟨x, r₁, hx, hskip₁, hxval⟩ := readBits_skips h n
    obtain ⟨y, r₂, hy, hskip₂, hyval⟩ := readBits_skips hskip₁.inside k
    obtain ⟨z, r₃, hz, hskip₃, hzval⟩ := readBits_skips h (n + k)
    rw [hskip₃.eq (hskip₁.trans hskip₂)] at hz
    refine ⟨x, y, z, r₁, r₂, hx, hy, hz, ?_⟩
    rw [hzval hnk, hxval (by omega), hyval (by omega), padded_add, value_append, length_padded,
      hskip₁.left_eq]
  · obtain ⟨a, r', hrun, -⟩ := readBits_skips h n.toNat
    exact ⟨(a, r'), fun m hm => (readBits n.toNat r).mono hm hrun⟩

/-- Seven bits across the end of a byte. -/
theorem readBits_next_across : ∃ a r', (readBits 7 ⟨1, 1, 2, 5⟩).run (.ofList [0xff, 0xa5, 0x3c]) =
    some (a, r') ∧ a.toNat = 0b0010100 ∧ r'.bitPos = 10 := by
  have h : InBuffer [0xff, 0xa5, 0x3c] ⟨1, 1, 2, 5⟩ :=
    ⟨rfl, by decide, by decide, by decide, by decide⟩
  obtain ⟨a, r', hrun, hval, hpos, -⟩ := (readBits_next h).1 7 (by decide) (by decide +kernel)
  exact ⟨a, r', hrun, hval.trans (by decide +kernel), hpos⟩

/-! ## The loops of the source -/

/-- A loop: a round leads to the next one or out of it. -/
inductive Loops {σ ρ : Type} (round : σ → σ ⊕ ρ → Prop) : σ → ρ → Prop
  | out {s : σ} {a : ρ} : round s (.inr a) → Loops round s a
  | again {s s' : σ} {a : ρ} : round s (.inl s') → Loops round s' a → Loops round s a

/-- A round of the loop of `read_bits`, on `bits`, `len` and the reader. -/
def readRound (m : Memory) : BitVec 32 × Nat × BufReader →
    Option ((BitVec 32 × Nat × BufReader) ⊕ (BitVec 32 × BufReader))
  | (bits, len, r) =>
    if 0 < len ∧ r.cur_pos - r.buf < r.len then (m r.cur_pos).bind fun x =>
      let x := BitVec.ofNat 32 x.toNat
      if len ≤ r.cur_offset then
        some (.inr (bits ||| ((x >>> (r.cur_offset - len)) &&& iMask len),
          if r.cur_offset - len = 0 then { r with cur_pos := r.cur_pos + 1, cur_offset := 8 }
          else { r with cur_offset := r.cur_offset - len }))
      else
        some (.inl (bits ||| ((x &&& iMask r.cur_offset) <<< ((len - r.cur_offset) % 32)),
          len - r.cur_offset, { r with cur_pos := r.cur_pos + 1, cur_offset := 8 }))
    else some (.inr (bits, r))

/-- `read_bits` returns. -/
def ReadsBits (m : Memory) (len : Nat) (r : BufReader) (a : BitVec 32) (r' : BufReader) : Prop :=
  Loops (fun s t => readRound m s = some t) (0, len, r) (a, r')

/-- A round of the loop of `read_exp_golomb`, on `leading_zero_bits` and the reader. -/
def zerosRound (m : Memory) : Nat × BufReader → (Nat × BufReader) ⊕ (Nat × BufReader) → Prop
  | (k, r), t => ∃ b r', ReadsBits m 1 r b r' ∧
    t = if b = 0 ∧ k < 32 then .inl (k + 1, r') else .inr (k, r')

/-- `read_exp_golomb` returns. -/
def ReadsExpGolomb (m : Memory) (r : BufReader) (x : BitVec 32) (r' : BufReader) : Prop :=
  ∃ k r₁ y, Loops (zerosRound m) (0, r) (k, r₁) ∧ ReadsBits m k r₁ y r' ∧
    x = (1#32 <<< (k % 32)) - 1 + y

/-- `read_exp_golomb_s` returns. -/
def ReadsExpGolombS (m : Memory) (r : BufReader) (x : BitVec 32) (r' : BufReader) : Prop :=
  ∃ ue, ReadsExpGolomb m r ue r' ∧ x = if ue &&& 1 ≠ 0 then (ue + 1) / 2 else -(ue / 2)

/-- A round is a round of the function. -/
theorem run_readLoop_round (fuel : Nat) (acc : BitVec 32) (len : Nat) (r : BufReader) (m : Memory) :
    (readLoop (fuel + 1) acc len r).run m = (readRound m (acc, len, r)).bind
      (Sum.elim (fun s => (readLoop fuel s.1 s.2.1 s.2.2).run m) some) := by
  rw [run_readLoop, readRound]
  split
  · cases m r.cur_pos with
    | none => rfl
    | some x =>
      rw [Option.bind_some, Option.bind_some]
      dsimp only
      split <;> rfl
  · rfl

/-- A round that is not the last takes a bit at least. -/
theorem readRound_inl {m : Memory} {bits bits' : BitVec 32} {len len' : Nat}
    (hround : readRound m (bits, len, r) = some (.inl (bits', len', r'))) (hoff : 0 < r.cur_offset) :
    len' < len ∧ 0 < r'.cur_offset := by
  rw [readRound] at hround
  split at hround
  · obtain ⟨x, -, hround⟩ := Option.bind_eq_some_iff.mp hround
    dsimp only at hround
    split at hround
    · cases hround
    · cases hround
      exact ⟨by omega, Nat.succ_pos 7⟩
  · cases hround

/-- The bound on the rounds of `readLoop` ends no loop. -/
theorem readLoop_loops {m : Memory} {fuel len : Nat} (hfuel : len ≤ fuel) {acc a : BitVec 32}
    (hoff : 0 < r.cur_offset) (hrun : (readLoop fuel acc len r).run m = some (a, r')) :
    Loops (fun s t => readRound m s = some t) (acc, len, r) (a, r') := by
  induction fuel generalizing acc len r with
  | zero =>
    obtain rfl : len = 0 := Nat.le_zero.mp hfuel
    cases hrun
    refine .out ?_
    rw [readRound, if_neg (fun h => absurd h.1 (Nat.lt_irrefl 0))]
  | succ fuel ih =>
    rw [run_readLoop_round] at hrun
    obtain ⟨t, hround, hrun⟩ := Option.bind_eq_some_iff.mp hrun
    cases t with
    | inl s =>
      obtain ⟨acc', len', r₁⟩ := s
      obtain ⟨hlt, hoff'⟩ := readRound_inl hround hoff
      exact .again hround (ih (by omega) hoff' hrun)
    | inr p =>
      cases hrun
      exact .out hround

/-- `read_bits` returns, with what the function finds. -/
theorem readBits_returns (h : InBuffer mem r) (n : Nat) :
    ∃ a r', ReadsBits (.ofList mem) n r a r' ∧ (readBits n r).run (.ofList mem) = some (a, r') ∧
      Skips mem n r r' := by
  obtain ⟨a, r', hrun, hskip, -⟩ := readBits_skips h n
  exact ⟨a, r', readLoop_loops (Nat.le_refl n) h.offset_pos hrun, hrun, hskip⟩

/-- From `leading_zero_bits` on, of which the function has counted the rest down. The loop takes one
bit more than it counts. -/
theorem leadingZeroBits_returns (h : InBuffer mem r) {n z : Nat} (hn : z + n = 32) :
    ∃ k r', Loops (zerosRound (.ofList mem)) (z, r) (z + k, r') ∧
      (leadingZeroBits n r).run (.ofList mem) = some (k, r') ∧ Skips mem (k + 1) r r' := by
  induction n generalizing r z with
  | zero =>
    obtain ⟨b, r₁, hreads, hrun, hskip⟩ := readBits_returns h 1
    refine ⟨0, r₁, .out ⟨b, r₁, hreads, ?_⟩, by rw [leadingZeroBits, Read.run_bind, hrun]; rfl, hskip⟩
    exact (if_neg (by omega)).symm
  | succ n ih =>
    obtain ⟨b, r₁, hreads, hrun, hskip⟩ := readBits_returns h 1
    rw [leadingZeroBits, Read.run_bind, hrun, Option.bind_some]
    dsimp only
    split
    · rename_i hb
      obtain ⟨k, r', hloops, hzeros, hskip'⟩ := ih hskip.inside (by omega : z + 1 + n = 32)
      refine ⟨k + 1, r', .again ⟨b, r₁, hreads, (if_pos ⟨hb, by omega⟩).symm⟩ ?_, ?_, ?_⟩
      · rwa [Nat.add_comm k, ← Nat.add_assoc]
      · rw [Read.run_bind, hzeros]
        rfl
      · have := hskip.trans hskip'
        rwa [Nat.add_comm 1] at this
    · rename_i hb
      exact ⟨0, r₁, .out ⟨b, r₁, hreads, (if_neg (fun h => hb h.1)).symm⟩, rfl, hskip⟩

theorem readExpGolomb_returns (h : InBuffer mem r) :
    ∃ x r' n, ReadsExpGolomb (.ofList mem) r x r' ∧
      (readExpGolomb r).run (.ofList mem) = some (x, r') ∧ Skips mem n r r' := by
  obtain ⟨k, r₁, hloops, hzeros, hskip₁⟩ := leadingZeroBits_returns h (Nat.zero_add 32)
  obtain ⟨y, r₂, hreads, hbits, hskip₂⟩ := readBits_returns hskip₁.inside k
  rw [Nat.zero_add] at hloops
  refine ⟨(1#32 <<< (k % 32)) - 1 + y, r₂, k + 1 + k, ⟨k, r₁, y, hloops, hreads, rfl⟩, ?_,
    hskip₁.trans hskip₂⟩
  rw [readExpGolomb, Read.run_bind, hzeros, Option.bind_some, Read.run_bind, hbits]
  rfl

/-! ## Exp-Golomb codes -/

/-- A code of the buffer is read to its end. -/
theorem readExpGolomb_golomb (h : InBuffer mem r) {v : Nat} (hv : v + 1 < 2 ^ 32) {rest : List Bool}
    (hcode : bitsLeft mem r = golomb v ++ rest) :
    ∃ r', (readExpGolomb r).run (.ofList mem) = some (BitVec.ofNat 32 v, r') ∧
      r'.bitPos = r.bitPos + (golomb v).length ∧ InBuffer mem r' ∧ r'.buf = r.buf ∧ r'.len = r.len := by
  obtain ⟨x, r', hrun, rfl, hleft⟩ := readExpGolomb_reads hv mem r rest (hcode ▸ h.left)
  obtain ⟨x', r'', n, -, hrun', hskip⟩ := readExpGolomb_returns h
  rw [hrun] at hrun'
  cases hrun'
  refine ⟨r', hrun, ?_, hskip.inside, hskip.buf_eq, hskip.len_eq⟩
  have hpos := h.length_left
  have hpos' := hskip.inside.length_left
  rw [hskip.len_eq, bitsLeft_eq hleft.buf_le, ← hleft.bits_eq] at hpos'
  rw [hcode, List.length_append] at hpos
  omega

/-- The signed number of a code. -/
theorem signed_toInt {s : Int} (hs : s.natAbs ≤ 2 ^ 31 - 1) {ue : BitVec 32}
    (hue : ue.toNat = if 0 < s then 2 * s.toNat - 1 else 2 * (-s).toNat) :
    (if ue &&& 1 ≠ 0 then (ue + 1) / 2 else -(ue / 2)).toInt = s := by
  have hodd : (ue &&& 1).toNat = ue.toNat % 2 := by
    rw [BitVec.toNat_and]
    exact Nat.and_one_is_mod _
  by_cases hpos : 0 < s
  · rw [if_pos hpos] at hue
    have hne : ue &&& 1 ≠ 0 := fun h0 => by
      rw [h0] at hodd
      change 0 = _ at hodd
      omega
    have hhalf : ((ue + 1) / 2).toNat = s.toNat := by
      rw [BitVec.toNat_udiv, BitVec.toNat_add]
      change (ue.toNat + 1) % 2 ^ 32 / 2 = _
      omega
    rw [if_pos hne, BitVec.toInt_eq_toNat_of_lt (by omega), hhalf]
    omega
  · rw [if_neg hpos] at hue
    have heven : ue &&& 1 = 0 := BitVec.eq_of_toNat_eq (hodd.trans (by
      change _ = 0
      omega))
    have hhalf : (ue / 2).toNat = (-s).toNat := by
      rw [BitVec.toNat_udiv]
      change ue.toNat / 2 = _
      omega
    rw [if_neg (fun h => h heven), BitVec.toInt_neg, BitVec.toInt_eq_toNat_of_lt (by omega), hhalf,
      Int.bmod_eq_of_le (by omega) (by omega)]
    omega

/-- `read_exp_golomb` and `read_exp_golomb_s` find the number whose code comes next,
at whatever position, and go on by the length of the code; and their loops end
whatever the buffer holds, with what the functions find. -/
theorem expGolomb_codes (h : InBuffer mem r) :
    (∀ v rest, v ≤ 2 ^ 32 - 2 → bitsLeft mem r = golomb v ++ rest →
      ∃ x r', (readExpGolomb r).run (.ofList mem) = some (x, r') ∧ x.toNat = v ∧
        r'.bitPos = r.bitPos + (golomb v).length ∧ InBuffer mem r' ∧ r'.buf = r.buf ∧ r'.len = r.len) ∧
    (∀ (v : Int) rest, v.natAbs ≤ 2 ^ 31 - 1 → bitsLeft mem r = golombS v ++ rest →
      ∃ x r', (readExpGolombS r).run (.ofList mem) = some (x, r') ∧ x.toInt = v ∧
        r'.bitPos = r.bitPos + (golombS v).length ∧ InBuffer mem r' ∧ r'.buf = r.buf ∧ r'.len = r.len) ∧
    (∃ x r', ReadsExpGolomb (.ofList mem) r x r' ∧ (readExpGolomb r).run (.ofList mem) = some (x, r')) ∧
    (∃ x r', ReadsExpGolombS (.ofList mem) r x r' ∧
      (readExpGolombS r).run (.ofList mem) = some (x, r')) := by
  obtain ⟨ue, r', n, hreads, hue, -⟩ := readExpGolomb_returns h
  refine ⟨fun v rest hv hcode => ?_, fun v rest hv hcode => ?_, ⟨ue, r', hreads, hue⟩, ?_⟩
  · obtain ⟨r', hrun, hpos⟩ := readExpGolomb_golomb h (v := v) (by omega) hcode
    exact ⟨_, r', hrun, by rw [BitVec.toNat_ofNat, Nat.mod_eq_of_lt (by omega)], hpos⟩
  · have hcodeNat : (if 0 < v then 2 * v.toNat - 1 else 2 * (-v).toNat) + 1 < 2 ^ 32 := by
      split <;> omega
    obtain ⟨r', hrun, hpos⟩ := readExpGolomb_golomb h hcodeNat hcode
    refine ⟨_, r', by rw [readExpGolombS, Read.run_bind, hrun]; rfl, signed_toInt hv ?_, hpos⟩
    rw [BitVec.toNat_ofNat, Nat.mod_eq_of_lt (by omega)]
  · exact ⟨_, r', ⟨ue, hreads, rfl⟩, by rw [readExpGolombS, Read.run_bind, hue]; rfl⟩

/-- The code `00101` across bytes, of the number 4 and of the signed number -2. -/
theorem expGolomb_codes_across :
    (∃ x r', (readExpGolomb ⟨1, 1, 2, 3⟩).run (.ofList [0xff, 0xf9, 0x7c]) = some (x, r') ∧
      x.toNat = 4 ∧ r'.bitPos = 10) ∧
    ∃ x r', (readExpGolombS ⟨1, 1, 2, 3⟩).run (.ofList [0xff, 0xf9, 0x7c]) = some (x, r') ∧
      x.toInt = -2 ∧ r'.bitPos = 10 := by
  have h : InBuffer [0xff, 0xf9, 0x7c] ⟨1, 1, 2, 3⟩ :=
    ⟨rfl, by decide, by decide, by decide, by decide⟩
  obtain ⟨hue, hse, -⟩ := expGolomb_codes h
  obtain ⟨x, r', hrun, hval, hpos, -⟩ :=
    hue 4 [true, true, true, true, false, false] (by decide) (by decide +kernel)
  obtain ⟨y, r'', hrun', hval', hpos', -⟩ :=
    hse (-2) [true, true, true, true, false, false] (by decide) (by decide +kernel)
  exact ⟨⟨x, r', hrun, hval, hpos⟩, y, r'', hrun', hval', hpos'⟩

end

end DShow.Packetizer
