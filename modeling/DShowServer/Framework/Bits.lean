import Mathlib.Data.List.Basic
import Mathlib.Data.Nat.Bitwise
import Mathlib.Data.Option.Basic

/-!
# Streams of bits

Bytes as bits, the highest first, and numbers of a fixed length in them
(`fixed`, `value`). A `BitReader` takes a value off the front of a list of bits;
`Takes r a bits` says that `bytes` are what it takes as `a`, whatever follows.
Variable lengths are Exp-Golomb codes: as many zeros as there are bits behind
the first one (`expGolomb`, `golomb`).
-/

namespace DShow.Bits

/-! ## Numbers of a fixed length -/

/-- The `n` low bits of a number, highest first. -/
def fixed : Nat → Nat → List Bool
  | 0, _ => []
  | n + 1, x => x.testBit n :: fixed n x

/-- The number that bits stand for. -/
def value : List Bool → Nat
  | [] => 0
  | b :: bs => b.toNat * 2 ^ bs.length + value bs

@[simp] theorem length_fixed (n x : Nat) : (fixed n x).length = n := by
  induction n with
  | zero => rfl
  | succ n ih => rw [fixed, List.length_cons, ih]

theorem value_append (bs cs : List Bool) : value (bs ++ cs) = value bs * 2 ^ cs.length + value cs := by
  induction bs with
  | nil => simp [value]
  | cons b bs ih =>
    rw [List.cons_append, value, ih, value, List.length_append, Nat.pow_add, Nat.add_mul,
      Nat.mul_assoc, Nat.add_assoc]

theorem value_lt (bs : List Bool) : value bs < 2 ^ bs.length := by
  induction bs with
  | nil => exact Nat.one_pos
  | cons b bs ih =>
    rw [value, List.length_cons, Nat.pow_succ]
    have : b.toNat * 2 ^ bs.length ≤ 1 * 2 ^ bs.length := Nat.mul_le_mul_right _ b.toNat_le
    omega

theorem value_fixed (n x : Nat) : value (fixed n x) = x % 2 ^ n := by
  induction n with
  | zero => rw [fixed, value, Nat.pow_zero, Nat.mod_one]
  | succ n ih =>
    rw [fixed, value, ih, length_fixed, Nat.toNat_testBit, Nat.mod_pow_succ, Nat.mul_comm, Nat.add_comm]

theorem drop_fixed {n k : Nat} (h : k ≤ n) (x : Nat) : (fixed n x).drop k = fixed (n - k) x := by
  induction k generalizing n with
  | zero => rfl
  | succ k ih =>
    obtain ⟨n, rfl⟩ : ∃ m, n = m + 1 := ⟨n - 1, by omega⟩
    rw [fixed, List.drop_succ_cons, ih (by omega), Nat.add_sub_add_right]

theorem take_fixed {n k : Nat} (h : k ≤ n) (x : Nat) : (fixed n x).take k = fixed k (x >>> (n - k)) := by
  induction k generalizing n with
  | zero => rw [List.take_zero, fixed]
  | succ k ih =>
    obtain ⟨n, rfl⟩ : ∃ m, n = m + 1 := ⟨n - 1, by omega⟩
    rw [fixed, List.take_succ_cons, ih (by omega), fixed, Nat.testBit_shiftRight,
      Nat.add_sub_add_right, Nat.sub_add_cancel (by omega)]

theorem fixed_mod {n k : Nat} (h : n ≤ k) (x : Nat) : fixed n (x % 2 ^ k) = fixed n x := by
  induction n with
  | zero => rfl
  | succ n ih =>
    rw [fixed, fixed, ih (by omega), Nat.testBit_mod_two_pow, decide_eq_true (by omega), Bool.true_and]

/-- The bits of some bytes. -/
def ofBytes (bytes : List UInt8) : List Bool := bytes.flatMap fun x => fixed 8 x.toNat

theorem ofBytes_cons (x : UInt8) (xs : List UInt8) : ofBytes (x :: xs) = fixed 8 x.toNat ++ ofBytes xs :=
  rfl

theorem length_ofBytes (xs : List UInt8) : (ofBytes xs).length = 8 * xs.length := by
  induction xs with
  | nil => rfl
  | cons x xs ih =>
    rw [ofBytes_cons, List.length_append, length_fixed, ih, List.length_cons]
    omega

/-- Whole bytes of the bits. -/
theorem drop_ofBytes (k : Nat) (xs : List UInt8) : (ofBytes xs).drop (8 * k) = ofBytes (xs.drop k) := by
  induction k generalizing xs with
  | zero => rfl
  | succ k ih =>
    cases xs with
    | nil => exact List.drop_nil
    | cons x xs =>
      have hbyte : (fixed 8 x.toNat ++ ofBytes xs).drop 8 = ofBytes xs := List.drop_left' (length_fixed 8 _)
      rw [ofBytes_cons, Nat.mul_succ, Nat.add_comm, ← List.drop_drop, hbyte, ih, List.drop_succ_cons]

/-! ## Bits that may be missing -/

/-- The next bits, as many as asked for; those that are not there are zeros. -/
def padded : Nat → List Bool → List Bool
  | 0, _ => []
  | n + 1, bs => bs.headD false :: padded n bs.tail

@[simp] theorem length_padded (n : Nat) (bs : List Bool) : (padded n bs).length = n := by
  induction n generalizing bs with
  | zero => rfl
  | succ n ih => rw [padded, List.length_cons, ih]

theorem padded_nil (n : Nat) : padded n [] = List.replicate n false := by
  induction n with
  | zero => rfl
  | succ n ih => exact congrArg (false :: ·) ih

/-- Bits that are all wanted, and others behind them. -/
theorem padded_append (n : Nat) (bs cs : List Bool) :
    padded (bs.length + n) (bs ++ cs) = bs ++ padded n cs := by
  induction bs with
  | nil => rw [List.length_nil, Nat.zero_add, List.nil_append, List.nil_append]
  | cons b bs ih =>
    rw [List.length_cons, Nat.add_right_comm, padded, List.cons_append, List.headD_cons, List.tail_cons,
      ih, List.cons_append]

theorem padded_of_le {n : Nat} {bs : List Bool} (h : n ≤ bs.length) : padded n bs = bs.take n := by
  have := padded_append 0 (bs.take n) (bs.drop n)
  rwa [List.take_append_drop, List.length_take_of_le h, Nat.add_zero, padded, List.append_nil] at this

theorem padded_add (a b : Nat) (bs : List Bool) :
    padded (a + b) bs = padded a bs ++ padded b (bs.drop a) := by
  induction a generalizing bs with
  | zero => rw [Nat.zero_add, List.drop_zero, padded, List.nil_append]
  | succ a ih => rw [Nat.add_right_comm, padded, padded, ih, List.drop_tail, List.cons_append]

theorem value_replicate_false (n : Nat) : value (List.replicate n false) = 0 := by
  induction n with
  | zero => rfl
  | succ n ih => rw [List.replicate_succ, value, ih, Bool.toNat_false, Nat.zero_mul]

/-! ## Reading -/

/-- Takes a value off the front of the bits that are left, if they suffice. -/
abbrev BitReader (α : Type) := StateT (List Bool) Option α

namespace BitReader

variable {α β : Type}

/-- `n` bits. -/
def take (n : Nat) : BitReader (List Bool) := fun bs =>
  if n ≤ bs.length then some (bs.take n, bs.drop n) else none

/-- `u(n)`: a number of `n` bits. -/
def fixed (n : Nat) : BitReader Nat := do
  let bs ← take n
  pure (value bs)

theorem padded_of_take {n : Nat} {bs xs rest : List Bool} (h : take n bs = some (xs, rest)) :
    padded n bs = xs := by
  unfold take at h
  split at h
  · rename_i hle
    cases h
    exact padded_of_le hle
  · cases h

theorem bind_eq_some {r : BitReader α} {f : α → BitReader β} {b : β} {bs rest : List Bool} :
    (r >>= f) bs = some (b, rest) ↔ ∃ a mid, r bs = some (a, mid) ∧ f a mid = some (b, rest) := by
  show (r bs).bind _ = _ ↔ _
  rw [Option.bind_eq_some_iff]
  exact ⟨fun ⟨⟨a, m⟩, h⟩ => ⟨a, m, h⟩, fun ⟨a, m, h⟩ => ⟨(a, m), h⟩⟩

end BitReader

/-- The zeros in front of a one, which is taken as well; it gives up looking
behind `limit` zeros. -/
def zeros : Nat → BitReader Nat
  | 0 => do
    let _ ← BitReader.take 1
    pure 0
  | limit + 1 => do
    let b ← BitReader.take 1
    if b = [true] then pure 0
    else do
      let k ← zeros limit
      pure (k + 1)

/-- An Exp-Golomb code of at most `limit` zeros. -/
def expGolomb (limit : Nat) : BitReader Nat := do
  let k ← zeros limit
  let x ← BitReader.fixed k
  pure (2 ^ k - 1 + x)

/-- The Exp-Golomb code of a number. -/
def golomb (x : Nat) : List Bool := List.replicate (x + 1).log2 false ++ fixed ((x + 1).log2 + 1) (x + 1)

/-- What a reader makes of some bits, whatever follows them. -/
def Takes {α : Type} (r : BitReader α) (a : α) (bits : List Bool) : Prop :=
  ∀ rest, r (bits ++ rest) = some (a, rest)

namespace Takes

variable {α β : Type} {r : BitReader α} {a : α} {xs ys : List Bool}

theorem pure (a : α) : Takes (Pure.pure a) a [] := fun _ => rfl

theorem bind {f : α → BitReader β} {b : β} (h : Takes r a xs) (hf : Takes (f a) b ys) :
    Takes (r >>= f) b (xs ++ ys) := by
  intro rest
  rw [BitReader.bind_eq_some, List.append_assoc]
  exact ⟨a, ys ++ rest, h _, hf rest⟩

theorem map {f : α → β} (h : Takes r a xs) : Takes (r >>= fun a => Pure.pure (f a)) (f a) xs := by
  have := h.bind (f := fun a => Pure.pure (f a)) (pure (f a))
  rwa [List.append_nil] at this

theorem take (xs : List Bool) {n : Nat} (hn : xs.length = n) : Takes (BitReader.take n) xs xs := by
  subst hn
  intro rest
  simp only [BitReader.take, List.length_append, Nat.le_add_right, if_true, List.take_left',
    List.drop_left']

theorem fixed {n x : Nat} (hx : x < 2 ^ n) : Takes (BitReader.fixed n) x (Bits.fixed n x) := by
  have h := (take (Bits.fixed n x) (length_fixed n x)).map (f := value)
  rwa [value_fixed, Nat.mod_eq_of_lt hx] at h

theorem zeros {k limit : Nat} (hk : k < limit) : Takes (Bits.zeros limit) k (List.replicate k false ++ [true]) := by
  induction k generalizing limit with
  | zero =>
    obtain ⟨limit, rfl⟩ : ∃ n, limit = n + 1 := ⟨limit - 1, by omega⟩
    intro rest
    exact BitReader.bind_eq_some.mpr ⟨[true], rest, take [true] rfl rest, rfl⟩
  | succ k ih =>
    obtain ⟨limit, rfl⟩ : ∃ n, limit = n + 1 := ⟨limit - 1, by omega⟩
    exact (take [false] rfl).bind ((ih (by omega)).map (f := (· + 1)))

/-- The code of a number is taken as the number. -/
theorem golomb {x limit : Nat} (hx : x + 1 < 2 ^ limit) : Takes (expGolomb limit) x (Bits.golomb x) := by
  have hpos : x + 1 ≠ 0 := Nat.succ_ne_zero x
  have hlt : (x + 1).log2 < limit := (Nat.log2_lt hpos).mpr hx
  have hle : 2 ^ (x + 1).log2 ≤ x + 1 := Nat.log2_self_le hpos
  have hgt : x + 1 < 2 ^ ((x + 1).log2 + 1) := Nat.lt_log2_self
  -- the highest bit of `x + 1` is the one behind the zeros
  have hbit : (x + 1).testBit (x + 1).log2 = true := Nat.testBit_log2 hpos
  have hmod : (x + 1) % 2 ^ (x + 1).log2 = x + 1 - 2 ^ (x + 1).log2 := by
    rw [Nat.pow_succ] at hgt
    rw [Nat.mod_eq_sub_mod hle, Nat.mod_eq_of_lt (by omega)]
  have hrest : Bits.fixed (x + 1).log2 (x + 1) = Bits.fixed (x + 1).log2 (x + 1 - 2 ^ (x + 1).log2) := by
    rw [← hmod, fixed_mod (Nat.le_refl _)]
  have h := (zeros hlt).bind (f := fun k => BitReader.fixed k >>= fun y => Pure.pure (2 ^ k - 1 + y))
    ((fixed (n := (x + 1).log2) (x := x + 1 - 2 ^ (x + 1).log2) (by rw [Nat.pow_succ] at hgt; omega)).map)
  rw [show 2 ^ (x + 1).log2 - 1 + (x + 1 - 2 ^ (x + 1).log2) = x by omega] at h
  rw [Bits.golomb, Bits.fixed, hbit, hrest, ← List.singleton_append, ← List.append_assoc]
  exact h

end Takes

end DShow.Bits
