import DShowServer.Framework.Bytes
import Mathlib.Logic.Function.Basic
import Mathlib.Data.BitVec

/-!
# Memory with little-endian words

A memory maps some addresses to bytes. A read or a write of an address that is not
mapped has no result. Addresses are of a fixed width and wrap around, so that the `n`
bytes from `a` on are the addresses `x` with `x - a < n` (`Within`).

`Holds` says that some bytes lie at an address, `readLE` reads them as a number, and
`add` adds to a number in place, which keeps every byte outside it.
-/

namespace DShow

open Bytes (leBytes ofLeBytes)

/-- The bytes at the addresses that are mapped. -/
abbrev Ram (w : Nat) := BitVec w → Option UInt8

namespace Ram

variable {w : Nat}

/-- The byte at `x` is one of the `n` from `a` on. -/
def Within (a : BitVec w) (n : Nat) (x : BitVec w) : Prop := (x - a).toNat < n

instance (a : BitVec w) (n : Nat) (x : BitVec w) : Decidable (Within a n x) := Nat.decLt _ _

def readBytes (m : Ram w) (a : BitVec w) : Nat → Option (List UInt8)
  | 0 => some []
  | n + 1 => do
    let b ← m a
    let bs ← readBytes m (a + 1) n
    pure (b :: bs)

/-- The number in the `n` bytes at `a`. -/
def readLE (m : Ram w) (a : BitVec w) (n : Nat) : Option Nat := (m.readBytes a n).map ofLeBytes

def writeBytes (m : Ram w) (a : BitVec w) : List UInt8 → Option (Ram w)
  | [] => some m
  | b :: bs => if (m a).isSome then writeBytes (Function.update m a (some b)) (a + 1) bs else none

/-- The number in the `n` bytes at `a` increased, modulo what they can hold. -/
def add (m : Ram w) (a : BitVec w) (n d : Nat) : Option (Ram w) := do
  let x ← m.readLE a n
  m.writeBytes a (leBytes n (x + d))

/-- Some bytes lie from an address on. -/
def Holds (m : Ram w) (a : BitVec w) (bs : List UInt8) : Prop := m.readBytes a bs.length = some bs

variable {m m' : Ram w} {a b x : BitVec w} {n k d : Nat} {bs cs : List UInt8}

theorem within_zero : ¬ Within a 0 x := Nat.not_lt_zero _

theorem toNat_one (hw : w ≠ 0) : (1 : BitVec w).toNat = 1 := by
  show (1#w).toNat = 1
  rw [BitVec.toNat_ofNat, Nat.mod_eq_of_lt (Nat.one_lt_two_pow hw)]

theorem sub_add_one (a x : BitVec w) : x - (a + 1) = x - a - 1 := by
  rw [← BitVec.sub_sub]

/-- The first byte, and those behind it. -/
theorem within_succ (hn : n < 2 ^ w) : Within a (n + 1) x ↔ x = a ∨ Within (a + 1) n x := by
  unfold Within
  rw [sub_add_one]
  have hxa : x = a ↔ (x - a).toNat = 0 := by
    rw [← BitVec.toNat_zero, ← BitVec.toNat_eq, BitVec.sub_eq_iff_eq_add, BitVec.zero_add]
  rw [hxa]
  generalize x - a = e
  have hd := e.isLt
  by_cases hw : w = 0
  · subst hw
    omega
  · rw [BitVec.toNat_sub, toNat_one hw]
    by_cases h0 : e.toNat = 0
    · rw [h0]
      simp
    · rw [show 2 ^ w - 1 + e.toNat = e.toNat - 1 + 2 ^ w by omega, Nat.add_mod_right,
        Nat.mod_eq_of_lt (by omega)]
      omega

theorem within_self (hn : 0 < n) : Within a n a := by
  show (a - a).toNat < n
  rwa [BitVec.sub_self, BitVec.toNat_zero]

/-- Bytes that begin at a distance from one another, either way round, are apart. -/
theorem not_within (hn : n ≤ (b - a).toNat) (hk : k ≤ (a - b).toNat) (hx : Within a n x) : ¬ Within b k x := by
  unfold Within at *
  have he : x - b = x - a + (a - b) := by grind
  have hr : a - b = -(b - a) := by grind
  rw [he, hr, BitVec.toNat_add, BitVec.toNat_neg]
  rw [hr, BitVec.toNat_neg] at hk
  have hb := (b - a).isLt
  rw [Nat.mod_eq_of_lt (a := 2 ^ w - (b - a).toNat) (by omega)] at hk ⊢
  rw [Nat.mod_eq_of_lt (by omega)]
  omega

/-- The last of some bytes are bytes of theirs. -/
theorem Within.of_add (hx : Within (a + BitVec.ofNat w n) k x) : Within a (n + k) x := by
  unfold Within at *
  have hlt := (x - (a + BitVec.ofNat w n)).isLt
  have he : x - a = x - (a + BitVec.ofNat w n) + BitVec.ofNat w n := by
    rw [← BitVec.sub_sub, BitVec.sub_add_cancel]
  rw [he, BitVec.toNat_add, BitVec.toNat_ofNat]
  refine Nat.lt_of_le_of_lt (Nat.mod_le _ _) ?_
  have := Nat.mod_le n (2 ^ w)
  omega

theorem Within.mono (h : n ≤ k) (hx : Within a n x) : Within a k x := Nat.lt_of_lt_of_le hx h

theorem readBytes_congr (hn : n ≤ 2 ^ w) (h : ∀ x, Within a n x → m' x = m x) :
    m'.readBytes a n = m.readBytes a n := by
  induction n generalizing a with
  | zero => rfl
  | succ n ih =>
    rw [readBytes, readBytes, h a (within_self (Nat.succ_pos n)),
      ih (Nat.le_of_succ_le hn) fun x hx => h x ((within_succ hn).mpr (.inr hx))]

theorem readLE_congr (hn : n ≤ 2 ^ w) (h : ∀ x, Within a n x → m' x = m x) : m'.readLE a n = m.readLE a n := by
  rw [readLE, readLE, readBytes_congr hn h]

/-- The same bytes at another address. -/
theorem readBytes_shift (h : ∀ i < n, m' (b + BitVec.ofNat w i) = m (a + BitVec.ofNat w i)) :
    m'.readBytes b n = m.readBytes a n := by
  induction n generalizing a b with
  | zero => rfl
  | succ n ih =>
    have h₀ : m' b = m a := by simpa using h 0 (Nat.succ_pos n)
    rw [readBytes, readBytes, h₀, ih fun i hi => ?_]
    have hs : ∀ c : BitVec w, c + 1 + BitVec.ofNat w i = c + BitVec.ofNat w (i + 1) := fun c => by
      rw [BitVec.add_assoc, BitVec.add_comm 1, BitVec.ofNat_add]
      rfl
    rw [hs, hs]
    exact h (i + 1) (Nat.succ_lt_succ hi)

theorem length_readBytes (h : m.readBytes a n = some bs) : bs.length = n := by
  induction n generalizing a bs with
  | zero => cases h; rfl
  | succ n ih =>
    obtain ⟨b, -, h⟩ := Option.bind_eq_some_iff.mp h
    obtain ⟨cs, hcs, h⟩ := Option.bind_eq_some_iff.mp h
    cases h
    exact congrArg Nat.succ (ih hcs)

/-- A number can be read where every byte is mapped. -/
theorem exists_readLE_iff (hn : n ≤ 2 ^ w) :
    (∃ d, m.readLE a n = some d) ↔ ∀ x, Within a n x → (m x).isSome := by
  have hread : (∃ d, m.readLE a n = some d) ↔ ∃ bs, m.readBytes a n = some bs := by
    constructor
    · rintro ⟨d, hd⟩
      obtain ⟨bs, hbs, -⟩ := Option.map_eq_some_iff.mp hd
      exact ⟨bs, hbs⟩
    · rintro ⟨bs, hbs⟩
      exact ⟨_, congrArg _ hbs⟩
  rw [hread]
  clear hread
  induction n generalizing a with
  | zero => exact ⟨fun _ x hx => absurd hx within_zero, fun _ => ⟨[], rfl⟩⟩
  | succ n ih =>
    have ih := ih (a := a + 1) (Nat.le_of_succ_le hn)
    constructor
    · rintro ⟨bs, hbs⟩ x hx
      obtain ⟨b, hb, hbs⟩ := Option.bind_eq_some_iff.mp hbs
      obtain ⟨cs, hcs, -⟩ := Option.bind_eq_some_iff.mp hbs
      rcases (within_succ hn).mp hx with rfl | hx
      · exact Option.isSome_of_eq_some hb
      · exact ih.mp ⟨cs, hcs⟩ x hx
    · intro h
      obtain ⟨b, hb⟩ := Option.isSome_iff_exists.mp (h a (within_self (Nat.succ_pos n)))
      obtain ⟨cs, hcs⟩ := ih.mpr fun x hx => h x ((within_succ hn).mpr (.inr hx))
      exact ⟨b :: cs, by rw [readBytes, hb, Option.bind_eq_bind, Option.bind_some, hcs]; rfl⟩

/-- A write to bytes that are mapped puts them there and changes no other byte. -/
theorem writeBytes_spec (hlen : bs.length ≤ 2 ^ w) (h : ∀ x, Within a bs.length x → (m x).isSome) :
    ∃ m', m.writeBytes a bs = some m' ∧ m'.Holds a bs ∧ (∀ x, ¬ Within a bs.length x → m' x = m x) ∧
      ∀ x, (m' x).isSome = (m x).isSome := by
  induction bs generalizing m a with
  | nil => exact ⟨m, rfl, rfl, fun _ _ => rfl, fun _ => rfl⟩
  | cons b bs ih =>
    have hs := fun x => within_succ (w := w) (a := a) (x := x) hlen
    have ha : ¬ Within (a + 1) bs.length a := by
      show ¬ (a - (a + 1)).toNat < bs.length
      rw [sub_add_one, BitVec.sub_self, BitVec.zero_sub, BitVec.toNat_neg]
      have hb : bs.length < 2 ^ w := hlen
      by_cases hw : w = 0
      · subst hw
        rw [Nat.pow_zero, Nat.lt_one_iff] at hb
        omega
      · rw [toNat_one hw,
          Nat.mod_eq_of_lt (Nat.sub_lt (Nat.two_pow_pos w) Nat.one_pos)]
        omega
    have hmap : ∀ x, (Function.update m a (some b) x).isSome = (m x).isSome := fun x => by
      rw [Function.update_apply]
      split
      · rename_i hx
        rw [hx, h a (within_self (Nat.succ_pos _))]
        rfl
      · rfl
    obtain ⟨m', hw, hh, hf, hm⟩ := ih (m := Function.update m a (some b)) (a := a + 1)
      (Nat.le_of_succ_le hlen) fun x hx => (hmap x).trans (h x ((hs x).mpr (.inr hx)))
    refine ⟨m', ?_, ?_, fun x hx => ?_, fun x => (hm x).trans (hmap x)⟩
    · rw [writeBytes, if_pos (h a (within_self (Nat.succ_pos _))), hw]
    · show m'.readBytes a (bs.length + 1) = _
      rw [readBytes, hf a ha, Function.update_self, Option.bind_eq_bind, Option.bind_some,
        show m'.readBytes (a + 1) bs.length = some bs from hh]
      rfl
    · rw [List.length_cons, hs, not_or] at hx
      rw [hf x hx.2, Function.update_of_ne hx.1]

theorem leBytes_mod (n x : Nat) : leBytes n (x % 256 ^ n) = leBytes n x := by
  induction n generalizing x with
  | zero => rfl
  | succ n ih =>
    rw [leBytes, leBytes, Nat.pow_succ, Nat.mul_comm, Nat.mod_mul_right_div_self, ih]
    congr 1
    apply UInt8.toNat_inj.mp
    rw [UInt8.toNat_ofNat', UInt8.toNat_ofNat']
    exact Nat.mod_mul_right_mod x 256 (256 ^ n)

theorem ofLeBytes_leBytes_mod (n x : Nat) : ofLeBytes (leBytes n x) = x % 256 ^ n := by
  rw [← leBytes_mod]
  exact Bytes.ofLeBytes_leBytes (Nat.mod_lt _ (Nat.pow_pos (by decide)))

theorem Holds.readLE (h : m.Holds a bs) : m.readLE a bs.length = some (ofLeBytes bs) := congrArg _ h

theorem holds_cons {b : UInt8} {bs : List UInt8} : m.Holds a (b :: bs) ↔ m a = some b ∧ m.Holds (a + 1) bs := by
  unfold Holds
  rw [List.length_cons, readBytes]
  constructor
  · intro h
    obtain ⟨b', hb, h⟩ := Option.bind_eq_some_iff.mp h
    obtain ⟨bs', hbs, h⟩ := Option.bind_eq_some_iff.mp h
    cases h
    exact ⟨hb, hbs⟩
  · rintro ⟨hb, hbs⟩
    rw [hb, Option.bind_eq_bind, Option.bind_some, hbs]
    rfl

theorem Holds.congr (h : m.Holds a bs) (hlen : bs.length ≤ 2 ^ w)
    (he : ∀ x, Within a bs.length x → m' x = m x) : m'.Holds a bs :=
  (readBytes_congr hlen he).trans h

/-- Bytes that are all the same. -/
theorem Holds.replicate {c : UInt8} (h : m.Holds a (List.replicate n c)) (hn : n ≤ 2 ^ w) (hx : Within a n x) :
    m x = some c := by
  induction n generalizing a with
  | zero => exact absurd hx within_zero
  | succ n ih =>
    rw [List.replicate_succ, holds_cons] at h
    rcases (within_succ hn).mp hx with rfl | hx
    · exact h.1
    · exact ih h.2 (Nat.le_of_succ_le hn) hx

/-- Only bytes that are mapped are written. -/
theorem mapped_of_writeBytes (h : m.writeBytes a bs = some m') (hlen : bs.length ≤ 2 ^ w)
    (hx : Within a bs.length x) : (m x).isSome := by
  induction bs generalizing m a with
  | nil => exact absurd hx within_zero
  | cons b bs ih =>
    rw [writeBytes] at h
    split at h
    · rename_i ha
      rcases (within_succ hlen).mp hx with rfl | hx
      · exact ha
      · have := ih h (Nat.le_of_succ_le hlen) hx
        rw [Function.update_apply] at this
        split at this
        · rename_i he
          exact he ▸ ha
        · exact this
    · cases h

/-- What is added to a number in place. -/
theorem add_spec (hn : n ≤ 2 ^ w) {v : Nat} (hv : m.readLE a n = some v) (d : Nat) :
    ∃ m', m.add a n d = some m' ∧ m'.readLE a n = some ((v + d) % 256 ^ n) ∧
      (∀ x, ¬ Within a n x → m' x = m x) ∧ ∀ x, (m' x).isSome = (m x).isSome := by
  have hlen : (leBytes n (v + d)).length = n := Bytes.length_leBytes _ _
  have hmap : ∀ x, Within a (leBytes n (v + d)).length x → (m x).isSome :=
    hlen.symm ▸ (exists_readLE_iff hn).mp ⟨v, hv⟩
  obtain ⟨m', hw, hh, hf, hm⟩ := writeBytes_spec (by rwa [hlen]) hmap
  refine ⟨m', ?_, ?_, hlen ▸ hf, hm⟩
  · rw [add, hv, Option.bind_eq_bind, Option.bind_some, hw]
  · have := hh.readLE
    rwa [hlen, ofLeBytes_leBytes_mod] at this

theorem readBytes_add (n k : Nat) : m.readBytes a (n + k) =
    (m.readBytes a n).bind fun bs => (m.readBytes (a + BitVec.ofNat w n) k).map (bs ++ ·) := by
  induction n generalizing a with
  | zero =>
    rw [Nat.zero_add, readBytes, Option.bind_some, show a + BitVec.ofNat w 0 = a from BitVec.add_zero a]
    simp
  | succ n ih =>
    rw [show n + 1 + k = n + k + 1 by omega, readBytes, ih, readBytes,
      show a + BitVec.ofNat w (n + 1) = a + 1 + BitVec.ofNat w n by
        rw [BitVec.add_assoc, BitVec.ofNat_add, BitVec.add_comm (BitVec.ofNat w n)]; rfl]
    cases m a with
    | none => rfl
    | some b =>
      simp only [Option.bind_eq_bind, Option.bind_some, Option.pure_def]
      cases m.readBytes (a + 1) n with
      | none => rfl
      | some bs =>
        simp only [Option.bind_some]
        cases m.readBytes (a + 1 + BitVec.ofNat w n) k <;> rfl

/-- Bytes that lie behind one another. -/
theorem holds_append : m.Holds a (bs ++ cs) ↔ m.Holds a bs ∧ m.Holds (a + BitVec.ofNat w bs.length) cs := by
  unfold Holds
  rw [List.length_append, readBytes_add]
  constructor
  · intro h
    obtain ⟨bs', hb, h⟩ := Option.bind_eq_some_iff.mp h
    obtain ⟨cs', hc, h⟩ := Option.map_eq_some_iff.mp h
    obtain ⟨rfl, rfl⟩ := List.append_inj h (length_readBytes hb)
    exact ⟨hb, hc⟩
  · rintro ⟨hb, hc⟩
    rw [hb, Option.bind_some, hc]
    rfl

end Ram

end DShow
