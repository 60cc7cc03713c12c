import Mathlib.Data.List.Basic

/-!
# Reflected cyclic redundancy checks

`shift poly c` is one bit of the division: the remainder moves down one place,
and the reflected polynomial `poly` is added to it when a one falls out. A byte
is added to the low end of the remainder and shifted out of it in eight steps
(`byteStep`).

A step is linear in exclusive or (`shift_xor`), so eight of them are those of the
low byte and the other bits moved down (`shifts_eight`). A table of the
eight steps of each byte (`IsTable`) thus divides a byte at a time
(`tableStep_eq`, `foldl_tableStep`).
-/

namespace DShow.Crc

variable {w : Nat} (poly : BitVec w)

/-- One bit of the division. -/
def shift (c : BitVec w) : BitVec w := if c.getLsbD 0 then (c >>> 1) ^^^ poly else c >>> 1

def shifts : Nat → BitVec w → BitVec w
  | 0, c => c
  | n + 1, c => shift poly (shifts n c)

/-- One byte of the division. -/
def byteStep (c : BitVec w) (b : BitVec 8) : BitVec w := shifts poly 8 (c ^^^ b.setWidth w)

/-- The entry for each byte is what eight steps make of it. -/
def IsTable (table : BitVec 8 → BitVec w) : Prop := ∀ b, table b = shifts poly 8 (b.setWidth w)

/-- One byte of the division by a table. -/
def tableStep (table : BitVec 8 → BitVec w) (c : BitVec w) (b : BitVec 8) : BitVec w :=
  (c >>> 8) ^^^ table (b ^^^ c.setWidth 8)

/-! ## Linearity -/

theorem shift_xor (a b : BitVec w) : shift poly (a ^^^ b) = shift poly a ^^^ shift poly b := by
  simp only [shift, BitVec.getLsbD_xor, BitVec.ushiftRight_xor_distrib]
  by_cases ha : a.getLsbD 0 = true <;> by_cases hb : b.getLsbD 0 = true <;>
    simp only [ha, hb, Bool.xor_false, Bool.false_xor, Bool.xor_self, Bool.false_eq_true, ↓reduceIte]
  · -- two ones: the polynomial is added twice
    rw [BitVec.xor_assoc _ poly, BitVec.xor_comm _ poly, ← BitVec.xor_assoc poly, BitVec.xor_self,
      BitVec.zero_xor]
  · rw [BitVec.xor_assoc, BitVec.xor_comm _ poly, BitVec.xor_assoc]
  · rw [BitVec.xor_assoc]

theorem shifts_xor (n : Nat) (a b : BitVec w) :
    shifts poly n (a ^^^ b) = shifts poly n a ^^^ shifts poly n b := by
  induction n with
  | zero => rfl
  | succ n ih => rw [shifts, ih, shift_xor, shifts, shifts]

/-- Bits that are zero fall out without a trace. -/
theorem shifts_high (c : BitVec w) {n : Nat} (hc : ∀ i < n, c.getLsbD i = false) {k : Nat}
    (hk : k ≤ n) : shifts poly k c = c >>> k := by
  induction k with
  | zero => rw [shifts, BitVec.ushiftRight_zero]
  | succ k ih =>
    have hlow : (c >>> k).getLsbD 0 = false := by
      rw [BitVec.getLsbD_ushiftRight]
      exact hc k (by omega)
    rw [shifts, ih (by omega), shift, hlow, if_neg Bool.false_ne_true, ← BitVec.shiftRight_add]

/-! ## The low byte and the rest -/

theorem getLsbD_low (c : BitVec w) (i : Nat) :
    ((c.setWidth 8).setWidth w).getLsbD i = (decide (i < 8) && c.getLsbD i) := by
  simp only [BitVec.getLsbD_setWidth]
  by_cases hi : i < w
  · simp [hi]
  · simp [hi, BitVec.getLsbD_of_ge c i (by omega)]

/-- What is left of a word when its low byte is taken off. -/
theorem getLsbD_high (c : BitVec w) (i : Nat) :
    (c ^^^ (c.setWidth 8).setWidth w).getLsbD i = (decide (8 ≤ i) && c.getLsbD i) := by
  rw [BitVec.getLsbD_xor, getLsbD_low]
  by_cases hi : i < 8
  · simp [hi, show ¬ 8 ≤ i by omega]
  · simp [hi, show 8 ≤ i by omega]

theorem high_shift (c : BitVec w) : (c ^^^ (c.setWidth 8).setWidth w) >>> 8 = c >>> 8 := by
  apply BitVec.eq_of_getLsbD_eq
  intro i _
  rw [BitVec.getLsbD_ushiftRight, BitVec.getLsbD_ushiftRight, getLsbD_high]
  simp

/-- Eight steps are those of the low byte, and the other bits moved down. -/
theorem shifts_eight (c : BitVec w) :
    shifts poly 8 c = (c >>> 8) ^^^ shifts poly 8 ((c.setWidth 8).setWidth w) := by
  let low := (c.setWidth 8).setWidth w
  have hsplit : c = (c ^^^ low) ^^^ low := by
    rw [BitVec.xor_assoc, BitVec.xor_self, BitVec.xor_zero]
  have hhigh : shifts poly 8 (c ^^^ low) = c >>> 8 := by
    rw [shifts_high poly (c ^^^ low) (n := 8) (fun i hi => ?_) (Nat.le_refl 8), high_shift]
    rw [getLsbD_high, decide_eq_false (by omega : ¬ 8 ≤ i), Bool.false_and]
  calc shifts poly 8 c = shifts poly 8 ((c ^^^ low) ^^^ low) := by rw [← hsplit]
    _ = (c >>> 8) ^^^ shifts poly 8 low := by rw [shifts_xor, hhigh]

theorem byte_shift (b : BitVec 8) : (b.setWidth w) >>> 8 = 0#w := by
  apply BitVec.eq_of_getLsbD_eq
  intro i _
  simp

variable {poly}

theorem tableStep_eq {table : BitVec 8 → BitVec w} (ht : IsTable poly table) (hw : 8 ≤ w)
    (c : BitVec w) (b : BitVec 8) : tableStep table c b = byteStep poly c b := by
  have hbyte : (c ^^^ b.setWidth w).setWidth 8 = b ^^^ c.setWidth 8 := by
    rw [BitVec.setWidth_xor, BitVec.setWidth_setWidth_of_le b hw, BitVec.setWidth_eq, BitVec.xor_comm]
  rw [byteStep, shifts_eight, BitVec.ushiftRight_xor_distrib, byte_shift, BitVec.xor_zero, hbyte,
    tableStep, ht]

/-- The division of a sequence of bytes by the table, in its bits. -/
theorem foldl_tableStep {table : BitVec 8 → BitVec w} (ht : IsTable poly table) (hw : 8 ≤ w)
    (bytes : List (BitVec 8)) (c : BitVec w) :
    bytes.foldl (tableStep table) c = bytes.foldl (byteStep poly) c := by
  induction bytes generalizing c with
  | nil => rfl
  | cons b bytes ih => rw [List.foldl_cons, tableStep_eq ht hw, ih, List.foldl_cons]

end DShow.Crc
