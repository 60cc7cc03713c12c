import DShowServer.Packetizer.Model

/-!
# Emulation prevention

Within a NAL unit a byte 03 stands before each byte of at most 3 that two zeros go
before (`encodeNal`), so that no start code comes up by chance. `decode_nal` takes it
out again (`decodeNal_encodeNal`): it looks at a window of three bytes, where the
encoder counts zeros.
-/

namespace DShow.Packetizer

/-- The bytes of a NAL unit behind `zeros` zeros that go before. -/
def encodeNalFrom : Nat → List UInt8 → List UInt8
  | _, [] => []
  | zeros, b :: bs =>
    if zeros = 2 ∧ b ≤ 3 then 3 :: b :: encodeNalFrom (if b = 0 then 1 else 0) bs
    else b :: encodeNalFrom (if b = 0 then zeros + 1 else 0) bs

/-- What `decode_nal` is the inverse of: the zeros are counted from the start, and afresh after each
byte that was inserted. -/
def encodeNal (bs : List UInt8) : List UInt8 := encodeNalFrom 0 bs

/-! ## The loop -/

/-- The loop of `decode_nal` over a buffer from the index `i` on, with what was written so far. -/
def decodeNalLoop (buf : List UInt8) (i : Nat) (pos : List UInt8) : List UInt8 :=
  if h : i < buf.length then
    if i + 3 < buf.length ∧ buf[i]? = some 0 ∧ buf[i + 1]? = some 0 ∧ buf[i + 2]? = some 3 then
      decodeNalLoop buf (i + 3) (pos ++ [0, 0])
    else decodeNalLoop buf (i + 1) (pos ++ [buf[i]])
  else pos
termination_by buf.length - i

/-- The window is at the front of what is left. -/
theorem window_iff (l : List UInt8) : (3 < l.length ∧ l[0]? = some 0 ∧ l[1]? = some 0 ∧ l[2]? = some 3) ↔
    ∃ x xs, l = 0 :: 0 :: 3 :: x :: xs := by
  constructor
  · rintro ⟨hlen, h₀, h₁, h₂⟩
    match l, hlen with
    | a :: b :: c :: x :: xs, _ =>
      obtain rfl := Option.some.inj h₀
      obtain rfl := Option.some.inj h₁
      obtain rfl := Option.some.inj h₂
      exact ⟨x, xs, rfl⟩
  · rintro ⟨x, xs, rfl⟩
    simp

/-- Where there is no window, one byte is passed on. -/
theorem decodeNal_cons {x : UInt8} {xs : List UInt8} (h : ¬ ∃ y ys, x :: xs = 0 :: 0 :: 3 :: y :: ys) :
    decodeNal (x :: xs) = x :: decodeNal xs := by
  rw [decodeNal]
  rintro y ys rfl rfl
  exact h ⟨y, ys, rfl⟩

/-- The loop does to the rest of its buffer what `decodeNal` does to a list. -/
theorem decodeNalLoop_eq (buf : List UInt8) (i : Nat) (pos : List UInt8) :
    decodeNalLoop buf i pos = pos ++ decodeNal (buf.drop i) := by
  have hdrop : ∀ i, (i + 3 < buf.length ∧ buf[i]? = some 0 ∧ buf[i + 1]? = some 0 ∧ buf[i + 2]? = some 3) ↔
      ∃ x xs, buf.drop i = 0 :: 0 :: 3 :: x :: xs := by
    intro i
    rw [← window_iff, List.length_drop, List.getElem?_drop, List.getElem?_drop, List.getElem?_drop]
    exact and_congr_left' ⟨fun h => by omega, fun h => by omega⟩
  fun_induction decodeNalLoop buf i pos with
  | case1 i pos hi hwindow ih =>
    obtain ⟨x, xs, e⟩ := (hdrop i).mp hwindow
    have hrest : buf.drop (i + 3) = x :: xs := by rw [← List.drop_drop, e]; rfl
    rw [ih, hrest, e, decodeNal, List.append_assoc]
    rfl
  | case2 i pos hi hwindow ih =>
    have hcons : buf.drop i = buf[i] :: buf.drop (i + 1) := List.drop_eq_getElem_cons hi
    have hno : ¬ ∃ y ys, buf[i] :: buf.drop (i + 1) = 0 :: 0 :: 3 :: y :: ys := by
      rw [← hcons, ← hdrop]
      exact hwindow
    rw [ih, hcons, decodeNal_cons hno, List.append_assoc]
    rfl
  | case3 i pos hi => rw [List.drop_eq_nil_of_le (Nat.le_of_not_lt hi), decodeNal, List.append_nil]

/-- What is written fits what was allocated, which is as long as the input. -/
theorem length_decodeNal_le (l : List UInt8) : (decodeNal l).length ≤ l.length := by
  fun_induction decodeNal l with
  | case1 x xs ih =>
    simp only [List.length_cons] at ih ⊢
    omega
  | case2 x xs hno ih =>
    simp only [List.length_cons]
    omega
  | case3 => exact Nat.le_refl _

/-! ## The inverse -/

/-- A byte other than zero begins no window, nor does the zero before it. -/
theorem decodeNal_cons_ne {x : UInt8} (hx : x ≠ 0) (xs : List UInt8) :
    decodeNal (x :: xs) = x :: decodeNal xs := by
  refine decodeNal_cons ?_
  rintro ⟨y, ys, e⟩
  exact hx (List.cons.inj e).1

theorem decodeNal_zero_cons {x : UInt8} (hx : x ≠ 0) (xs : List UInt8) :
    decodeNal (0 :: x :: xs) = 0 :: x :: decodeNal xs := by
  rw [decodeNal_cons, decodeNal_cons_ne hx]
  rintro ⟨y, ys, e⟩
  exact hx (List.cons.inj (List.cons.inj e).2).1

/-- Two zeros before a byte above 3. -/
theorem decodeNal_zeros_cons {x : UInt8} (hx : ¬ x ≤ 3) (xs : List UInt8) :
    decodeNal (0 :: 0 :: x :: xs) = 0 :: 0 :: x :: decodeNal xs := by
  have h0 : x ≠ 0 := by
    rintro rfl
    exact hx (by decide)
  rw [decodeNal_cons, decodeNal_zero_cons h0]
  rintro ⟨y, ys, e⟩
  obtain rfl : x = 3 := (List.cons.inj (List.cons.inj (List.cons.inj e).2).2).1
  exact hx (Nat.le_refl _)

/-- The zeros the encoder has counted are those the window may begin with: whatever they are, the
rest is decoded behind them. -/
theorem decodeNal_encodeNalFrom (bs : List UInt8) {zeros : Nat} (hz : zeros ≤ 2) :
    decodeNal (List.replicate zeros 0 ++ encodeNalFrom zeros bs) = List.replicate zeros 0 ++ bs := by
  induction bs generalizing zeros with
  | nil =>
    rw [encodeNalFrom, List.append_nil]
    match zeros, hz with
    | 0, _ | 1, _ | 2, _ => rfl
  | cons b bs ih =>
    have hclear : decodeNal (encodeNalFrom 0 bs) = bs := ih (Nat.zero_le 2)
    rw [encodeNalFrom]
    by_cases hins : zeros = 2 ∧ b ≤ 3
    · -- a byte is inserted, and the window is on it
      rw [if_pos hins]
      obtain ⟨rfl, -⟩ := hins
      have hrest : decodeNal (b :: encodeNalFrom (if b = 0 then 1 else 0) bs) = b :: bs := by
        by_cases hb : b = 0
        · rw [hb, if_pos rfl]
          exact ih (by decide : 1 ≤ 2)
        · rw [if_neg hb, decodeNal_cons_ne hb, hclear]
      show decodeNal (0 :: 0 :: 3 :: b :: _) = 0 :: 0 :: b :: bs
      rw [decodeNal, hrest]
    · rw [if_neg hins]
      by_cases hb : b = 0
      · -- one zero more
        have hlt : zeros + 1 ≤ 2 := by
          have : zeros ≠ 2 := fun hz2 => hins ⟨hz2, by rw [hb]; decide⟩
          omega
        have hsnoc : ∀ l : List UInt8, List.replicate zeros 0 ++ 0 :: l = List.replicate (zeros + 1) 0 ++ l :=
          fun l => by rw [List.replicate_succ', List.append_assoc]; rfl
        rw [hb, if_pos rfl, hsnoc, hsnoc, ih hlt]
      · rw [if_neg hb]
        match zeros, hz with
        | 0, _ => exact (decodeNal_cons_ne hb _).trans (congrArg (b :: ·) hclear)
        | 1, _ => exact (decodeNal_zero_cons hb _).trans (congrArg (0 :: b :: ·) hclear)
        | 2, _ =>
          have hgt : ¬ b ≤ 3 := fun hle => hins ⟨rfl, hle⟩
          exact (decodeNal_zeros_cons hgt _).trans (congrArg (0 :: 0 :: b :: ·) hclear)

/-- Taking the inserted bytes out gives back what they were inserted into. -/
theorem decodeNal_encodeNal (bs : List UInt8) : decodeNal (encodeNal bs) = bs :=
  decodeNal_encodeNalFrom bs (Nat.zero_le 2)

/-- `decode_nal` gives back what the bytes were inserted into, and never more than it is given. -/
theorem decode_nal_inverse : (∀ bs, decodeNalLoop (encodeNal bs) 0 [] = bs) ∧
    ∀ buf, (decodeNalLoop buf 0 []).length ≤ buf.length := by
  refine ⟨fun bs => ?_, fun buf => ?_⟩
  · rw [decodeNalLoop_eq, List.drop_zero, List.nil_append, decodeNal_encodeNal]
  · rw [decodeNalLoop_eq, List.drop_zero, List.nil_append]
    exact length_decodeNal_le buf

/-- A long run of zeros, and a 03 that is data. -/
example : encodeNal [0, 0, 0, 0, 0, 3] = [0, 0, 3, 0, 0, 3, 0, 3] := by decide

end DShow.Packetizer
