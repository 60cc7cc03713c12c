import Mathlib.Data.List.Basic

/-!
# Cutting a stream at marks

A splitter gathers the elements of a stream and cuts what it has gathered off
in front of a marked position (`pieces`). It may be given the stream in parts
(`pieces_append`), and what it makes of a stream tells where the marks are,
apart from the first position, where there is nothing to cut off
(`pieces_eq_iff`).
-/

namespace DShow.Split

variable {α : Type*} {mark mark' : Nat → Prop} [DecidablePred mark] [DecidablePred mark']

/-- The pieces that are cut off and what is left in the end, from position `g` on
and with the elements `buf` gathered. -/
def pieces (mark : Nat → Prop) [DecidablePred mark] : Nat → List α → List α → List (List α) × List α
  | _, buf, [] => ([], buf)
  | g, buf, x :: xs =>
    if mark g ∧ 0 < buf.length then (buf :: (pieces mark (g + 1) [x] xs).1, (pieces mark (g + 1) [x] xs).2)
    else pieces mark (g + 1) (buf ++ [x]) xs

/-- The stream in two parts. -/
theorem pieces_append (g : Nat) (buf xs ys : List α) : pieces mark g buf (xs ++ ys) =
    ((pieces mark g buf xs).1 ++ (pieces mark (g + xs.length) (pieces mark g buf xs).2 ys).1,
      (pieces mark (g + xs.length) (pieces mark g buf xs).2 ys).2) := by
  induction xs generalizing g buf with
  | nil => rfl
  | cons x xs ih =>
    rw [List.cons_append, pieces, pieces, List.length_cons, Nat.add_comm xs.length, ← Nat.add_assoc]
    split
    · rw [ih]
      rfl
    · rw [ih]

/-- The same marks, wherever they are counted from. -/
theorem pieces_congr {g g' : Nat} {buf xs : List α} (h : ∀ k < xs.length, mark (g + k) ↔ mark' (g' + k)) :
    pieces mark g buf xs = pieces mark' g' buf xs := by
  induction xs generalizing g g' buf with
  | nil => rfl
  | cons x xs ih =>
    have hrest : ∀ buf, pieces mark (g + 1) buf xs = pieces mark' (g' + 1) buf xs := fun buf =>
      ih fun k hk => by
        rw [Nat.add_right_comm, Nat.add_right_comm g']
        exact h (k + 1) (Nat.succ_lt_succ hk)
    have hfirst : mark g ↔ mark' g' := h 0 (Nat.succ_pos _)
    simp only [pieces, hrest, hfirst]

/-- No more is left than there was. -/
theorem length_rest_le (g : Nat) (buf xs : List α) :
    (pieces mark g buf xs).2.length ≤ buf.length + xs.length := by
  induction xs generalizing g buf with
  | nil => exact Nat.le_refl _
  | cons x xs ih =>
    rw [pieces, List.length_cons]
    split
    · have := ih (g + 1) [x]
      rw [List.length_singleton] at this
      dsimp only
      omega
    · have := ih (g + 1) (buf ++ [x])
      rw [List.length_append, List.length_singleton] at this
      omega

/-- Nothing is cut off where there are no marks, but for one at the start where
nothing is gathered. -/
theorem pieces_none {g : Nat} {buf xs : List α} (h : ∀ k < xs.length, mark (g + k) → buf.length + k = 0) :
    pieces mark g buf xs = ([], buf ++ xs) := by
  induction xs generalizing g buf with
  | nil => rw [pieces, List.append_nil]
  | cons x xs ih =>
    rw [pieces, if_neg (fun hcut => by
      have := h 0 (Nat.succ_pos _) hcut.1
      omega), ih, List.append_assoc, List.singleton_append]
    intro k hk hmark
    rw [Nat.add_right_comm] at hmark
    have := h (k + 1) (Nat.succ_lt_succ hk) hmark
    omega

/-- A cut. -/
theorem pieces_cut {g : Nat} {buf xs : List α} (hmark : mark g) (hbuf : 0 < buf.length) (hxs : xs ≠ []) :
    pieces mark g buf xs = (buf :: (pieces mark g [] xs).1, (pieces mark g [] xs).2) := by
  cases xs with
  | nil => exact absurd rfl hxs
  | cons x xs =>
    rw [pieces, if_pos ⟨hmark, hbuf⟩, pieces, if_neg (fun h => absurd h.2 (Nat.lt_irrefl 0))]
    rfl

/-- The first piece, or what is left if there is none. -/
def first (r : List (List α) × List α) : List α := r.1.head?.getD r.2

/-- What is gathered goes into the first piece. -/
theorem length_le_first (g : Nat) (buf xs : List α) : buf.length ≤ (first (pieces mark g buf xs)).length := by
  induction xs generalizing g buf with
  | nil => exact Nat.le_refl _
  | cons x xs ih =>
    rw [pieces]
    split
    · exact Nat.le_refl _
    · refine Nat.le_trans ?_ (ih (g + 1) (buf ++ [x]))
      rw [List.length_append]
      exact Nat.le_add_right _ _

/-- A cut differs from none. -/
theorem pieces_ne {g : Nat} {buf xs : List α} (hbuf : 0 < buf.length) (hxs : xs ≠ []) (h : mark g)
    (h' : ¬ mark' g) : pieces mark g buf xs ≠ pieces mark' g buf xs := by
  intro heq
  have hfirst : first (pieces mark g buf xs) = buf := by
    rw [pieces_cut h hbuf hxs]
    rfl
  obtain ⟨x, xs, rfl⟩ := List.exists_cons_of_ne_nil hxs
  have hlen : (buf ++ [x]).length ≤ (first (pieces mark' (g + 1) (buf ++ [x]) xs)).length :=
    length_le_first (g + 1) (buf ++ [x]) xs
  rw [heq, pieces, if_neg (fun hcut => h' hcut.1)] at hfirst
  rw [hfirst, List.length_append, List.length_singleton] at hlen
  omega

theorem pieces_eq_iff_of_pos {g : Nat} {buf xs : List α} (hbuf : 0 < buf.length) :
    pieces mark g buf xs = pieces mark' g buf xs ↔ ∀ k < xs.length, (mark (g + k) ↔ mark' (g + k)) := by
  refine ⟨fun h => ?_, pieces_congr⟩
  induction xs generalizing g buf with
  | nil => exact fun k hk => absurd hk (Nat.not_lt_zero k)
  | cons x xs ih =>
    have hne : x :: xs ≠ [] := List.cons_ne_nil x xs
    have hfirst : mark g ↔ mark' g := by
      by_contra hdiff
      by_cases hm : mark g
      · exact pieces_ne hbuf hne hm (fun hm' => hdiff (iff_of_true hm hm')) h
      · have hm' : mark' g := by
          by_contra hm'
          exact hdiff (iff_of_false hm hm')
        exact pieces_ne hbuf hne hm' hm h.symm
    have hrest : ∀ k < xs.length, (mark (g + 1 + k) ↔ mark' (g + 1 + k)) := by
      simp only [pieces, hfirst] at h
      split at h
      · refine ih (show 0 < [x].length from Nat.succ_pos 0) (Prod.ext ?_ ?_)
        · exact (List.cons.inj (Prod.mk.inj h).1).2
        · exact (Prod.mk.inj h).2
      · exact ih (by rw [List.length_append]; omega) h
    intro k hk
    cases k with
    | zero => exact hfirst
    | succ k =>
      rw [← Nat.add_assoc, Nat.add_right_comm]
      exact hrest k (Nat.lt_of_succ_lt_succ hk)

/-- **The pieces tell the marks**, but for the first position. -/
theorem pieces_eq_iff (xs : List α) : pieces mark 0 [] xs = pieces mark' 0 [] xs ↔
    ∀ g, 0 < g → g < xs.length → (mark g ↔ mark' g) := by
  cases xs with
  | nil => exact iff_of_true rfl fun g _ hg => absurd hg (Nat.not_lt_zero g)
  | cons x xs =>
    have hskip : ∀ (m : Nat → Prop) [DecidablePred m], pieces m 0 [] (x :: xs) = pieces m 1 [x] xs :=
      fun m _ => by rw [pieces, if_neg (fun h => absurd h.2 (Nat.lt_irrefl 0))]; rfl
    rw [hskip, hskip, pieces_eq_iff_of_pos (show 0 < [x].length from Nat.succ_pos 0)]
    constructor
    · intro h g hpos hlt
      obtain ⟨k, rfl⟩ : ∃ k, g = 1 + k := ⟨g - 1, by omega⟩
      exact h k (by rw [List.length_cons] at hlt; omega)
    · exact fun h k hk => h (1 + k) (by omega) (by rw [List.length_cons]; omega)

end DShow.Split
