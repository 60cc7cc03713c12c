import Mathlib.Data.List.Rotate
import Mathlib.Logic.Function.Basic
import Mathlib.Data.Nat.ModEq

/-!
# Cyclic buffers

An array of `N` cells used as a ring is read from a start index, wrapping at
`N`. `window N f start` is the list of the cells in this order. Writing the
cell at distance `d` from the start sets entry `d` of the list
(`window_update`), and moving the start by one rotates it (`window_succ`), so
that index arithmetic modulo `N` turns into facts about lists.
-/

namespace DShow.Cyclic

variable {α : Type*} {N : Nat} {f : Nat → α} {start d : Nat}

/-- The cells of a ring in the order they are read from `start` on. -/
def window (N : Nat) (f : Nat → α) (start : Nat) : List α :=
  (List.range N).map fun d => f ((start + d) % N)

@[simp] theorem length_window : (window N f start).length = N := by simp [window]

@[simp] theorem getElem_window (h : d < (window N f start).length) :
    (window N f start)[d] = f ((start + d) % N) := by simp [window]

/-- Two distances from one start lead to one cell only if they are equal. -/
theorem add_mod_inj {e : Nat} (hd : d < N) (he : e < N) (h : (start + d) % N = (start + e) % N) :
    d = e := by
  have := Nat.ModEq.add_left_cancel' start h
  rwa [Nat.ModEq, Nat.mod_eq_of_lt hd, Nat.mod_eq_of_lt he] at this

theorem window_update (hd : d < N) (x : α) :
    window N (Function.update f ((start + d) % N) x) start = (window N f start).set d x := by
  refine List.ext_getElem (by simp) fun e he _ => ?_
  rw [length_window] at he
  simp only [getElem_window, List.getElem_set, Function.update_apply]
  refine if_congr ⟨fun h => ?_, fun h => h ▸ rfl⟩ rfl rfl
  exact (add_mod_inj he hd h).symm

theorem window_succ : window N f ((start + 1) % N) = (window N f start).rotate 1 := by
  refine List.ext_getElem (by simp) fun e he _ => ?_
  rw [length_window] at he
  simp only [getElem_window, List.getElem_rotate, length_window, Nat.add_mod_mod, Nat.mod_add_mod]
  congr 2
  omega

theorem mem_window (hN : 0 < N) {x : α} : x ∈ window N f start ↔ ∃ i < N, f i = x := by
  constructor
  · intro hx
    obtain ⟨d, -, rfl⟩ := List.mem_map.mp hx
    exact ⟨_, Nat.mod_lt _ hN, rfl⟩
  · rintro ⟨i, hi, rfl⟩
    -- the distance from the start to `i`, going round
    refine List.mem_map.mpr ⟨(i + (N - start % N)) % N, List.mem_range.mpr (Nat.mod_lt _ hN), ?_⟩
    have hs := Nat.mod_lt start hN
    have : (start + (i + (N - start % N)) % N) % N = i := by
      rw [Nat.add_mod_mod, ← Nat.mod_add_mod,
        show start % N + (i + (N - start % N)) = i + N by omega, Nat.add_mod_right,
        Nat.mod_eq_of_lt hi]
    rw [this]

/-- Filling the first free cell, or the last cell where none is free: the
entries before it stay, the new one comes last. -/
theorem set_min_append {occ rest : List α} {n : Nat} (hn : (occ ++ rest).length = n + 1) (x : α) :
    (occ ++ rest).set (min occ.length n) x =
      occ.take n ++ x :: rest.tail := by
  rcases Nat.lt_or_ge n occ.length with h | h
  · have hr : rest = [] := List.eq_nil_of_length_eq_zero (by
      rw [List.length_append] at hn; omega)
    subst hr
    rw [List.append_nil] at hn ⊢
    rw [Nat.min_eq_right (by omega), List.set_eq_take_append_cons_drop, if_pos h,
      List.drop_of_length_le (by omega)]
    rfl
  · rw [Nat.min_eq_left h, List.take_of_length_le h, List.set_append_right _ _ (Nat.le_refl _),
      Nat.sub_self]
    cases rest with
    | nil => rw [List.append_nil] at hn; omega
    | cons y rest => rfl

end DShow.Cyclic
