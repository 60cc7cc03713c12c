import Mathlib.Algebra.Group.Nat.Defs
import Mathlib.Data.List.Basic
import Mathlib.Data.Option.Basic
import Mathlib.Order.Basic

/-!
# Search by bisection

`bisect` looks for a place among those from `lo` on and before `hi` by a comparison
that may fail. What it finds compares equal, whatever the order (`bisect_sound`);
where the places before one compare less and those behind it greater, it finds that
one (`bisect_complete`), and it halves what is left with every comparison, so that
fewer than `fuel` places of `2 ^ fuel` are looked at.

`scan` looks at the places one after another and finds the first that is equal.
-/

namespace DShow.Bisect

/-- The place found, if there is one. `fuel` bounds the comparisons. -/
def bisect (cmp : Nat → Option Ordering) : Nat → Nat → Nat → Option (Option Nat)
  | 0, lo, hi => if lo < hi then none else some none
  | fuel + 1, lo, hi =>
    if lo < hi then
      let pos := (lo + (hi - 1)) / 2
      (cmp pos).bind fun
        | .eq => some (some pos)
        | .gt => bisect cmp fuel lo pos
        | .lt => bisect cmp fuel (pos + 1) hi
    else some none

/-- The first of `count` places from `i` on that is equal. -/
def scan (cmp : Nat → Option Ordering) : Nat → Nat → Option (Option Nat)
  | 0, _ => some none
  | count + 1, i => (cmp i).bind fun o => if o = .eq then some (some i) else scan cmp count (i + 1)

variable {cmp : Nat → Option Ordering} {fuel lo hi p count i : Nat}

theorem bisect_sound {r : Nat} (h : bisect cmp fuel lo hi = some (some r)) :
    lo ≤ r ∧ r < hi ∧ cmp r = some .eq := by
  induction fuel generalizing lo hi with
  | zero =>
    unfold bisect at h
    split at h <;> cases h
  | succ fuel ih =>
    unfold bisect at h
    split at h
    · obtain ⟨o, ho, h⟩ := Option.bind_eq_some_iff.mp h
      cases o with
      | eq =>
        cases h
        exact ⟨by omega, by omega, ho⟩
      | gt =>
        obtain ⟨h₁, h₂, h₃⟩ := ih h
        exact ⟨h₁, by omega, h₃⟩
      | lt =>
        obtain ⟨h₁, h₂, h₃⟩ := ih h
        exact ⟨by omega, h₂, h₃⟩
    · cases h

/-- The search ends where every place can be compared. -/
theorem bisect_total (hc : ∀ i, lo ≤ i → i < hi → ∃ o, cmp i = some o) (hfuel : hi - lo < 2 ^ fuel) :
    ∃ r, bisect cmp fuel lo hi = some r := by
  induction fuel generalizing lo hi with
  | zero => exact ⟨none, if_neg (by rw [Nat.pow_zero] at hfuel; omega)⟩
  | succ fuel ih =>
    rw [Nat.pow_succ] at hfuel
    by_cases hlt : lo < hi
    · obtain ⟨o, ho⟩ := hc ((lo + (hi - 1)) / 2) (by omega) (by omega)
      rw [bisect, if_pos hlt]
      dsimp only
      rw [ho, Option.bind_some]
      cases o with
      | eq => exact ⟨_, rfl⟩
      | gt => exact ih (fun i h₁ h₂ => hc i h₁ (by omega)) (by omega)
      | lt => exact ih (fun i h₁ h₂ => hc i (by omega) h₂) (by omega)
    · exact ⟨none, if_neg hlt⟩

theorem bisect_complete (hp : lo ≤ p ∧ p < hi) (heq : cmp p = some .eq)
    (hlt : ∀ i, lo ≤ i → i < p → cmp i = some .lt) (hgt : ∀ i, p < i → i < hi → cmp i = some .gt)
    (hfuel : hi - lo < 2 ^ fuel) : bisect cmp fuel lo hi = some (some p) := by
  induction fuel generalizing lo hi with
  | zero => rw [Nat.pow_zero] at hfuel; omega
  | succ fuel ih =>
    rw [Nat.pow_succ] at hfuel
    rw [bisect, if_pos (by omega)]
    dsimp only
    rcases Nat.lt_trichotomy ((lo + (hi - 1)) / 2) p with h | h | h
    · rw [hlt _ (by omega) h]
      exact ih ⟨by omega, hp.2⟩ (fun i h₁ h₂ => hlt i (by omega) h₂) hgt (by omega)
    · rw [h, heq]
      rfl
    · rw [hgt _ h (by omega)]
      exact ih ⟨hp.1, h⟩ hlt (fun i h₁ h₂ => hgt i h₁ (by omega)) (by omega)

theorem scan_spec (hc : ∀ j, i ≤ j → j < i + count → ∃ o, cmp j = some o) : ∃ r, scan cmp count i = some r ∧
    match r with
    | some p => i ≤ p ∧ p < i + count ∧ cmp p = some .eq
    | none => ∀ j, i ≤ j → j < i + count → cmp j ≠ some .eq := by
  induction count generalizing i with
  | zero => exact ⟨none, rfl, fun j h₁ h₂ => by omega⟩
  | succ count ih =>
    obtain ⟨o, ho⟩ := hc i (Nat.le_refl i) (by omega)
    rw [scan, ho, Option.bind_some]
    by_cases he : o = .eq
    · rw [if_pos he]
      exact ⟨some i, rfl, Nat.le_refl i, by omega, he ▸ ho⟩
    · obtain ⟨r, hr, hspec⟩ := ih (i := i + 1) fun j h₁ h₂ => hc j (by omega) (by omega)
      rw [if_neg he]
      refine ⟨r, hr, ?_⟩
      cases r with
      | some p => exact ⟨by omega, by omega, hspec.2.2⟩
      | none =>
        intro j h₁ h₂ hj
        rcases Nat.eq_or_lt_of_le h₁ with rfl | h
        · exact he (Option.some.inj (ho.symm.trans hj))
        · exact hspec j h (by omega) hj

/-- The place that is found is the first. -/
theorem scan_eq_find (hc : ∀ j, i ≤ j → j < i + count → ∃ o, cmp j = some o) :
    scan cmp count i = some ((List.range' i count).find? fun j => cmp j = some .eq) := by
  induction count generalizing i with
  | zero => rfl
  | succ count ih =>
    obtain ⟨o, ho⟩ := hc i (Nat.le_refl i) (by omega)
    rw [scan, ho, Option.bind_some, List.range'_succ, List.find?_cons]
    by_cases he : o = .eq
    · rw [if_pos he, decide_eq_true (he ▸ ho)]
    · rw [if_neg he, decide_eq_false fun h => he (Option.some.inj (ho.symm.trans h))]
      exact ih fun j h₁ h₂ => hc j (by omega) (by omega)

end DShow.Bisect
