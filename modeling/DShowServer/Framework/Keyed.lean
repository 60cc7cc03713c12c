import Mathlib.Data.List.Basic
import Mathlib.Data.Option.Basic

/-!
# Tables with a key

A table is a list of rows, the first row with a key being the one in force.
`upsert` replaces that row in its place, or appends the new row if there is none.
Read back by key it is the update of one point of a map (`lookup_upsert`); the
rows of the other keys do not move (`getElem?_upsert`). Where no key occurs
twice, taking out a row removes its key from the map (`lookup_eraseP`), and other keys
never notice (`lookup_eraseP_of_ne`).
-/

namespace DShow.Keyed

variable {α κ : Type*} [DecidableEq κ] (key : α → κ)

/-- The row in force for a key. -/
def lookup (l : List α) (k : κ) : Option α := l.find? fun v => key v = k

/-- Where it is. -/
def position (l : List α) (k : κ) : Option Nat := l.findIdx? fun v => key v = k

def upsert (l : List α) (v : α) : List α :=
  match position key l (key v) with
  | none => l ++ [v]
  | some i => l.set i v

variable {key} {l : List α} {v w : α} {i : Nat}

theorem lookup_eq (l : List α) (k : κ) : lookup key l k = (position key l k).bind (l[·]?) :=
  List.find?_eq_bind_findIdx?_getElem?

@[simp] theorem lookup_cons (k : κ) : lookup key (v :: l) k =
    if key v = k then some v else lookup key l k := by
  simp only [lookup, List.find?_cons]
  split <;> rename_i h
  · rw [if_pos (of_decide_eq_true h)]
  · rw [if_neg (of_decide_eq_false h)]

theorem position_eq_some {k : κ} (h : position key l k = some i) :
    ∃ hi : i < l.length, key l[i] = k ∧ ∀ j (hj : j < i), key l[j] ≠ k := by
  obtain ⟨hi, hk, hlt⟩ := List.findIdx?_eq_some_iff_getElem.mp h
  exact ⟨hi, of_decide_eq_true hk, fun j hj he => hlt j hj (decide_eq_true he)⟩

theorem position_eq_none {k : κ} (h : position key l k = none) (hv : v ∈ l) : key v ≠ k := by
  simpa using List.findIdx?_eq_none_iff.mp h v hv

theorem upsert_cons : upsert key (w :: l) v = if key w = key v then v :: l else w :: upsert key l v := by
  by_cases h : key w = key v
  · rw [if_pos h]
    simp [upsert, position, List.findIdx?_cons, h]
  · rw [if_neg h]
    simp only [upsert, position, List.findIdx?_cons, h, decide_false, Bool.false_eq_true, if_false]
    cases List.findIdx? (fun u => decide (key u = key v)) l <;> rfl

/-- An upsert is the update of a map at one key. -/
theorem lookup_upsert (l : List α) (v : α) (k : κ) :
    lookup key (upsert key l v) k = if key v = k then some v else lookup key l k := by
  induction l with
  | nil => simp [upsert, position, lookup]
  | cons w l ih =>
    rw [upsert_cons]
    by_cases h : key w = key v
    · rw [if_pos h, lookup_cons, lookup_cons, h]
      split <;> rfl
    · rw [if_neg h, lookup_cons, lookup_cons, ih]
      by_cases hw : key w = k
      · rw [if_pos hw, if_pos hw, if_neg fun hv => h (hw.trans hv.symm)]
      · rw [if_neg hw, if_neg hw]

/-- The rows of other keys stay where they are. -/
theorem getElem?_upsert (hw : l[i]? = some w) (h : key w ≠ key v) : (upsert key l v)[i]? = some w := by
  have hi : i < l.length := (List.getElem?_eq_some_iff.mp hw).1
  rw [upsert]
  split
  · rw [List.getElem?_append_left hi, hw]
  · rename_i j hj
    obtain ⟨hlt, hk, -⟩ := position_eq_some hj
    rw [List.getElem?_set_ne, hw]
    rintro rfl
    rw [List.getElem?_eq_getElem hi, Option.some.injEq] at hw
    exact h (hw ▸ hk)

theorem lookup_eq_none {k : κ} (h : ∀ v ∈ l, key v ≠ k) : lookup key l k = none :=
  List.find?_eq_none.mpr fun v hv => by simpa using h v hv

theorem lookup_eraseP (hl : (l.map key).Nodup) (k k' : κ) :
    lookup key (l.eraseP fun v => key v = k) k' = if k' = k then none else lookup key l k' := by
  induction l with
  | nil => simp [lookup]
  | cons w l ih =>
    rw [List.map_cons, List.nodup_cons] at hl
    rw [List.eraseP_cons, lookup_cons]
    by_cases hw : key w = k
    · subst hw
      have hnone : lookup key l (key w) = none :=
        lookup_eq_none fun v hv he => hl.1 (he ▸ List.mem_map_of_mem hv)
      simp only [decide_true, cond_true]
      split <;> rename_i hk
      · rw [hk, hnone]
      · rw [if_neg (Ne.symm hk)]
    · simp only [hw, decide_false, cond_false, lookup_cons, ih hl.2]
      by_cases hwk : key w = k'
      · rw [if_pos hwk, if_pos hwk, if_neg fun h => hw (hwk.trans h)]
      · rw [if_neg hwk, if_neg hwk]

theorem eraseP_append_cons {l₁ l₂ : List α} {k : κ} (hl : ∀ w ∈ l₁, key w ≠ k) (hv : key v = k) :
    ((l₁ ++ v :: l₂).eraseP fun w => key w = k) = l₁ ++ l₂ := by
  rw [List.eraseP_append_right _ fun w hw => by simpa using hl w hw,
    List.eraseP_cons_of_pos (p := fun w => decide (key w = k)) (decide_eq_true hv)]

/-- Where the row in force stands, and what is left without it. -/
theorem append_of_lookup {k : κ} (h : lookup key l k = some v) :
    key v = k ∧ ∃ l₁ l₂, l = l₁ ++ v :: l₂ ∧ (l.eraseP fun w => key w = k) = l₁ ++ l₂ := by
  obtain ⟨hv, l₁, l₂, rfl, hn⟩ := List.find?_eq_some_iff_append.mp h
  have hv : key v = k := of_decide_eq_true hv
  exact ⟨hv, l₁, l₂, rfl, eraseP_append_cons (fun w hw => by simpa using hn w hw) hv⟩

theorem lookup_of_mem (hl : (l.map key).Nodup) (hv : v ∈ l) : lookup key l (key v) = some v := by
  induction l with
  | nil => cases hv
  | cons w l ih =>
    rw [List.map_cons, List.nodup_cons] at hl
    rw [lookup_cons]
    rcases List.mem_cons.mp hv with rfl | hv
    · exact if_pos rfl
    · have hne : key w ≠ key v := fun he => hl.1 (he ▸ List.mem_map_of_mem hv)
      rw [if_neg hne, ih hl.2 hv]

/-- Without the first row of one key the others read as before. -/
theorem lookup_eraseP_of_ne {k k' : κ} (h : k ≠ k') :
    lookup key (l.eraseP fun v => key v = k) k' = lookup key l k' := by
  induction l with
  | nil => rfl
  | cons w l ih =>
    rw [List.eraseP_cons, lookup_cons]
    by_cases hw : key w = k
    · rw [decide_eq_true hw, cond_true, if_neg fun he => h (hw.symm.trans he)]
    · rw [decide_eq_false hw, cond_false, lookup_cons, ih]

/-- A change of rows that keeps their keys. -/
theorem lookup_map {f : α → α} (hf : ∀ v, key (f v) = key v) (k : κ) :
    lookup key (l.map f) k = (lookup key l k).map f := by
  induction l with
  | nil => rfl
  | cons w l ih =>
    rw [List.map_cons, lookup_cons, lookup_cons, hf, ih]
    split <;> rfl

theorem key_of_lookup {k : κ} (h : lookup key l k = some v) : v ∈ l ∧ key v = k :=
  ⟨List.mem_of_find?_eq_some h, of_decide_eq_true (List.find?_some (p := fun v => decide (key v = k)) h)⟩

end DShow.Keyed
