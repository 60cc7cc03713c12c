import Mathlib.Logic.Function.Basic
import Mathlib.Data.Option.Basic

/-!
# A heap of cells

The objects of one type that a program allocates: `alloc` puts a cell at an
address that was never used before, so that an address that is kept after
`free` reads nothing, as a dangling pointer should. Address 0 is `NULL`. The
two facts about addresses are part of the structure, so that every heap that
can be built has them.
-/

namespace DShow

structure Store (α : Type*) where
  cells : Nat → Option α
  top : Nat
  top_pos : 0 < top
  cells_eq_none : ∀ a, a = 0 ∨ top ≤ a → cells a = none

namespace Store

variable {α : Type*} {s s' : Store α} {a b : Nat} {x : α}

def empty : Store α := ⟨fun _ => none, 1, Nat.one_pos, fun _ _ => rfl⟩

def read (s : Store α) (a : Nat) : Option α := s.cells a

/-- A new cell: its address and the heap with it. -/
def alloc (s : Store α) (x : α) : Nat × Store α :=
  (s.top, {
    cells := Function.update s.cells s.top (some x)
    top := s.top + 1
    top_pos := Nat.succ_pos _
    cells_eq_none := fun a ha => by
      have hne : a ≠ s.top := by have := s.top_pos; omega
      rw [Function.update_of_ne hne]
      exact s.cells_eq_none a (by omega) })

/-- The content of a cell that is there replaced, by nothing for `free`. -/
def put (s : Store α) (a : Nat) (h : (s.cells a).isSome) (x : Option α) : Store α where
  cells := Function.update s.cells a x
  top := s.top
  top_pos := s.top_pos
  cells_eq_none := fun b hb => by
    have hne : b ≠ a := by
      rintro rfl
      rw [s.cells_eq_none b hb] at h
      cases h
    rw [Function.update_of_ne hne]
    exact s.cells_eq_none b hb

/-- A cell that is there changed; `none` for a dangling pointer or `NULL`. -/
def modify (s : Store α) (a : Nat) (f : α → α) : Option (Store α) :=
  if h : (s.cells a).isSome then some (s.put a h (some (f ((s.cells a).get h)))) else none

def free (s : Store α) (a : Nat) : Option (Store α) :=
  if h : (s.cells a).isSome then some (s.put a h none) else none

@[simp] theorem read_zero : s.read 0 = none := s.cells_eq_none 0 (.inl rfl)

theorem top_ne_zero : s.top ≠ 0 := Nat.ne_of_gt s.top_pos

@[simp] theorem read_top : s.read s.top = none := s.cells_eq_none _ (.inr (Nat.le_refl _))

theorem ne_top_of_read (h : s.read a = some x) : a ≠ s.top := by
  rintro rfl; rw [read_top] at h; cases h

theorem lt_top_of_read (h : s.read a = some x) : a < s.top := by
  by_contra hge
  rw [read, s.cells_eq_none a (.inr (Nat.le_of_not_lt hge))] at h
  cases h

theorem ne_zero_of_read (h : s.read a = some x) : a ≠ 0 := by
  rintro rfl; rw [read_zero] at h; cases h

@[simp] theorem alloc_fst : (s.alloc x).1 = s.top := rfl

theorem read_alloc : (s.alloc x).2.read b = if b = s.top then some x else s.read b := by
  simp only [read, alloc, Function.update_apply]

theorem ext_read (ht : s.top = s'.top) (hr : ∀ a, s.read a = s'.read a) : s = s' := by
  obtain ⟨c, t, _, _⟩ := s
  obtain ⟨c', t', _, _⟩ := s'
  obtain rfl : t = t' := ht
  obtain rfl : c = c' := funext hr
  rfl

/-- A change of a cell: it is there, it is changed, and no other cell is. -/
theorem modify_eq_some {f : α → α} : s.modify a f = some s' ↔
    ∃ x, s.read a = some x ∧ s'.top = s.top ∧
      ∀ b, s'.read b = if b = a then some (f x) else s.read b := by
  have hmod : ∀ hs : (s.cells a).isSome, ∀ b, (s.put a hs (some (f ((s.cells a).get hs)))).read b =
      if b = a then some (f ((s.cells a).get hs)) else s.read b :=
    fun _ b => Function.update_apply ..
  simp only [modify]
  constructor
  · intro h
    split at h <;> [rename_i hs; cases h]
    cases h
    exact ⟨_, (Option.some_get hs).symm, rfl, hmod hs⟩
  · rintro ⟨x, hx, ht, hr⟩
    have hs : (s.cells a).isSome := Option.isSome_iff_exists.mpr ⟨x, hx⟩
    have hget : (s.cells a).get hs = x := Option.get_of_eq_some hs hx
    rw [dif_pos hs, Option.some.injEq]
    exact ext_read ht.symm fun b => by rw [hmod hs, hget, hr]

/-- A cell given back: it was there, and no other cell changes. -/
theorem free_eq_some : s.free a = some s' ↔
    (∃ x, s.read a = some x) ∧ s'.top = s.top ∧
      ∀ b, s'.read b = if b = a then none else s.read b := by
  have hput : ∀ hs : (s.cells a).isSome, ∀ b, (s.put a hs none).read b =
      if b = a then none else s.read b := fun _ b => Function.update_apply ..
  simp only [free]
  constructor
  · intro h
    split at h <;> [rename_i hs; cases h]
    cases h
    exact ⟨Option.isSome_iff_exists.mp hs, rfl, hput hs⟩
  · rintro ⟨hx, ht, hr⟩
    have hs : (s.cells a).isSome := Option.isSome_iff_exists.mpr hx
    rw [dif_pos hs, Option.some.injEq]
    exact ext_read ht.symm fun b => by rw [hput hs, hr]

/-- A cell that is there can be changed. -/
theorem exists_modify (h : s.read a = some x) (f : α → α) : ∃ s', s.modify a f = some s' ∧
    s'.top = s.top ∧ ∀ b, s'.read b = if b = a then some (f x) else s.read b := by
  have hs : (s.cells a).isSome := Option.isSome_iff_exists.mpr ⟨x, h⟩
  obtain ⟨y, hy, ht, hr⟩ := modify_eq_some.mp (dif_pos hs : s.modify a f = _)
  cases h.symm.trans hy
  exact ⟨_, dif_pos hs, ht, hr⟩

/-- The same in terms of what there was. -/
theorem exists_modify_map (h : s.read a = some x) (f : α → α) : ∃ s', s.modify a f = some s' ∧
    ∀ b, s'.read b = if b = a then (s.read b).map f else s.read b := by
  obtain ⟨s', hmod, -, hread⟩ := exists_modify h f
  refine ⟨s', hmod, fun b => ?_⟩
  rw [hread]
  split
  · rename_i hb
    rw [hb, h, Option.map_some]
  · rfl

theorem exists_free (h : s.read a = some x) : ∃ s', s.free a = some s' ∧
    s'.top = s.top ∧ ∀ b, s'.read b = if b = a then none else s.read b := by
  have hs : (s.cells a).isSome := Option.isSome_iff_exists.mpr ⟨x, h⟩
  exact ⟨_, dif_pos hs, (free_eq_some.mp (dif_pos hs : s.free a = _)).2⟩

end Store

end DShow
