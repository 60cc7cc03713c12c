import DShowServer.Framework.Store
import Mathlib.Data.List.Nodup
import Mathlib.Data.List.Perm.Subperm

/-!
# Cells linked both ways

`Links` says how a cell holds a value and the addresses of its two neighbours. A
segment (`Seg`) is a list of cells that follow one another; a ring (`Ring`) is a
segment that leads back to its head, or nothing at `NULL`.

The neighbours of a segment are changed at its ends (`Seg.set_next`, `Seg.set_prev`),
which is all that taking the head out of a ring does (`Ring.del_head`). The addresses
of a ring lead only to one another (`Ring.next_mem`).
-/

namespace DShow

/-- Cells of a value and two links. -/
structure Links (α β : Type*) where
  cell : β → Nat → Nat → α
  next : α → Nat
  setNext : Nat → α → α
  setPrev : Nat → α → α
  next_cell (v : β) (n p : Nat) : next (cell v n p) = n
  setNext_cell (v : β) (n p n' : Nat) : setNext n' (cell v n p) = cell v n' p
  setPrev_cell (v : β) (n p p' : Nat) : setPrev p' (cell v n p) = cell v n p'

namespace Links

variable {α β : Type*}

/-- The first address of a list of cells, or what follows it. -/
def first (next : Nat) : List (Nat × β) → Nat
  | [] => next
  | (a, _) :: _ => a

/-- The last address of a list of cells, or what goes before it. -/
def last (prev : Nat) : List (Nat × β) → Nat
  | [] => prev
  | (a, _) :: l => last a l

variable (k : Links α β)

/-- The cells follow one another from `prev` to `next`. -/
def Seg (st : Store α) (next : Nat) : Nat → List (Nat × β) → Prop
  | _, [] => True
  | prev, (a, v) :: l => st.read a = some (k.cell v (first next l) prev) ∧ Seg st next a l

/-- The cells follow one another from the head back to the head. -/
structure Ring (st : Store α) (head : Nat) (l : List (Nat × β)) : Prop where
  head_eq : head = first 0 l
  seg : k.Seg st head (last 0 l) l
  nodup : (l.map Prod.fst).Nodup

variable {k} {st st' : Store α} {next prev head a : Nat} {v : β} {l l₁ l₂ : List (Nat × β)}

theorem first_mem (hl : l ≠ []) : first next l ∈ l.map Prod.fst := by
  cases l with
  | nil => exact absurd rfl hl
  | cons x l => exact List.mem_cons_self

theorem last_mem (hl : l ≠ []) : last prev l ∈ l.map Prod.fst := by
  induction l generalizing prev with
  | nil => exact absurd rfl hl
  | cons x l ih =>
    by_cases hl : l = []
    · subst hl; exact List.mem_cons_self
    · exact List.mem_cons_of_mem _ (ih hl)

/-- What follows or goes before does not matter where there are cells. -/
theorem first_eq (hl : l ≠ []) (n n' : Nat) : first n l = first n' l := by
  cases l with
  | nil => exact absurd rfl hl
  | cons x l => rfl

theorem last_eq (hl : l ≠ []) (p p' : Nat) : last p l = last p' l := by
  cases l with
  | nil => exact absurd rfl hl
  | cons x l => rfl

theorem Seg.congr (hs : k.Seg st next prev l) (he : ∀ b ∈ l.map Prod.fst, st'.read b = st.read b) :
    k.Seg st' next prev l := by
  induction l generalizing prev with
  | nil => trivial
  | cons x l ih =>
    exact ⟨(he _ List.mem_cons_self).trans hs.1, ih hs.2 fun b hb => he b (List.mem_cons_of_mem _ hb)⟩

theorem Seg.exists_read (hs : k.Seg st next prev l) (ha : a ∈ l.map Prod.fst) : ∃ c, st.read a = some c := by
  induction l generalizing prev with
  | nil => cases ha
  | cons x l ih =>
    rcases List.mem_cons.mp ha with rfl | ha
    · exact ⟨_, hs.1⟩
    · exact ih hs.2 ha

theorem Seg.ne_zero (hs : k.Seg st next prev l) (ha : a ∈ l.map Prod.fst) : a ≠ 0 :=
  (hs.exists_read ha).elim fun _ h => Store.ne_zero_of_read h

theorem Seg.lt_top (hs : k.Seg st next prev l) (ha : a ∈ l.map Prod.fst) : a < st.top :=
  (hs.exists_read ha).elim fun _ h => Store.lt_top_of_read h

/-- There are more addresses than cells. -/
theorem Seg.length_lt (hs : k.Seg st next prev l) (hn : (l.map Prod.fst).Nodup) : l.length < st.top := by
  have hsub : l.map Prod.fst ⊆ (List.range st.top).erase 0 := fun b hb => by
    rw [List.Nodup.mem_erase_iff List.nodup_range, List.mem_range]
    exact ⟨hs.ne_zero hb, hs.lt_top hb⟩
  have hle := (hn.subperm hsub).length_le
  have hpos := st.top_pos
  rw [List.length_map, List.length_erase_of_mem (List.mem_range.mpr hpos), List.length_range] at hle
  omega

/-- The last cell of a segment led elsewhere. -/
theorem Seg.set_next (hs : k.Seg st next prev l) (hn : (l.map Prod.fst).Nodup) (n : Nat)
    (he : ∀ b ∈ l.map Prod.fst,
      st'.read b = if b = last prev l then (st.read b).map (k.setNext n) else st.read b) :
    k.Seg st' n prev l := by
  induction l generalizing prev with
  | nil => trivial
  | cons x l ih =>
    obtain ⟨a, v⟩ := x
    rw [List.map_cons, List.nodup_cons] at hn
    have hx := he a List.mem_cons_self
    by_cases hl : l = []
    · subst hl
      rw [if_pos (by rfl), hs.1, Option.map_some, k.setNext_cell] at hx
      exact ⟨hx, trivial⟩
    · have hne : a ≠ last a l := fun e => hn.1 (by rw [e]; exact last_mem hl)
      rw [last, if_neg hne, hs.1, first_eq hl next n] at hx
      exact ⟨hx, ih hs.2 hn.2 fun b hb => he b (List.mem_cons_of_mem _ hb)⟩

/-- The first cell of a segment led back elsewhere. -/
theorem Seg.set_prev (hs : k.Seg st next prev l) (hn : (l.map Prod.fst).Nodup) (p : Nat)
    (he : ∀ b ∈ l.map Prod.fst,
      st'.read b = if b = first next l then (st.read b).map (k.setPrev p) else st.read b) :
    k.Seg st' next p l := by
  cases l with
  | nil => trivial
  | cons x l =>
    obtain ⟨a, v⟩ := x
    rw [List.map_cons, List.nodup_cons] at hn
    have hx := he a List.mem_cons_self
    rw [if_pos (by rfl), hs.1, Option.map_some, k.setPrev_cell] at hx
    refine ⟨hx, hs.2.congr fun b hb => ?_⟩
    rw [he b (List.mem_cons_of_mem _ hb), if_neg]
    rintro rfl
    exact hn.1 hb

theorem Seg.next_mem (hs : k.Seg st next prev l) {c : α} (ha : a ∈ l.map Prod.fst)
    (hc : st.read a = some c) : k.next c ∈ l.map Prod.fst ∨ k.next c = next := by
  induction l generalizing prev with
  | nil => cases ha
  | cons x l ih =>
    obtain ⟨b, v⟩ := x
    rcases List.mem_cons.mp ha with rfl | ha
    · obtain rfl := Option.some.inj (hs.1.symm.trans hc)
      rw [k.next_cell]
      by_cases hl : l = []
      · subst hl
        exact .inr rfl
      · exact .inl (List.mem_cons_of_mem _ (first_mem hl))
    · exact (ih hs.2 ha).imp_left (List.mem_cons_of_mem _)

/-- The addresses of a ring lead only to one another. -/
theorem Ring.next_mem (hr : k.Ring st head l) {c : α} (ha : a ∈ l.map Prod.fst) (hc : st.read a = some c) :
    k.next c ∈ l.map Prod.fst := by
  have hl : l ≠ [] := by
    rintro rfl
    cases ha
  refine (hr.seg.next_mem ha hc).elim id fun h => ?_
  rw [h, hr.head_eq]
  exact first_mem hl

/-- The head taken out: the last cell leads to the second, and the second back to the last. -/
theorem Ring.del_head (hr : k.Ring st head ((a, v) :: l)) (hl : l ≠ []) {st₁ st₂ : Store α}
    (h₁ : ∀ b, st₁.read b = if b = last 0 l then (st.read b).map (k.setNext (first 0 l)) else st.read b)
    (h₂ : ∀ b, b ≠ a →
      st₂.read b = if b = first 0 l then (st₁.read b).map (k.setPrev (last 0 l)) else st₁.read b) :
    k.Ring st₂ (first 0 l) l := by
  obtain ⟨ha, hn⟩ := List.nodup_cons.mp hr.nodup
  have hnext : k.Seg st₁ (first 0 l) a l := by
    refine hr.seg.2.set_next hn (first 0 l) fun b _ => ?_
    rw [h₁, last_eq hl 0 a]
  refine ⟨rfl, hnext.set_prev hn (last 0 l) fun b hb => ?_, hn⟩
  rw [h₂ b fun e => ha (e ▸ hb), ← first_eq hl 0 (first 0 l)]

end Links

end DShow
