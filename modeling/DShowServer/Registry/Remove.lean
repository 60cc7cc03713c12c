import DShowServer.Registry.Model

/-!
# Recursive deletion (modify_reg.c)

`hier_remove_key` removes in place: where the name at an index begins with the
full name, the entries behind it are moved down by one and the index stays
(`removeLoop`), else the index goes on. `removeInPlace_eq` says that what is left
are the entries that `removeFrom` keeps, in their order; `recursive_iff` when
these are the entries outside the key that was to be deleted.
-/

namespace DShow.Registry

open Process (removeFrom)

/-- `for(j=i; j < reg_size-1; j++) regs[j] = regs[j+1]`, with `k` rounds to go. -/
def shiftDown {α : Type*} : Nat → Nat → List α → List α
  | 0, _, regs => regs
  | k + 1, j, regs => shiftDown k (j + 1) <|
    match regs[j + 1]? with
    | some v => regs.set j v
    | none => regs

/-- The loop of `hier_remove_key` on `regs` and `reg_size`, with `k` entries from
index `i` on. What lies behind `reg_size` stays where it was. -/
def removeLoop (full : CString) : Nat → Nat → List RegValue × Nat → List RegValue × Nat
  | 0, _, s => s
  | k + 1, i, (regs, size) =>
    match regs[i]? with
    | none => (regs, size)
    | some v =>
      if full.chars.isPrefixOf v.name.chars then
        removeLoop full k i (shiftDown (size - 1 - i) i regs, size - 1)
      else removeLoop full k (i + 1) (regs, size)

/-- What the loop leaves of a table. -/
def removeInPlace (full : CString) (regs : List RegValue) : List RegValue :=
  let (regs, size) := removeLoop full regs.length 0 (regs, regs.length)
  regs.take size

/-- The entries in front stay, and those behind the first come after them. -/
theorem shiftDown_take {α : Type*} {regs front back : List α} {x : α} {k j : Nat}
    (h : regs.take (j + k + 1) = front ++ x :: back) (hj : front.length = j) (hk : back.length = k) :
    (shiftDown k j regs).take (j + k) = front ++ back := by
  induction back generalizing k j regs front x with
  | nil =>
    obtain rfl : k = 0 := hk.symm
    have ht : (regs.take (j + 0 + 1)).take j = front := by
      rw [h, List.take_append_of_le_length hj.ge, ← hj, List.take_length]
    rw [List.take_take, Nat.min_eq_left (by omega)] at ht
    rw [shiftDown, Nat.add_zero, ht, List.append_nil]
  | cons y back ih =>
    obtain ⟨k, rfl⟩ : ∃ n, k = n + 1 := ⟨back.length, hk.symm⟩
    rw [List.length_cons, Nat.add_right_cancel_iff] at hk
    have hy : regs[j + 1]? = some y := by
      have hget : (regs.take (j + (k + 1) + 1))[j + 1]? = regs[j + 1]? :=
        List.getElem?_take_of_lt (by omega)
      rw [← hget, h, List.getElem?_append_right (by omega), hj, Nat.add_sub_cancel_left]
      rfl
    have hset : (regs.set j y).take (j + 1 + k + 1) = (front ++ [y]) ++ y :: back := by
      rw [List.take_set, show j + 1 + k + 1 = j + (k + 1) + 1 by omega, h,
        List.set_append_right _ _ hj.le, hj, Nat.sub_self, List.append_assoc]
      rfl
    rw [shiftDown, hy]
    dsimp only
    rw [show j + (k + 1) = j + 1 + k by omega, ih hset (by simp [hj]) hk, List.append_assoc]
    rfl

/-- The loop keeps what it has passed and filters the rest. -/
theorem removeLoop_take (full : CString) {todo kept regs : List RegValue} {size : Nat}
    (h : regs.take size = kept ++ todo) (hsize : size = kept.length + todo.length) :
    let s := removeLoop full todo.length kept.length (regs, size)
    s.1.take s.2 = kept ++ removeFrom full todo := by
  induction todo generalizing kept regs size with
  | nil => simpa [removeLoop, removeFrom] using h
  | cons v todo ih =>
    rw [List.length_cons] at hsize
    have hv : regs[kept.length]? = some v := by
      have hget : (regs.take size)[kept.length]? = regs[kept.length]? :=
        List.getElem?_take_of_lt (by omega)
      rw [← hget, h, List.getElem?_append_right (Nat.le_refl _), Nat.sub_self]
      rfl
    rw [List.length_cons, removeLoop, hv, removeFrom]
    dsimp only
    split
    · have hshift : (shiftDown (size - 1 - kept.length) kept.length regs).take (size - 1) =
          kept ++ todo := by
        rw [show size - 1 - kept.length = todo.length by omega,
          show size - 1 = kept.length + todo.length by omega]
        exact shiftDown_take (by rw [← h]; congr 1; omega) rfl rfl
      exact ih hshift (by omega)
    · have hkept : regs.take size = (kept ++ [v]) ++ todo := by rw [h, List.append_assoc]; rfl
      have := ih hkept (by simp only [List.length_append, List.length_singleton]; omega)
      rwa [List.length_append, List.length_singleton, List.append_assoc] at this

/-- The loop in place does what `removeFrom` does. -/
theorem removeInPlace_eq (full : CString) (regs : List RegValue) :
    removeInPlace full regs = removeFrom full regs := by
  have htake : regs.take regs.length = [] ++ regs := List.take_length
  exact removeLoop_take full htake (by simp)

/-! ## What a recursive deletion is to remove -/

/-- The name is the key's, or that of something below the key. -/
def Beneath (full name : CString) : Prop :=
  name = full ∨ full.chars ++ ascii "\\" <+: name.chars

instance (full name : CString) : Decidable (Beneath full name) := instDecidableOr

/-- The name goes on behind the key's with something else than a backslash. -/
def Extends (full name : CString) : Prop :=
  ∃ c rest, c ≠ 0x5c ∧ name.chars = full.chars ++ c :: rest

theorem beneath_or_extends {full name : CString} (h : full.chars <+: name.chars) :
    Beneath full name ∨ Extends full name := by
  obtain ⟨rest, hrest⟩ := h
  cases rest with
  | nil =>
    left; left
    cases name
    cases full
    simpa using hrest.symm
  | cons c rest =>
    by_cases hc : c = 0x5c
    · exact .inl (.inr ⟨rest, by rw [← hrest, hc, List.append_assoc]; rfl⟩)
    · exact .inr ⟨c, rest, hc, hrest.symm⟩

theorem Beneath.begins {full name : CString} (h : Beneath full name) : full.chars <+: name.chars := by
  rcases h with rfl | h
  · exact List.prefix_refl _
  · exact (List.prefix_append _ _).trans h

theorem Extends.begins {full name : CString} (h : Extends full name) : full.chars <+: name.chars := by
  obtain ⟨c, rest, -, h⟩ := h
  exact ⟨c :: rest, h.symm⟩

theorem Extends.not_beneath {full name : CString} (h : Extends full name) : ¬ Beneath full name := by
  obtain ⟨c, rest, hc, h⟩ := h
  rintro (rfl | ⟨rest', h'⟩)
  · simpa using congrArg List.length h
  · rw [h, List.append_assoc, List.append_cancel_left_eq] at h'
    exact hc (List.cons.inj h').1.symm

theorem removeFrom_eq_filter (full : CString) (l : List RegValue) :
    removeFrom full l = l.filter fun v => ¬ full.chars <+: v.name.chars := by
  induction l with
  | nil => rfl
  | cons v vs ih =>
    rw [removeFrom, ih, List.filter_cons]
    by_cases h : full.chars <+: v.name.chars
    · rw [if_pos (List.isPrefixOf_iff_prefix.mpr h), if_neg (by simpa using h)]
    · rw [if_neg (fun hp => h (List.isPrefixOf_iff_prefix.mp hp)), if_pos (by simpa using h)]

/-- Only what lies beneath the key is removed exactly if no entry extends its name. -/
theorem removeFrom_eq_iff (full : CString) (l : List RegValue) :
    removeFrom full l = (l.filter fun v => ¬ Beneath full v.name) ↔
      ∀ v ∈ l, ¬ Extends full v.name := by
  rw [removeFrom_eq_filter]
  constructor
  · intro h v hv hext
    have hkept : v ∈ l.filter fun v => ¬ Beneath full v.name :=
      List.mem_filter.mpr ⟨hv, by simpa using hext.not_beneath⟩
    rw [← h] at hkept
    exact absurd hext.begins (by simpa using (List.mem_filter.mp hkept).2)
  · intro h
    refine List.filter_congr fun v hv => decide_eq_decide.mpr (not_congr ⟨fun hp => ?_, Beneath.begins⟩)
    exact (beneath_or_extends hp).resolve_right (h v hv)

namespace Process

/-- **Recursive deletion.** For every table and every key that has a full name,
`hier_remove_key` leaves the entries that its loop keeps in place; they are
those that are neither the key nor below it exactly if no entry's name goes on
behind the key's with another character than a backslash. -/
theorem recursive_iff {p : Process} {t : Table} {handle : BitVec 32} {name : Option CString}
    {full : KeyName} (ht : p.regs = some t) (hk : p.buildKeyname handle name = some (some full)) :
    ∃ p', p.hierRemoveKey handle name = some p' ∧
      p'.entries = removeInPlace full.name p.entries ∧
      (p'.entries = (p.entries.filter fun v => ¬ Beneath full.name v.name) ↔
        ∀ v ∈ p.entries, ¬ Extends full.name v.name) := by
  have hent : p.entries = t.entries := by rw [entries, ht]; rfl
  refine ⟨_, by rw [hierRemoveKey, hk, Option.bind_some, ht]; rfl, ?_, ?_⟩
  · rw [removeInPlace_eq, hent]
    rfl
  · rw [hent]
    exact removeFrom_eq_iff full.name t.entries

/-- `HKLM\\A` and another key whose name begins in the same way, `HKLM\\AB` or `HKLM\\A\\B`. -/
def twoKeys (other : CString) (h : Fits (other.chars.length + 1)) : Process :=
  insertRoots { new none with
    regs := some ⟨[⟨dir, ⟨ascii "HKLM\\A", by decide⟩, [], by decide, show Fits 1 by decide⟩,
      ⟨1, other, [0x31, 0], h, by decide⟩], show Fits (16 * 2) by decide⟩ }

/-- Deleting `HKLM\\A` removes `HKLM\\AB` too. -/
theorem sibling_removed :
    ∃ p', (twoKeys ⟨ascii "HKLM\\AB", by decide⟩ (by decide)).hierRemoveKey hkeyLocalMachine
        (some ⟨ascii "A", by decide⟩) = some p' ∧
      p'.entries ≠ ((twoKeys ⟨ascii "HKLM\\AB", by decide⟩ (by decide)).entries.filter fun v =>
        ¬ Beneath ⟨ascii "HKLM\\A", by decide⟩ v.name) :=
  ⟨_, rfl, by decide⟩

/-- It removes `HKLM\\A\\B`, and nothing else there. -/
theorem recursive_iff_two :
    ∃ p', (twoKeys ⟨ascii "HKLM\\A\\B", by decide⟩ (by decide)).hierRemoveKey hkeyLocalMachine
        (some ⟨ascii "A", by decide⟩) = some p' ∧
      p'.entries = ((twoKeys ⟨ascii "HKLM\\A\\B", by decide⟩ (by decide)).entries.filter fun v =>
        ¬ Beneath ⟨ascii "HKLM\\A", by decide⟩ v.name) := by
  have hk : (twoKeys ⟨ascii "HKLM\\A\\B", by decide⟩ (by decide)).buildKeyname hkeyLocalMachine
      (some ⟨ascii "A", by decide⟩) =
        some (some ⟨⟨ascii "HKLM\\A", by decide⟩, by decide, by decide⟩) := rfl
  obtain ⟨p', hp', -, hiff⟩ := recursive_iff rfl hk
  have hbeneath : ∀ v ∈ (twoKeys ⟨ascii "HKLM\\A\\B", by decide⟩ (by decide)).entries,
      Beneath ⟨ascii "HKLM\\A", by decide⟩ v.name := by decide
  exact ⟨p', hp', hiff.mpr fun v hv hext => hext.not_beneath (hbeneath v hv)⟩

end Process

end DShow.Registry
