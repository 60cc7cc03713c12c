import Mathlib.Data.List.Basic
import Mathlib.Data.Option.Basic

/-!
# Computations that read memory

A memory says which byte lies at an address, if the address may be read. A
`Probe` is a computation that reads bytes and cannot tell more of a memory than
what it reads: what it finds in a memory it finds in every larger one. So a
computation that succeeds in a memory of some bytes alone has read nothing else,
and finds the same whatever lies around them.
-/

namespace DShow

/-- The bytes at the addresses that may be read. -/
abbrev Memory := Nat → Option UInt8

namespace Memory

/-- Every byte of the one is a byte of the other. -/
def Le (m m' : Memory) : Prop := ∀ a x, m a = some x → m' a = some x

/-- Some bytes from address 0 on, and no others. -/
def ofList (l : List UInt8) : Memory := fun a => l[a]?

/-- A memory that may be read everywhere. -/
def total (f : Nat → UInt8) : Memory := fun a => some (f a)

/-- Some bytes, with others behind them. -/
def chunk (l : List UInt8) (after : Nat → UInt8) : Nat → UInt8 :=
  fun a => l.getD a (after (a - l.length))

theorem chunk_of_lt {l : List UInt8} {a : Nat} (h : a < l.length) (after : Nat → UInt8) :
    chunk l after a = l[a] := by
  rw [chunk, List.getD_eq_getElem?_getD, List.getElem?_eq_getElem h, Option.getD_some]

theorem ofList_le (l : List UInt8) (after : Nat → UInt8) : Le (ofList l) (total (chunk l after)) := by
  intro a x h
  obtain ⟨ha, rfl⟩ := List.getElem?_eq_some_iff.mp h
  exact congrArg some (chunk_of_lt ha after)

/-- The bytes from an address on, as many as asked for. -/
def slice (m : Memory) (a n : Nat) : List UInt8 := (List.range n).map fun i => (m (a + i)).getD 0

@[simp] theorem length_slice (m : Memory) (a n : Nat) : (m.slice a n).length = n := by
  rw [slice, List.length_map, List.length_range]

@[simp] theorem slice_zero (m : Memory) (a : Nat) : m.slice a 0 = [] := rfl

theorem slice_add (m : Memory) (a n k : Nat) : m.slice a (n + k) = m.slice a n ++ m.slice (a + n) k := by
  simp only [slice, List.range_add, List.map_append, List.map_map, Function.comp_def, Nat.add_assoc]

theorem slice_succ (m : Memory) (a n : Nat) : m.slice a (n + 1) = (m a).getD 0 :: m.slice (a + 1) n := by
  rw [Nat.add_comm, slice_add]
  rfl

/-- Bytes of a chunk. -/
theorem slice_chunk {l : List UInt8} {a n : Nat} (h : a + n ≤ l.length) (after : Nat → UInt8) :
    (total (chunk l after)).slice a n = (l.drop a).take n := by
  refine List.ext_getElem ?_ fun i hi _ => ?_
  · rw [length_slice, List.length_take, List.length_drop]
    omega
  · rw [length_slice] at hi
    simp only [List.getElem_take, List.getElem_drop, slice, List.getElem_map, List.getElem_range]
    exact chunk_of_lt (by omega) after

end Memory

/-- A computation on a memory, which has no result where it reads a byte that
is not there. -/
structure Probe (α : Type) where
  run : Memory → Option α
  mono : ∀ {m m' : Memory} {a : α}, m.Le m' → run m = some a → run m' = some a

namespace Probe

variable {α β : Type}

def pure (a : α) : Probe α := ⟨fun _ => some a, fun _ h => h⟩

def bind (x : Probe α) (f : α → Probe β) : Probe β where
  run m := (x.run m).bind fun a => (f a).run m
  mono hle h := by
    obtain ⟨a, ha, hb⟩ := Option.bind_eq_some_iff.mp h
    exact Option.bind_eq_some_iff.mpr ⟨a, x.mono hle ha, (f a).mono hle hb⟩

instance : Monad Probe where
  pure := pure
  bind := bind

/-- A result that is there or not, in whatever memory. -/
def lift (o : Option α) : Probe α := ⟨fun _ => o, fun _ h => h⟩

/-- The byte at an address. -/
def byte (a : Nat) : Probe UInt8 := ⟨fun m => m a, fun hle h => hle a _ h⟩

/-- The bytes of a copy. -/
def bytes (a : Nat) : Nat → Probe (List UInt8)
  | 0 => pure []
  | n + 1 => do
    let x ← byte a
    let xs ← bytes (a + 1) n
    pure (x :: xs)

@[simp] theorem run_pure (a : α) (m : Memory) : (Pure.pure a : Probe α).run m = some a := rfl

@[simp] theorem run_bind (x : Probe α) (f : α → Probe β) (m : Memory) :
    (x >>= f).run m = (x.run m).bind fun a => (f a).run m := rfl

@[simp] theorem run_byte (a : Nat) (m : Memory) : (byte a).run m = m a := rfl

@[simp] theorem run_lift (o : Option α) (m : Memory) : (lift o).run m = o := rfl

theorem run_ite {c : Prop} [Decidable c] (x y : Probe α) (m : Memory) :
    (if c then x else y).run m = if c then x.run m else y.run m := by
  split <;> rfl

theorem bind_eq_some {x : Probe α} {f : α → Probe β} {m : Memory} {b : β} :
    (x >>= f).run m = some b ↔ ∃ a, x.run m = some a ∧ (f a).run m = some b :=
  Option.bind_eq_some_iff

theorem exists_bind {x : Probe α} {f : α → Probe β} {m : Memory} {a : α} (h : x.run m = some a)
    (hf : ∃ b, (f a).run m = some b) : ∃ b, (x >>= f).run m = some b := by
  obtain ⟨b, hb⟩ := hf
  exact ⟨b, bind_eq_some.mpr ⟨a, h, hb⟩⟩

/-- A copy is the slice of the memory. -/
theorem bytes_eq_slice {m : Memory} {a n : Nat} {xs : List UInt8} (h : (bytes a n).run m = some xs) :
    xs = m.slice a n := by
  induction n generalizing a xs with
  | zero => exact (Option.some.inj h).symm
  | succ n ih =>
    obtain ⟨x, hx, h⟩ := bind_eq_some.mp h
    obtain ⟨ys, hys, h⟩ := bind_eq_some.mp h
    rw [← Option.some.inj h, ih hys, Memory.slice_succ, show m a = some x from hx, Option.getD_some]

theorem bytes_ofList (l : List UInt8) {a n : Nat} (h : a + n ≤ l.length) :
    ∃ xs, (bytes a n).run (.ofList l) = some xs := by
  induction n generalizing a with
  | zero => exact ⟨[], rfl⟩
  | succ n ih =>
    obtain ⟨xs, hxs⟩ := ih (a := a + 1) (by omega)
    have ha : a < l.length := by omega
    exact ⟨l[a] :: xs, bind_eq_some.mpr
      ⟨_, List.getElem?_eq_getElem ha, bind_eq_some.mpr ⟨xs, hxs, rfl⟩⟩⟩

/-- A copy of more bytes than there are. -/
theorem bytes_short {l : List UInt8} {a n : Nat} (h : l.length < a + n) (hn : 0 < n) :
    (bytes a n).run (.ofList l) = none := by
  induction n generalizing a with
  | zero => exact absurd hn (Nat.lt_irrefl 0)
  | succ n ih =>
    rw [bytes, run_bind, run_byte]
    rcases Nat.lt_or_ge a l.length with hlt | hge
    · rw [show Memory.ofList l a = some l[a] from List.getElem?_eq_getElem hlt, Option.bind_some, run_bind,
        ih (by omega) (by omega), Option.bind_none]
    · rw [show Memory.ofList l a = none from List.getElem?_eq_none hge, Option.bind_none]

/-! ## Computations that always return -/

/-- Where every byte is there the computation has a result. -/
def Total (x : Probe α) : Prop := ∀ f, ∃ a, x.run (.total f) = some a

namespace Total

theorem pure (a : α) : Total (Pure.pure a : Probe α) := fun _ => ⟨a, rfl⟩

theorem bind {x : Probe α} {f : α → Probe β} (h : Total x) (hf : ∀ a, Total (f a)) : Total (x >>= f) := by
  intro m
  obtain ⟨a, ha⟩ := h m
  exact exists_bind ha (hf a m)

theorem ite {c : Prop} [Decidable c] {x y : Probe α} (h : Total x) (h' : Total y) :
    Total (if c then x else y) := by
  split
  · exact h
  · exact h'

theorem lift {o : Option α} (h : ∃ a, o = some a) : Total (lift o) := fun _ => h

theorem byte (a : Nat) : Total (byte a) := fun f => ⟨f a, rfl⟩

theorem bytes (a n : Nat) : Total (bytes a n) := by
  induction n generalizing a with
  | zero => exact .pure []
  | succ n ih => exact (byte a).bind fun x => (ih (a + 1)).bind fun xs => .pure (x :: xs)

end Total

end Probe

end DShow
