import Mathlib.Algebra.Group.Nat.Defs
import Mathlib.Data.List.Basic
import Mathlib.Data.Option.Basic

/-!
# Files of bytes, written and read in sequence

`Fd` is a file open for writing without truncation: a write replaces the bytes
at the offset, and what lies past it stays. A sequence of writes from the start
of the file is one write of all the bytes (`content_writes`).

A `Reader` takes a value off the front of what is left of a file. `Reads r a bytes`
says that `bytes` are what `r` reads as `a`, whatever follows them, so that the
readings of the parts of a format compose (`Reads.bind`, `Reads.times`).
-/

namespace DShow.Bytes

/-! ## Writing -/

/-- A file split at its offset. -/
structure Fd where
  before : List UInt8
  after : List UInt8

namespace Fd

/-- `open` without `O_TRUNC`. -/
def start (content : List UInt8) : Fd := ⟨[], content⟩

def write (f : Fd) (data : List UInt8) : Fd := ⟨f.before ++ data, f.after.drop data.length⟩

/-- One write after another. -/
def writes (f : Fd) (pieces : List (List UInt8)) : Fd := pieces.foldl write f

def content (f : Fd) : List UInt8 := f.before ++ f.after

/-- The pieces replace as many bytes as they have, and leave the others. -/
theorem writes_eq (f : Fd) (pieces : List (List UInt8)) : f.writes pieces = f.write pieces.flatten := by
  induction pieces generalizing f with
  | nil => simp only [writes, write, List.foldl_nil, List.flatten_nil, List.append_nil,
      List.length_nil, List.drop_zero]
  | cons p ps ih =>
    rw [writes, List.foldl_cons]
    refine (ih _).trans ?_
    simp only [write, List.flatten_cons, List.append_assoc, List.drop_drop, List.length_append]

theorem content_writes (old : List UInt8) (pieces : List (List UInt8)) :
    ((start old).writes pieces).content = pieces.flatten ++ old.drop pieces.flatten.length := by
  rw [writes_eq]
  rfl

end Fd

/-! ## Reading -/

/-- Takes a value off the front of the bytes that are left, if they suffice. -/
def Reader (α : Type) : Type := List UInt8 → Option (α × List UInt8)

namespace Reader

variable {α β : Type}

def pure (a : α) : Reader α := fun l => some (a, l)

/-- The reading stops. -/
def fail : Reader α := fun _ => none

def bind (r : Reader α) (f : α → Reader β) : Reader β := fun l => (r l).bind fun (a, l) => f a l

instance : Monad Reader where
  pure := pure
  bind := bind

/-- `n` bytes. -/
def take (n : Nat) : Reader { l : List UInt8 // l.length = n } := fun l =>
  if h : n ≤ l.length then some (⟨l.take n, by rw [List.length_take, Nat.min_eq_left h]⟩, l.drop n)
  else none

/-- The same reader `n` times. -/
def times (r : Reader α) : (n : Nat) → Reader { l : List α // l.length = n }
  | 0 => pure ⟨[], rfl⟩
  | n + 1 => do
    let a ← r
    let l ← times r n
    pure ⟨a :: l.1, congrArg Nat.succ l.2⟩

end Reader

theorem Reader.bind_eq_some {α β : Type} {r : Reader α} {f : α → Reader β} {b : β}
    {l rest : List UInt8} : (r >>= f) l = some (b, rest) ↔
      ∃ a m, r l = some (a, m) ∧ f a m = some (b, rest) := by
  show (r l).bind _ = _ ↔ _
  rw [Option.bind_eq_some_iff]
  exact ⟨fun ⟨⟨a, m⟩, h⟩ => ⟨a, m, h⟩, fun ⟨a, m, h⟩ => ⟨(a, m), h⟩⟩

theorem Reader.take_eq_some {n : Nat} {l rest : List UInt8} {x : { l : List UInt8 // l.length = n }} :
    Reader.take n l = some (x, rest) ↔ n ≤ l.length ∧ x.1 = l.take n ∧ rest = l.drop n := by
  unfold Reader.take
  split
  · rename_i h
    simp only [h, true_and, Option.some.injEq, Prod.mk.injEq, Subtype.ext_iff]
    exact and_congr eq_comm eq_comm
  · rename_i h
    exact ⟨fun e => (by cases e), fun e => absurd e.1 h⟩

/-- What a reader makes of some bytes, whatever follows them. -/
def Reads {α : Type} (r : Reader α) (a : α) (bytes : List UInt8) : Prop :=
  ∀ rest, r (bytes ++ rest) = some (a, rest)

namespace Reads

variable {α β : Type} {r : Reader α} {a : α} {xs ys : List UInt8}

theorem pure (a : α) : Reads (Reader.pure a) a [] := fun _ => rfl

theorem bind {f : α → Reader β} {b : β} (h : Reads r a xs) (hf : Reads (f a) b ys) :
    Reads (r >>= f) b (xs ++ ys) := by
  intro rest
  show (r (xs ++ ys ++ rest)).bind _ = _
  rw [List.append_assoc, h]
  exact hf rest

/-- A reader applied to what was read last. -/
theorem map {f : α → β} (h : Reads r a xs) : Reads (r >>= fun a => Reader.pure (f a)) (f a) xs := by
  have := h.bind (f := fun a => Reader.pure (f a)) (pure (f a))
  rwa [List.append_nil] at this

theorem take (xs : List UInt8) {n : Nat} (hn : xs.length = n) : Reads (Reader.take n) ⟨xs, hn⟩ xs := by
  subst hn
  intro rest
  simp only [Reader.take, List.length_append, Nat.le_add_right, dif_pos, List.take_left',
    List.drop_left']

theorem times {encode : α → List UInt8} (l : List α) {n : Nat} (hn : l.length = n)
    (h : ∀ a ∈ l, Reads r a (encode a)) : Reads (r.times n) ⟨l, hn⟩ (l.flatMap encode) := by
  subst hn
  induction l with
  | nil => exact pure _
  | cons a l ih =>
    rw [List.flatMap_cons]
    exact (h a List.mem_cons_self).bind (map (ih fun b hb => h b (List.mem_cons_of_mem _ hb)))

end Reads

/-! ## Little-endian numbers -/

/-- The `n` low bytes of a number, lowest first. -/
def leBytes : Nat → Nat → List UInt8
  | 0, _ => []
  | n + 1, x => UInt8.ofNat x :: leBytes n (x / 256)

def ofLeBytes : List UInt8 → Nat
  | [] => 0
  | b :: bs => b.toNat + 256 * ofLeBytes bs

@[simp] theorem length_leBytes (n x : Nat) : (leBytes n x).length = n := by
  induction n generalizing x with
  | zero => rfl
  | succ n ih => rw [leBytes, List.length_cons, ih]

theorem ofLeBytes_leBytes {n x : Nat} (h : x < 256 ^ n) : ofLeBytes (leBytes n x) = x := by
  induction n generalizing x with
  | zero => rw [Nat.lt_one_iff.mp h]; rfl
  | succ n ih =>
    have hdiv : x / 256 < 256 ^ n := Nat.div_lt_of_lt_mul (by rwa [Nat.pow_succ, Nat.mul_comm] at h)
    rw [leBytes, ofLeBytes, ih hdiv, UInt8.toNat_ofNat']
    exact Nat.mod_add_div x 256

/-- A 32-bit number as it lies in memory. -/
def le32 (x : BitVec 32) : List UInt8 := leBytes 4 x.toNat

/-- `read(fd, &x, 4)`. -/
def Reader.le32 : Reader (BitVec 32) := do
  let l ← take 4
  Reader.pure (BitVec.ofNat 32 (ofLeBytes l.1))

theorem Reader.le32_eq_some {l rest : List UInt8} {x : BitVec 32} :
    Reader.le32 l = some (x, rest) ↔
      4 ≤ l.length ∧ x = BitVec.ofNat 32 (ofLeBytes (l.take 4)) ∧ rest = l.drop 4 := by
  rw [Reader.le32, Reader.bind_eq_some]
  constructor
  · rintro ⟨b, m, hb, hx⟩
    obtain ⟨hlen, hl, rfl⟩ := Reader.take_eq_some.mp hb
    cases hx
    exact ⟨hlen, by rw [hl], rfl⟩
  · rintro ⟨hlen, rfl, rfl⟩
    exact ⟨⟨l.take 4, List.length_take_of_le hlen⟩, _, Reader.take_eq_some.mpr ⟨hlen, rfl, rfl⟩, rfl⟩

theorem Reads.le32 (x : BitVec 32) : Reads Reader.le32 x (Bytes.le32 x) := by
  have h : Reads Reader.le32 (BitVec.ofNat 32 (ofLeBytes (Bytes.le32 x))) (Bytes.le32 x) :=
    map (take (Bytes.le32 x) (length_leBytes 4 _))
  have e : ofLeBytes (Bytes.le32 x) = x.toNat := ofLeBytes_leBytes x.isLt
  rwa [e, BitVec.ofNat_toNat, BitVec.setWidth_eq] at h

end DShow.Bytes
