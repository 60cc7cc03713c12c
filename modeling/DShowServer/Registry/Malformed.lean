import DShowServer.Registry.Persist
import Mathlib.Algebra.Group.Int.Defs

/-!
# Opening a registry file that may be anything

`Process.openRegistry` models the files that `save_registry` writes. Here the
same function is followed over every file: a `read` that meets the end of the
file leaves the rest of a variable as it was, whether that is an earlier value or
what `malloc` left there, sizes are 32-bit numbers, and every access to memory is
recorded beside the size of the block it goes to (`Access`). `malloc` is taken to
succeed.

`accesses_inside_iff` says for which files every access stays inside its block;
`accesses_inside_saveRegistry` that those that `save_registry` writes are among them.
-/

namespace DShow.Registry.Raw

open Bytes

/-- An access to memory: a `read` of some bytes into a block, a zero stored in a
block, an entry of a table of some entries. -/
inductive Access
  | read (asked size : Nat)
  | zero (index : Int) (size : Nat)
  | entry (index count : Nat)
deriving DecidableEq

def Access.Inside : Access → Prop
  | read asked size => asked ≤ size
  | zero index size => 0 ≤ index ∧ index < size
  | entry index count => index < count

instance : DecidablePred Access.Inside
  | .read _ _ => Nat.decLe _ _
  | .zero _ _ => instDecidableAnd
  | .entry _ _ => Nat.decLt _ _

/-- What `read(fd, &x, 4)` leaves in `x`, with `rest` left of the file. -/
def word (x : BitVec 32) (rest : List UInt8) : BitVec 32 :=
  BitVec.ofNat 32 (ofLeBytes (rest.take 4 ++ (le32 x).drop rest.length))

/-- `struct reg_value`, with the bytes that were read into its two blocks. -/
structure RegValue where
  type : BitVec 32
  name : List UInt8
  len : BitVec 32
  value : List UInt8

/-- What is left of the file, the variable `len`, the entries so far and the
accesses so far. -/
structure Opening where
  rest : List UInt8
  len : BitVec 32
  regs : List RegValue
  accesses : List Access

/-- The body of the loop, for entry `i` of a table with room for `count`; `mem`
is what lay in the entry. The two lengths are an `unsigned int` and an `int`. -/
def openEntry (count : Nat) (mem : RegValue) (i : Nat) (s : Opening) : Opening :=
  let type := word mem.type s.rest
  let rest := s.rest.drop 4
  let len := word s.len rest
  let rest := rest.drop 4
  let nameSize := (len + 1).toNat
  let name := rest.take len.toNat
  let rest := rest.drop len.toNat
  let vlen := word mem.len rest
  let rest := rest.drop 4
  let valueSize := (vlen + 1).toNat
  let value := rest.take vlen.toNat
  { rest := rest.drop vlen.toNat
    len := len
    regs := s.regs ++ [⟨type, name, vlen, value⟩]
    accesses := s.accesses ++ [.entry i count, .read 4 4, .read 4 4, .read len.toNat nameSize,
      .zero len.toNat nameSize, .read 4 4, .read vlen.toNat valueSize, .zero vlen.toInt valueSize] }

/-- The loop, with `n` entries to go. -/
def openLoop (count : Nat) (mem : Nat → RegValue) : Nat → Nat → Opening → Opening
  | 0, _, s => s
  | n + 1, i, s => openLoop count mem n (i + 1) (openEntry count (mem i) i s)

/-- `open_registry` of a file that could be opened. The variables have values
before it starts, `len` as the stack left it, and the entries are as `malloc`
left them; a table of `reg_size` entries has 16 bytes for each. -/
def openRegistry (file : List UInt8) (reg_size len : BitVec 32) (mem : Nat → RegValue) : Opening :=
  let reg_size := word reg_size file
  let count := (reg_size * 16).toNat / 16
  openLoop count mem reg_size.toInt.toNat 0 ⟨file.drop 4, len, [], [.read 4 4]⟩

/-! ## Which files are safe -/

/-- The lengths of the names and values that a file gives for `n` entries, where
it ends those that are there already. -/
def lengths (mem : Nat → RegValue) : Nat → Nat → BitVec 32 → List UInt8 →
    List (BitVec 32 × BitVec 32)
  | 0, _, _, _ => []
  | n + 1, i, len, bytes =>
    let len := word len (bytes.drop 4)
    let bytes := bytes.drop (8 + len.toNat)
    let vlen := word (mem i).len bytes
    (len, vlen) :: lengths mem n (i + 1) len (bytes.drop (4 + vlen.toNat))

/-- A file that cannot do harm: it has fewer than 2²⁸ entries or a negative
number, no name is 2³² − 1 bytes long, and no value has a negative length. -/
def Harmless (file : List UInt8) (reg_size len : BitVec 32) (mem : Nat → RegValue) : Prop :=
  (word reg_size file).toInt < 2 ^ 28 ∧
    ∀ l ∈ lengths mem (word reg_size file).toInt.toNat 0 len (file.drop 4), l.1 ≠ -1 ∧ 0 ≤ l.2.toInt

theorem name_inside (len : BitVec 32) : len.toNat ≤ (len + 1).toNat ∧
    (len.toNat : Int) < (len + 1).toNat ↔ len ≠ -1 := by
  bv_omega

theorem value_inside (len : BitVec 32) : len.toNat ≤ (len + 1).toNat ∧
    0 ≤ len.toInt ∧ len.toInt < (len + 1).toNat ↔ 0 ≤ len.toInt := by
  have := BitVec.toInt_eq_toNat_cond len
  split at this <;> bv_omega

/-- The table has room for all its entries, or has none. -/
theorem count_inside (n : BitVec 32) :
    (0 < n.toInt.toNat → n.toInt.toNat ≤ (n * 16).toNat / 16) ↔ n.toInt < 2 ^ 28 := by
  have hi := BitVec.toInt_eq_toNat_cond n
  have hm : (n * 16).toNat = n.toNat * 16 % 2 ^ 32 := BitVec.toNat_mul n 16
  split at hi <;> omega

theorem openEntry_inside (count : Nat) (mem : RegValue) (i : Nat) (s : Opening) :
    (∀ a ∈ (openEntry count mem i s).accesses, a.Inside) ↔ (∀ a ∈ s.accesses, a.Inside) ∧ i < count ∧
      (openEntry count mem i s).len ≠ -1 ∧
      0 ≤ (word mem.len (s.rest.drop (8 + (openEntry count mem i s).len.toNat))).toInt := by
  have hname := name_inside (word s.len (s.rest.drop 4))
  have hvalue := value_inside
    (word mem.len (s.rest.drop (8 + (word s.len (s.rest.drop 4)).toNat)))
  simp only [openEntry, List.forall_mem_append, List.forall_mem_cons, Access.Inside, List.drop_drop]
  constructor
  · rintro ⟨h, hi, -, -, hn, ⟨-, hn'⟩, -, hv, hv', -⟩
    exact ⟨h, hi, hname.mp ⟨hn, hn'⟩, hvalue.mp ⟨hv, hv'⟩⟩
  · rintro ⟨h, hi, hn, hv⟩
    obtain ⟨hn, hn'⟩ := hname.mpr hn
    obtain ⟨hv, hv'⟩ := hvalue.mpr hv
    exact ⟨h, hi, Nat.le_refl _, Nat.le_refl _, hn, ⟨Int.natCast_nonneg _, hn'⟩, Nat.le_refl _, hv, hv',
      List.forall_mem_nil _⟩

theorem openEntry_rest (count : Nat) (mem : RegValue) (i : Nat) (s : Opening) :
    (openEntry count mem i s).rest =
      (s.rest.drop (8 + (openEntry count mem i s).len.toNat)).drop
        (4 + (word mem.len (s.rest.drop (8 + (openEntry count mem i s).len.toNat))).toNat) := by
  simp only [openEntry, List.drop_drop, ← Nat.add_assoc]

/-- The loop stays inside if its entries fit and their lengths are harmless. -/
theorem openLoop_inside (count : Nat) (mem : Nat → RegValue) (n i : Nat) (s : Opening) :
    (∀ a ∈ (openLoop count mem n i s).accesses, a.Inside) ↔ (∀ a ∈ s.accesses, a.Inside) ∧
      (0 < n → i + n ≤ count) ∧ ∀ l ∈ lengths mem n i s.len s.rest, l.1 ≠ -1 ∧ 0 ≤ l.2.toInt := by
  induction n generalizing i s with
  | zero => simp [openLoop, lengths]
  | succ n ih =>
    have hcount : (0 < n + 1 → i + (n + 1) ≤ count) ↔ i < count ∧ (0 < n → i + 1 + n ≤ count) := by
      omega
    have hlen : (openEntry count (mem i) i s).len = word s.len (s.rest.drop 4) := rfl
    rw [openLoop, ih, openEntry_inside, hcount, lengths, List.forall_mem_cons, openEntry_rest, hlen]
    constructor
    · rintro ⟨⟨hs, hi, hn, hv⟩, hcount, hl⟩
      exact ⟨hs, ⟨hi, hcount⟩, ⟨hn, hv⟩, hl⟩
    · rintro ⟨hs, ⟨hi, hcount⟩, ⟨hn, hv⟩, hl⟩
      exact ⟨⟨hs, hi, hn, hv⟩, hcount, hl⟩

/-- **Which registry files are opened safely.** Every read asks for no more than
its block holds, every zero is stored inside its block and every entry lies in
the table, exactly for the harmless files. -/
theorem accesses_inside_iff (file : List UInt8) (reg_size len : BitVec 32) (mem : Nat → RegValue) :
    (∀ a ∈ (openRegistry file reg_size len mem).accesses, a.Inside) ↔
      Harmless file reg_size len mem := by
  rw [openRegistry, openLoop_inside, Nat.zero_add, count_inside, Harmless, List.forall_mem_singleton]
  exact and_iff_right (Nat.le_refl 4)

/-- One entry whose name is said to have 2³² − 1 bytes: `malloc(0)`, and a read of
2³² − 1 bytes. -/
theorem not_accesses_inside : ¬∀ a ∈ (openRegistry (le32 1 ++ le32 0 ++ le32 (-1)) 0 0
    fun _ => ⟨0, [], 0, []⟩).accesses, a.Inside := by
  decide +kernel

/-! ## The files of a registry -/

/-- An entry as the registry keeps it. -/
def RegValue.parts (r : RegValue) : BitVec 32 × CString × BitVec 32 × List UInt8 :=
  (r.type, .ofBytes r.name, r.len, r.value)

def partsOf (v : Registry.RegValue) : BitVec 32 × CString × BitVec 32 × List UInt8 :=
  (v.type, v.name, v.len, v.value)

theorem word_of_le32 {x : BitVec 32} {bytes rest : List UInt8}
    (h : Reader.le32 bytes = some (x, rest)) (y : BitVec 32) :
    word y bytes = x ∧ rest = bytes.drop 4 := by
  obtain ⟨hlen, rfl, rfl⟩ := Reader.le32_eq_some.mp h
  refine ⟨?_, rfl⟩
  rw [word, List.drop_eq_nil_of_le (by rw [le32, length_leBytes]; exact hlen), List.append_nil]

/-- Where an entry can be read, the loop reads it, and its lengths are harmless. -/
theorem openEntry_readValue {v : Registry.RegValue} {s : Opening} {rest : List UInt8}
    (h : readValue s.rest = some (v, rest)) (count : Nat) (mem : RegValue) (i : Nat) :
    (openEntry count mem i s).rest = rest ∧
      (openEntry count mem i s).regs.map RegValue.parts = s.regs.map RegValue.parts ++ [partsOf v] ∧
      (openEntry count mem i s).len ≠ -1 ∧
      0 ≤ (word mem.len (s.rest.drop (8 + (openEntry count mem i s).len.toNat))).toInt := by
  unfold readValue at h
  obtain ⟨type, b₁, h₁, h⟩ := Reader.bind_eq_some.mp h
  obtain ⟨len, b₂, h₂, h⟩ := Reader.bind_eq_some.mp h
  split at h <;> [rename_i hn; cases h]
  obtain ⟨name, b₃, h₃, h⟩ := Reader.bind_eq_some.mp h
  obtain ⟨vlen, b₄, h₄, h⟩ := Reader.bind_eq_some.mp h
  split at h <;> [rename_i hv; cases h]
  obtain ⟨value, b₅, h₅, h⟩ := Reader.bind_eq_some.mp h
  obtain ⟨e₁, rfl⟩ := word_of_le32 h₁ mem.type
  obtain ⟨e₂, rfl⟩ := word_of_le32 h₂ s.len
  obtain ⟨-, e₃, rfl⟩ := Reader.take_eq_some.mp h₃
  obtain ⟨e₄, rfl⟩ := word_of_le32 h₄ mem.len
  obtain ⟨-, e₅, rfl⟩ := Reader.take_eq_some.mp h₅
  cases h
  have hlen : (openEntry count mem i s).len = len := e₂
  have hvlen : word mem.len (s.rest.drop (8 + len.toNat)) = vlen := by
    rw [← e₄, List.drop_drop, List.drop_drop, show 4 + (4 + len.toNat) = 8 + len.toNat by omega]
  have hvalue : BitVec.ofNat 32 value.1.length = vlen := by
    rw [value.2, BitVec.ofNat_toNat, BitVec.setWidth_eq]
  refine ⟨?_, ?_, ?_, ?_⟩
  · simp only [openEntry, e₂, e₄]
  · simp only [openEntry, List.map_append, List.map_cons, List.map_nil, RegValue.parts, partsOf,
      Registry.RegValue.len, e₁, e₂, e₄, ← e₃, ← e₅, hvalue]
  · rw [hlen]
    unfold Fits at hn
    bv_omega
  · rw [hlen, hvlen]
    have := BitVec.toInt_eq_toNat_cond vlen
    unfold Fits at hv
    split at this <;> omega

theorem openLoop_readValue {n : Nat} {s : Opening} {l : { l : List Registry.RegValue // l.length = n }}
    {rest : List UInt8} (h : readValue.times n s.rest = some (l, rest)) (count : Nat)
    (mem : Nat → RegValue) (i : Nat) :
    (openLoop count mem n i s).regs.map RegValue.parts =
        s.regs.map RegValue.parts ++ l.1.map partsOf ∧
      ∀ x ∈ lengths mem n i s.len s.rest, x.1 ≠ -1 ∧ 0 ≤ x.2.toInt := by
  induction n generalizing i s with
  | zero =>
    cases h
    exact ⟨(List.append_nil _).symm, List.forall_mem_nil _⟩
  | succ n ih =>
    rw [Reader.times] at h
    obtain ⟨v, b, hv, h⟩ := Reader.bind_eq_some.mp h
    obtain ⟨l, b', hl, h⟩ := Reader.bind_eq_some.mp h
    cases h
    obtain ⟨rfl, hregs, hname, hvalue⟩ := openEntry_readValue hv count (mem i) i
    obtain ⟨hparts, hlengths⟩ := ih hl (i + 1)
    refine ⟨?_, ?_⟩
    · rw [openLoop, hparts, hregs, List.append_assoc]
      rfl
    · rw [lengths, List.forall_mem_cons]
      rw [openEntry_rest] at hlengths
      exact ⟨⟨hname, hvalue⟩, hlengths⟩

/-- Where a table can be read, the file is harmless and the table is opened. -/
theorem openRegistry_readTable {file rest : List UInt8} {t : Table}
    (h : readTable file = some (t, rest)) (reg_size len : BitVec 32) (mem : Nat → RegValue) :
    Harmless file reg_size len mem ∧
      (openRegistry file reg_size len mem).regs.map RegValue.parts = t.entries.map partsOf := by
  rw [readTable] at h
  obtain ⟨size, b, hb, h⟩ := Reader.bind_eq_some.mp h
  split at h <;> [rename_i hf; cases h]
  obtain ⟨l, b', hl, h⟩ := Reader.bind_eq_some.mp h
  cases h
  obtain ⟨hword, rfl⟩ := word_of_le32 hb reg_size
  unfold Fits at hf
  have hint : size.toInt = size.toNat := by
    have := BitVec.toInt_eq_toNat_cond size
    split at this <;> omega
  have hsize : size.toInt.toNat = size.toNat := by rw [hint, Int.toNat_natCast]
  obtain ⟨hregs, hlengths⟩ := openLoop_readValue (s := ⟨file.drop 4, len, [], [.read 4 4]⟩) hl
    ((size * 16).toNat / 16) mem 0
  rw [Harmless, openRegistry, hword, hsize]
  exact ⟨⟨by omega, hlengths⟩, hregs⟩

/-- What `save_registry` writes is opened safely, whatever the file held before. -/
theorem accesses_inside_saveRegistry (t : Table) (old : List UInt8) (reg_size len : BitVec 32)
    (mem : Nat → RegValue) :
    ∀ a ∈ (openRegistry (saveRegistry t old) reg_size len mem).accesses, a.Inside := by
  obtain ⟨stale, h⟩ := readTable_saveRegistry t old
  exact (accesses_inside_iff _ _ _ _).mpr (openRegistry_readTable h reg_size len mem).1

end DShow.Registry.Raw
