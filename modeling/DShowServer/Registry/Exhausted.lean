import DShowServer.Registry.Model

/-!
# Loading a registry while memory runs out

`open_registry` allocates two blocks for each entry and leaves its loop at the
first that it does not get. Here the loop runs over a well-formed file with an
answer of `malloc` for every block, and says of every pointer in the table what
it leads to, so that the entries below `reg_size` can be looked at after the
exit (`openRegistry_spec`): those before the failing one are the file's, and
the failing one is counted though its name or its value is not there.
-/

namespace DShow.Registry.Exhausted

open Bytes

/-- What a pointer of the table leads to: nothing that was ever set, nothing, a
block that was freed, or a block and the bytes in it. -/
inductive Pointer
  | wild
  | null
  | freed
  | block (content : List UInt8)
deriving DecidableEq

/-- `struct reg_value`. -/
structure Entry where
  type : BitVec 32
  name : Pointer
  len : BitVec 32
  value : Pointer
deriving DecidableEq

/-- An entry of the new table, whose pointers were never set. -/
def Entry.unset (mem : BitVec 32 × BitVec 32) : Entry := ⟨mem.1, .wild, mem.2, .wild⟩

/-- The body of the loop, for entry `i`; the second component says that it goes
to `error`. -/
def openEntry (malloc : Nat → Bool) (i : Nat) (e : Entry) : Reader (Entry × Bool) := do
  let type ← Reader.le32
  let len ← Reader.le32
  let e := { e with type := type }
  if malloc (2 * i) then
    let name ← Reader.take len.toNat
    let vlen ← Reader.le32
    let e := { e with name := .block (name.1 ++ [0]), len := vlen }
    if malloc (2 * i + 1) then
      let value ← Reader.take vlen.toNat
      Reader.pure ({ e with value := .block (value.1 ++ [0]) }, false)
    else Reader.pure ({ e with name := .freed, value := .null }, true)
  else Reader.pure ({ e with name := .null }, true)

/-- `regs` and `reg_size`, and whether `error` was reached with `goto`. -/
structure Opened where
  regs : List Entry
  reg_size : Nat
  failed : Bool

/-- The loop, with `n` entries to go from index `i` on. -/
def openLoop (malloc : Nat → Bool) : Nat → Nat → List Entry → Reader Opened
  | 0, i, regs => Reader.pure ⟨regs, i, false⟩
  | n + 1, i, regs =>
    match regs[i]? with
    | none => Reader.fail
    | some e => do
      let (e, failed) ← openEntry malloc i e
      if failed then Reader.pure ⟨regs.set i e, i + 1, true⟩
      else openLoop malloc n (i + 1) (regs.set i e)

/-- `open_registry` of a file that could be opened, where `malloc` gives the
table and leaves `mem` in it. -/
def openRegistry (malloc : Nat → Bool) (mem : Nat → BitVec 32 × BitVec 32) : Reader Opened := do
  let size ← Reader.le32
  openLoop malloc size.toNat 0 ((List.range size.toNat).map fun i => Entry.unset (mem i))

/-- A name that ends and a value of its stated length. -/
structure Entry.Valid (e : Entry) : Prop where
  name : ∃ bytes, e.name = .block bytes ∧ 0 ∈ bytes
  value : ∃ bytes, e.value = .block (bytes ++ [0]) ∧ bytes.length = e.len.toNat

/-- Every entry that counts is valid. -/
def Opened.Initialised (o : Opened) : Prop :=
  ∀ i < o.reg_size, ∃ e, o.regs[i]? = some e ∧ e.Valid

/-- The pointers that `free_registry` gives to `free`. -/
def Opened.frees (o : Opened) : List Pointer :=
  (o.regs.take o.reg_size).flatMap fun e => [e.name, e.value]

/-- `free` takes a block, once, or nothing. -/
def Pointer.Freeable : Pointer → Prop
  | .null => True
  | .block _ => True
  | _ => False

/-! ## What the loop leaves -/

/-- The entry is a value of the file. -/
structure Entry.Holds (e : Entry) (v : RegValue) : Prop where
  type : e.type = v.type
  name : ∃ bytes, e.name = .block (bytes ++ [0]) ∧ .ofBytes bytes = v.name
  len : e.len = v.len
  value : e.value = .block (v.value ++ [0])

theorem Entry.Holds.valid {e : Entry} {v : RegValue} (h : e.Holds v) : e.Valid := by
  obtain ⟨bytes, hname, -⟩ := h.name
  have hlen : v.value.length = v.len.toNat := by
    have := v.value_fits
    rw [RegValue.len, BitVec.toNat_ofNat, Nat.mod_eq_of_lt (by unfold Fits at this; omega)]
  exact ⟨⟨_, hname, by simp⟩, ⟨_, h.value, by rw [h.len, hlen]⟩⟩

/-- Not valid, and not to be freed either. -/
structure Entry.Broken (e : Entry) : Prop where
  not_valid : ¬ e.Valid
  not_freeable : ∃ p ∈ [e.name, e.value], ¬ p.Freeable

/-- One entry: the file's value, or a broken entry and the exit. -/
theorem openEntry_spec {rest after : List UInt8} {v : RegValue} (h : readValue rest = some (v, after))
    (malloc : Nat → Bool) (i : Nat) (mem : BitVec 32 × BitVec 32) :
    ∃ e r, (malloc (2 * i) = true ∧ malloc (2 * i + 1) = true ∧ e.Holds v ∧
        openEntry malloc i (.unset mem) rest = some ((e, false), after)) ∨
      ((malloc (2 * i) = false ∨ malloc (2 * i + 1) = false) ∧ e.Broken ∧
        openEntry malloc i (.unset mem) rest = some ((e, true), r)) := by
  unfold readValue at h
  obtain ⟨type, r₁, h₁, h⟩ := Reader.bind_eq_some.mp h
  obtain ⟨len, r₂, h₂, h⟩ := Reader.bind_eq_some.mp h
  split at h <;> [skip; cases h]
  obtain ⟨name, r₃, h₃, h⟩ := Reader.bind_eq_some.mp h
  obtain ⟨vlen, r₄, h₄, h⟩ := Reader.bind_eq_some.mp h
  split at h <;> [skip; cases h]
  obtain ⟨value, r₅, h₅, h⟩ := Reader.bind_eq_some.mp h
  cases h
  have hvlen : vlen = BitVec.ofNat 32 value.1.length := by
    rw [value.2, BitVec.ofNat_toNat, BitVec.setWidth_eq]
  cases hm : malloc (2 * i) with
  | false =>
    refine ⟨⟨type, .null, mem.2, .wild⟩, r₂, .inr ⟨.inl rfl, ⟨fun hv => ?_, .wild, by simp, id⟩, ?_⟩⟩
    · obtain ⟨_, he, -⟩ := hv.value
      cases he
    · refine Reader.bind_eq_some.mpr ⟨type, r₁, h₁, Reader.bind_eq_some.mpr ⟨len, r₂, h₂, ?_⟩⟩
      simp only [hm]
      rfl
  | true =>
    cases hm' : malloc (2 * i + 1) with
    | false =>
      refine ⟨⟨type, .freed, vlen, .null⟩, r₄, .inr ⟨.inr rfl, ⟨fun hv => ?_, .freed, by simp, id⟩, ?_⟩⟩
      · obtain ⟨_, he, -⟩ := hv.value
        cases he
      · refine Reader.bind_eq_some.mpr ⟨type, r₁, h₁, Reader.bind_eq_some.mpr ⟨len, r₂, h₂, ?_⟩⟩
        simp only [hm, hm', if_true]
        exact Reader.bind_eq_some.mpr ⟨name, r₃, h₃, Reader.bind_eq_some.mpr ⟨vlen, r₄, h₄, rfl⟩⟩
    | true =>
      refine ⟨⟨type, .block (name.1 ++ [0]), vlen, .block (value.1 ++ [0])⟩, after, .inl ⟨rfl, rfl, ?_, ?_⟩⟩
      · exact ⟨rfl, ⟨_, rfl, rfl⟩, hvlen, rfl⟩
      · refine Reader.bind_eq_some.mpr ⟨type, r₁, h₁, Reader.bind_eq_some.mpr ⟨len, r₂, h₂, ?_⟩⟩
        simp only [hm, hm', if_true]
        refine Reader.bind_eq_some.mpr ⟨name, r₃, h₃, Reader.bind_eq_some.mpr ⟨vlen, r₄, h₄, ?_⟩⟩
        exact Reader.bind_eq_some.mpr ⟨value, _, h₅, rfl⟩

/-- What the loop leaves of `n` values from index `i` on: all of them, or those
before a broken entry, which is the last that counts. -/
structure Loaded (malloc : Nat → Bool) (n i : Nat) (vs : List RegValue) (o : Opened) : Prop where
  held : ∀ j v, vs[j]? = some v → i + j + (if o.failed then 1 else 0) < o.reg_size →
    ∃ e, o.regs[i + j]? = some e ∧ e.Holds v
  failed_iff : o.failed = true ↔ ∃ k, 2 * i ≤ k ∧ k < 2 * (i + n) ∧ malloc k = false
  whole : o.failed = false → o.reg_size = i + n
  broken : o.failed = true → i < o.reg_size ∧ o.reg_size ≤ i + n ∧
    ∃ e, o.regs[o.reg_size - 1]? = some e ∧ e.Broken

/-- The pass at index `i` succeeds: what the rest of the loop leaves, with the
value of this index in front. -/
theorem Loaded.cons {malloc : Nat → Bool} {n i : Nat} {v : RegValue} {vs : List RegValue} {o : Opened}
    {e : Entry} (hname : malloc (2 * i) = true) (hvalue : malloc (2 * i + 1) = true)
    (he : o.regs[i]? = some e) (hv : e.Holds v) (h : Loaded malloc n (i + 1) vs o) :
    Loaded malloc (n + 1) i (v :: vs) o where
  held := by
    rintro (_ | j) w hw hj
    · cases hw
      exact ⟨e, he, hv⟩
    · rw [show i + (j + 1) = i + 1 + j by omega] at hj ⊢
      exact h.held j w hw hj
  failed_iff := by
    rw [h.failed_iff]
    constructor
    · rintro ⟨k, h₁, h₂, hk⟩
      exact ⟨k, by omega, by omega, hk⟩
    · rintro ⟨k, h₁, h₂, hk⟩
      have h₀ : k ≠ 2 * i := fun hk' => by rw [hk', hname] at hk; cases hk
      have h₀' : k ≠ 2 * i + 1 := fun hk' => by rw [hk', hvalue] at hk; cases hk
      exact ⟨k, by omega, by omega, hk⟩
  whole hf := by
    rw [h.whole hf]
    omega
  broken hf := by
    obtain ⟨h₁, h₂, hb⟩ := h.broken hf
    exact ⟨by omega, by omega, hb⟩

/-- The pass at index `i` fails: `reg_size` counts it, and it is broken. -/
theorem Loaded.last {malloc : Nat → Bool} {n i : Nat} {vs : List RegValue} {regs : List Entry} {e : Entry}
    (hm : malloc (2 * i) = false ∨ malloc (2 * i + 1) = false) (he : regs[i]? = some e) (hb : e.Broken) :
    Loaded malloc (n + 1) i vs ⟨regs, i + 1, true⟩ where
  held j w _ hj := by
    rw [if_pos rfl] at hj
    dsimp only at hj
    omega
  failed_iff := by
    refine iff_of_true rfl ?_
    rcases hm with hm | hm
    · exact ⟨2 * i, by omega, by omega, hm⟩
    · exact ⟨2 * i + 1, by omega, by omega, hm⟩
  whole hf := by cases hf
  broken _ := ⟨Nat.lt_succ_self i, by dsimp only; omega, e, he, hb⟩

theorem openLoop_spec {n : Nat} {rest after : List UInt8} {l : { l : List RegValue // l.length = n }}
    (h : readValue.times n rest = some (l, after)) (malloc : Nat → Bool) (mem : Nat → BitVec 32 × BitVec 32)
    (i : Nat) {regs : List Entry} (hlen : regs.length = i + n)
    (hregs : ∀ j, i ≤ j → j < i + n → regs[j]? = some (.unset (mem j))) :
    ∃ o r, openLoop malloc n i regs rest = some (o, r) ∧ Loaded malloc n i l.1 o ∧
      ∀ j < i, o.regs[j]? = regs[j]? := by
  induction n generalizing i regs rest with
  | zero =>
    cases h
    refine ⟨⟨regs, i, false⟩, _, rfl, ⟨fun j v hv => ?_, ?_, fun _ => rfl, fun hf => ?_⟩, fun _ _ => rfl⟩
    · cases hv
    · exact iff_of_false Bool.false_ne_true fun ⟨k, h₁, h₂, _⟩ => by omega
    · cases hf
  | succ n ih =>
    rw [Reader.times] at h
    obtain ⟨v, r₁, hv, h⟩ := Reader.bind_eq_some.mp h
    obtain ⟨l, r₂, hl, h⟩ := Reader.bind_eq_some.mp h
    cases h
    have hget := hregs i (Nat.le_refl i) (by omega)
    have hself : ∀ e, (regs.set i e)[i]? = some e := fun e =>
      List.getElem?_set_self (by omega)
    have hother : ∀ e j, i ≠ j → (regs.set i e)[j]? = regs[j]? := fun e j hj =>
      List.getElem?_set_ne hj
    obtain ⟨e, r, ⟨hm, hm', he, ho⟩ | ⟨hm, he, ho⟩⟩ := openEntry_spec hv malloc i (mem i)
    · have hlen' : (regs.set i e).length = i + 1 + n := by rw [List.length_set, hlen]; omega
      obtain ⟨o, r', hloop, hload, hfront⟩ := ih hl (i + 1) hlen' fun j hij hj => by
        rw [hother e j (by omega)]
        exact hregs j (by omega) (by omega)
      refine ⟨o, r', ?_, hload.cons hm hm' ((hfront i (Nat.lt_succ_self i)).trans (hself e)) he, ?_⟩
      · rw [openLoop, hget]
        exact Reader.bind_eq_some.mpr ⟨_, _, ho, hloop⟩
      · intro j hj
        rw [hfront j (by omega), hother e j (by omega)]
    · refine ⟨⟨regs.set i e, i + 1, true⟩, r, ?_, .last hm (hself e) he, ?_⟩
      · rw [openLoop, hget]
        exact Reader.bind_eq_some.mpr ⟨_, _, ho, rfl⟩
      · intro j hj
        exact hother e j (by omega)

/-- The whole file: every value before the exit is there, and the exit is taken
if one of the allocations fails. -/
theorem openRegistry_spec {file rest : List UInt8} {t : Table} (h : readTable file = some (t, rest))
    (malloc : Nat → Bool) (mem : Nat → BitVec 32 × BitVec 32) :
    ∃ o r, openRegistry malloc mem file = some (o, r) ∧ Loaded malloc t.entries.length 0 t.entries o := by
  rw [readTable] at h
  obtain ⟨size, r₁, hsize, h⟩ := Reader.bind_eq_some.mp h
  split at h <;> [skip; cases h]
  obtain ⟨l, r₂, hl, h⟩ := Reader.bind_eq_some.mp h
  cases h
  have hlen : ((List.range size.toNat).map fun i => Entry.unset (mem i)).length = 0 + size.toNat := by simp
  obtain ⟨o, r, ho, hload, -⟩ := openLoop_spec hl malloc mem 0 hlen fun j _ hj => by
    rw [Nat.zero_add] at hj
    simp [hj]
  exact ⟨o, r, Reader.bind_eq_some.mpr ⟨size, r₁, hsize, ho⟩, by rw [l.2]; exact hload⟩

/-- With memory for all of it, the table is the file's. -/
theorem initialised_of_malloc {file rest : List UInt8} {t : Table} (h : readTable file = some (t, rest))
    {malloc : Nat → Bool} (hm : ∀ k < 2 * t.entries.length, malloc k = true)
    (mem : Nat → BitVec 32 × BitVec 32) :
    ∃ o r, openRegistry malloc mem file = some (o, r) ∧ o.Initialised := by
  obtain ⟨o, r, ho, hload⟩ := openRegistry_spec h malloc mem
  have hf : o.failed = false := by
    rw [← Bool.not_eq_true, hload.failed_iff]
    rintro ⟨k, -, hk, hkf⟩
    rw [hm k (by omega)] at hkf
    cases hkf
  refine ⟨o, r, ho, fun i hi => ?_⟩
  have hlt : i < t.entries.length := by have := hload.whole hf; omega
  obtain ⟨e, he, hv⟩ := hload.held i _ (List.getElem?_eq_getElem hlt) (by rw [hf]; simpa using hi)
  rw [Nat.zero_add] at he
  exact ⟨e, he, hv.valid⟩

/-- **Running out of memory while loading.** For every well-formed file and
whatever allocation fails in the loop, an entry below `reg_size` is not valid
after the exit, and `free_registry` frees a pointer of it that leads nowhere. -/
theorem not_initialised {file rest : List UInt8} {t : Table} (h : readTable file = some (t, rest))
    {malloc : Nat → Bool} {k : Nat} (hk : k < 2 * t.entries.length) (hm : malloc k = false)
    (mem : Nat → BitVec 32 × BitVec 32) :
    ∃ o r, openRegistry malloc mem file = some (o, r) ∧ o.failed = true ∧ ¬ o.Initialised ∧
      ∃ p ∈ o.frees, ¬ p.Freeable := by
  obtain ⟨o, r, ho, hload⟩ := openRegistry_spec h malloc mem
  have hf : o.failed = true := hload.failed_iff.mpr ⟨k, by omega, by omega, hm⟩
  obtain ⟨hpos, -, e, he, hb⟩ := hload.broken hf
  refine ⟨o, r, ho, hf, fun hi => ?_, ?_⟩
  · obtain ⟨e', he', hv⟩ := hi (o.reg_size - 1) (by omega)
    cases he.symm.trans he'
    exact hb.not_valid hv
  · obtain ⟨p, hp, hnot⟩ := hb.not_freeable
    refine ⟨p, List.mem_flatMap.mpr ⟨e, ?_, hp⟩, hnot⟩
    exact List.mem_of_getElem? ((List.getElem?_take_of_lt (by omega)).trans he)

/-- The registry with its two roots, and no memory for the value of the first:
its name is freed and it is counted. -/
theorem freed_name : ∃ o r, openRegistry (fun k => k ≠ 1) (fun _ => (0, 0))
    (saveRegistry Process.rootTable []) = some (o, r) ∧ o.reg_size = 1 ∧ ¬ o.Initialised := by
  refine ⟨_, _, rfl, rfl, fun h => ?_⟩
  obtain ⟨e, he, hv⟩ := h 0 Nat.one_pos
  cases he
  obtain ⟨_, hname, -⟩ := hv.name
  cases hname

/-- The same file, and no memory for the name of the second. -/
theorem not_initialised_roots : ∃ o r, openRegistry (fun k => k ≠ 2) (fun _ => (0, 0))
    (saveRegistry Process.rootTable []) = some (o, r) ∧ o.failed = true ∧ ¬ o.Initialised ∧
      ∃ p ∈ o.frees, ¬ p.Freeable :=
  have h : readTable (saveRegistry Process.rootTable []) = some (Process.rootTable, []) := rfl
  not_initialised h (k := 2) (by decide) rfl _

end DShow.Registry.Exhausted
