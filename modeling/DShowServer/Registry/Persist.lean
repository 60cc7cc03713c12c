import DShowServer.Registry.Model

/-!
# The registry survives its process

What `save_registry` writes of a value `open_registry` reads back as the same
value (`reads_readValue`), whatever follows, and so it reads back the whole
table and does not get to the stale bytes behind it (`readTable_saveRegistry`).
As every call that changes the table saves it, the file always holds the table
of the process (`Saved`).
-/

namespace DShow.Registry

open Bytes Run

/-! ## The format -/

theorem toNat_ofNat_length {α : Type*} {l : List α} (h : l.length < 2 ^ 32) :
    l.length = (BitVec.ofNat 32 l.length).toNat := by
  rw [BitVec.toNat_ofNat, Nat.mod_eq_of_lt h]

theorem reads_readValue (v : RegValue) : Reads readValue v v.pieces.flatten := by
  have hn := v.name_fits
  have hv := v.value_fits
  have hname : v.name.chars.length = _ := toNat_ofNat_length (by unfold Fits at hn; omega)
  have hvalue : v.value.length = _ := toNat_ofNat_length (by unfold Fits at hv; omega)
  refine (Reads.le32 v.type).bind ((Reads.le32 _).bind ?_)
  rw [dif_pos (hname ▸ hn)]
  refine (Reads.take v.name.chars hname).bind ((Reads.le32 v.len).bind ?_)
  rw [dif_pos (show Fits (v.len.toNat + 1) from hvalue ▸ hv)]
  refine (Reads.take v.value hvalue).bind ?_
  simp only [CString.ofBytes_chars]
  exact .pure v

theorem reads_readTable (t : Table) : Reads readTable t t.pieces.flatten := by
  have ht := t.fits
  have hsize : t.entries.length = _ := toNat_ofNat_length (by unfold Fits at ht; omega)
  have hvalues : (t.entries.flatMap RegValue.pieces).flatten =
      t.entries.flatMap fun v => v.pieces.flatten := by
    rw [List.flatMap_def, List.flatten_flatten, List.map_map]
    rfl
  rw [Table.pieces, List.flatten_cons, hvalues]
  refine (Reads.le32 _).bind ?_
  rw [dif_pos (hsize ▸ ht)]
  exact .map (Reads.times t.entries hsize fun v _ => reads_readValue v)

/-- Reading a file that was just saved, whatever it held before. -/
theorem readTable_saveRegistry (t : Table) (old : List UInt8) :
    ∃ stale, readTable (saveRegistry t old) = some (t, stale) := by
  rw [saveRegistry, Fd.content_writes]
  exact ⟨_, reads_readTable t _⟩

namespace Process

/-! ## Every call saves what it changes -/

/-- The file holds the table of the process, with anything behind it. -/
def Saved (p : Process) : Prop :=
  ∃ t old, p.regs = some t ∧ p.file = some (saveRegistry t old)

variable {p p' : Process}

theorem save_saved (p : Process) (t : Table) : (p.save t).Saved := ⟨t, _, rfl, rfl⟩

theorem createRegistry_saved (p : Process) : p.createRegistry.Saved := by
  unfold createRegistry
  split
  · exact save_saved _ _
  · exact save_saved _ _

theorem Saved.ready (h : p.Saved) (hr : p.ready = some p') : p'.Saved := by
  obtain ⟨t, -, ht, -⟩ := id h
  rw [Process.ready, ht] at hr
  cases hr
  exact h

theorem Saved.insertRegValue (h : p.Saved) {handle : BitVec 32} {name : Option CString}
    {type : BitVec 32} {value : List UInt8}
    (hi : p.insertRegValue handle name type value = some p') : p'.Saved := by
  simp only [Process.insertRegValue, Option.bind_eq_some_iff] at hi
  obtain ⟨full, -, hi⟩ := hi
  cases full with
  | none => cases hi; exact h
  | some full =>
    dsimp only at hi
    split at hi <;> [skip; cases hi]
    split at hi
    · split at hi <;> split at hi <;> cases hi <;> exact save_saved _ _
    · split at hi <;> cases hi
      exact save_saved _ _

theorem Saved.regCreateKeyExA (h : p.Saved) {key : BitVec 32} {name : Option CString} {c : Created}
    (hc : p.regCreateKeyExA key name = some (c, p')) : p'.Saved := by
  simp only [Process.regCreateKeyExA, Option.bind_eq_some_iff] at hc
  obtain ⟨q, hq, full, -, hc⟩ := hc
  have hq := h.ready hq
  cases full with
  | none => cases hc; exact hq
  | some full =>
    simp only [Option.map_eq_some_iff, Prod.mk.injEq] at hc
    obtain ⟨r, hr, -, rfl⟩ := hc
    split at hr
    · cases hr; exact hq
    · have := hq.insertRegValue hr
      exact this

theorem Saved.regSetValueExA (h : p.Saved) {key : BitVec 32} {name : Option CString}
    {type : BitVec 32} {data : List UInt8} {size : BitVec 32} {ret : Nat}
    (hc : p.regSetValueExA key name type data size = some (ret, p')) : p'.Saved := by
  simp only [Process.regSetValueExA, Option.bind_eq_some_iff] at hc
  obtain ⟨q, hq, full, -, hc⟩ := hc
  have hq := h.ready hq
  cases full with
  | none => cases hc; exact hq
  | some full =>
    dsimp only at hc
    split at hc <;> [cases hc; skip]
    simp only [Option.map_eq_some_iff, Prod.mk.injEq] at hc
    obtain ⟨r, hr, -, rfl⟩ := hc
    exact hq.insertRegValue hr

theorem hierRemoveKey_saved {handle : BitVec 32} {name : Option CString}
    (hc : p.hierRemoveKey handle name = some p') : p'.Saved := by
  simp only [Process.hierRemoveKey, Option.bind_eq_some_iff] at hc
  obtain ⟨full, -, hc⟩ := hc
  cases full with
  | none => cases hc
  | some full =>
    simp only [Option.map_eq_some_iff] at hc
    obtain ⟨t, -, rfl⟩ := hc
    exact save_saved _ _

/-! ## Runs -/

/-- The calls that can change the registry. -/
inductive RegCall
  | create (key : BitVec 32) (name : Option CString)
  | set (key : BitVec 32) (name : Option CString) (type : BitVec 32) (data : List UInt8)
    (size : BitVec 32)
  | hierRemove (handle : BitVec 32) (name : Option CString)

def step (p : Process) : RegCall → Option Process
  | .create key name => (p.regCreateKeyExA key name).map Prod.snd
  | .set key name type data size => (p.regSetValueExA key name type data size).map Prod.snd
  | .hierRemove handle name => p.hierRemoveKey handle name

/-- A process whose registry was created, over whatever a file held that could
not be read, or was opened from a file that `save_registry` wrote. -/
inductive Started : Process → Prop
  | created (file : Option (List UInt8)) : Started (new file).createRegistry.insertRoots
  | opened {t : Table} {old : List UInt8} {p : Process} :
    (new (some (saveRegistry t old))).openRegistry = some p → Started p.insertRoots

theorem Saved.step (h : p.Saved) {c : RegCall} (hs : Process.step p c = some p') : p'.Saved := by
  cases c with
  | create key name =>
    simp only [Process.step, Option.map_eq_some_iff] at hs
    obtain ⟨_, hc, rfl⟩ := hs
    exact h.regCreateKeyExA hc
  | set key name type data size =>
    simp only [Process.step, Option.map_eq_some_iff] at hs
    obtain ⟨_, hc, rfl⟩ := hs
    exact h.regSetValueExA hc
  | hierRemove handle name => exact hierRemoveKey_saved hs

/-- Opening the registry of a saved process gives its table. -/
theorem Saved.reload (h : p.Saved) :
    ∃ t q, p.regs = some t ∧ (new p.file).openRegistry = some q ∧ q.regs = some t := by
  obtain ⟨t, old, ht, hf⟩ := h
  obtain ⟨stale, hr⟩ := readTable_saveRegistry t old
  exact ⟨t, _, ht, by rw [hf]; simp only [openRegistry, new, hr, Option.map_some]; rfl, rfl⟩

theorem Started.saved (h : Started p) : p.Saved := by
  cases h with
  | created file => exact createRegistry_saved _
  | @opened t old p hp =>
    obtain ⟨stale, hr⟩ := readTable_saveRegistry t old
    simp only [openRegistry, new, hr, Option.map_some, Option.some.injEq] at hp
    subst hp
    exact ⟨t, old, rfl, rfl⟩

/-- **The registry persists.** After every run of calls a new process that
opens the file has the table of the process that wrote it. -/
theorem reload_eq {p₀ : Process} (h₀ : Started p₀) {calls : List RegCall}
    (hr : exec step p₀ calls = some p) :
    ∃ t q, p.regs = some t ∧ (new p.file).openRegistry = some q ∧ q.regs = some t := by
  exact Saved.reload (exec_inv' (fun _ _ _ h hs => h.step hs) h₀.saved hr)

/-- A key created and removed again: the file keeps its bytes past the table. -/
theorem reload_eq_two :
    ∃ p, exec step (new none).createRegistry.insertRoots
        [.create hkeyLocalMachine (some ⟨[0x41], by decide⟩),
          .hierRemove hkeyLocalMachine (some ⟨[0x41], by decide⟩)] = some p ∧
      ∃ t q, p.regs = some t ∧ (new p.file).openRegistry = some q ∧ q.regs = some t := by
  obtain ⟨p, hr⟩ : ∃ p, exec step (new none).createRegistry.insertRoots
      [.create hkeyLocalMachine (some ⟨[0x41], by decide⟩),
        .hierRemove hkeyLocalMachine (some ⟨[0x41], by decide⟩)] = some p := ⟨_, rfl⟩
  exact ⟨p, hr, reload_eq (.created none) hr⟩

end Process

end DShow.Registry
