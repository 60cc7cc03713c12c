import DShowServer.Framework.Keyed
import DShowServer.Registry.Model

/-!
# The registry as a map

To its callers the registry is a map from full names to values: a handle leads
to the path it was opened with, and a value's full name is that path, a
backslash and its name. `View` keeps this map along a run, from the calls and
the handles they give out alone; `Inv` ties it to the table and the list of
handles of the process, and `call_inv` is its step. What a query returns is then
read off the view (`query_stored`), together with what a call leaves alone.
-/

namespace DShow.Registry

open Run

theorem default_no_nul : 0 ∉ ascii "<default>" := by decide

/-- The full name of a value: `<default>` stands for a null name. -/
def CString.under (path : CString) (name : Option CString) : CString :=
  ⟨path.chars ++ ascii "\\" ++ (name.getD ⟨ascii "<default>", default_no_nul⟩).chars, fun hm => by
    rcases List.mem_append.mp hm with hm | hm
    · exact (List.mem_append.mp hm).elim path.no_nul (show 0 ∉ ascii "\\" by decide)
    · exact (name.getD _).no_nul hm⟩

/-- The calls of a program that uses the registry. -/
inductive Call
  | openKey (key : BitVec 32) (subkey : Option CString)
  | createKey (key : BitVec 32) (name : Option CString)
  | setValue (key : BitVec 32) (name : Option CString) (type : BitVec 32) (data : List UInt8)
    (size : BitVec 32)
  | closeKey (key : BitVec 32)

/-- A call, with the new handle that it stores for the caller. -/
def Process.call (p : Process) : Call → Option (Option (BitVec 32) × Process)
  | .openKey key subkey => (p.regOpenKeyExA key subkey).map fun (r, p) => (r.2, p)
  | .createKey key name => (p.regCreateKeyExA key name).map fun (r, p) => (r.newkey, p)
  | .setValue key name type data size =>
    (p.regSetValueExA key name type data size).map fun (_, p) => (none, p)
  | .closeKey key => some (none, (p.regCloseKey key).2)

/-- What the callers know: the path of every open handle, what was last stored
under each full name, and how many handles were generated. -/
structure View where
  path : BitVec 32 → Option CString
  stored : CString → Option (BitVec 32 × List UInt8)
  generated : Nat

namespace View

/-- Only the two roots are open. -/
def start : View where
  path h := if h = hkeyCurrentUser then some hkcu
    else if h = hkeyLocalMachine then some hklm else none
  stored _ := none
  generated := 0

def fullName (v : View) (key : BitVec 32) (name : Option CString) : Option CString :=
  (v.path key).map fun path => path.under name

/-- A handle given out for a name under another handle. -/
def opened (v : View) (key : BitVec 32) (name : Option CString) : Option (BitVec 32) → View
  | none => v
  | some h => { v with
      path := Function.update v.path h (v.fullName key name), generated := v.generated + 1 }

def put (v : View) (value : BitVec 32 × List UInt8) : Option CString → View
  | none => v
  | some full => { v with stored := Function.update v.stored full (some value) }

def closed (v : View) (key : BitVec 32) : View :=
  if key = hkeyLocalMachine ∨ key = hkeyCurrentUser then v
  else { v with path := Function.update v.path key none }

/-- What a call changes, given the handle it stored for its caller. -/
def call (v : View) (newkey : Option (BitVec 32)) : Call → View
  | .openKey key subkey => v.opened key subkey newkey
  | .createKey key name => v.opened key name newkey
  | .setValue key name type data size => v.put (type, data.take size.toNat) (v.fullName key name)
  | .closeKey key => v.closed key

end View

/-- A process and what its callers know. -/
structure Client where
  proc : Process
  view : View

def Client.step (s : Client) (c : Call) : Option Client :=
  (s.proc.call c).map fun (newkey, p) => ⟨p, s.view.call newkey c⟩

/-- A program at its start, when the registry's file may hold anything, or with
the registry initialised to any table. -/
inductive Fresh : Client → Prop
  | new (file : Option (List UInt8)) : Fresh ⟨.new file, .start⟩
  | initialised (t : Table) (file : Option (List UInt8)) :
    Fresh ⟨({ Process.new file with regs := some t }).insertRoots, .start⟩

namespace Process

variable {p q p' : Process}

/-! ## What the functions do -/

theorem findHandle_eq (p : Process) (h : BitVec 32) :
    p.findHandle h = Keyed.lookup RegHandle.handle p.head h := rfl

theorem length_separator : (ascii "\\").length = 1 := by decide

theorem buildKeyname_cases {key : BitVec 32} {name : Option CString} {r : Option KeyName}
    (h : p.buildKeyname key name = some r) :
    ((p.findHandle key).map fun t => t.name.under name) = r.map KeyName.name ∧
      ∀ full, r = some full → Fits (full.name.chars.length + 9) := by
  unfold buildKeyname at h
  split at h
  · rename_i hk
    cases h
    exact ⟨by rw [hk]; rfl, fun _ he => by cases he⟩
  · rename_i t hk
    dsimp only at h
    split at h <;> [rename_i hf; cases h]
    cases h
    refine ⟨by rw [hk]; rfl, fun full he => ?_⟩
    cases he
    exact hf.mono (by simp only [List.length_append, length_separator]; omega)

theorem buildKeyname_eq {key : BitVec 32} {name : Option CString} {t : RegHandle}
    (ht : p.findHandle key = some t) (hf : Fits ((t.name.under name).chars.length + 9)) :
    ∃ full, p.buildKeyname key name = some (some full) ∧ full.name = t.name.under name := by
  have hf' : Fits (t.name.chars.length + (name.getD ⟨ascii "<default>", by decide⟩).chars.length + 10) :=
    hf.mono (by simp only [CString.under, List.length_append, length_separator]; omega)
  simp only [buildKeyname, ht]
  rw [dif_pos hf']
  exact ⟨_, rfl, rfl⟩

/-- What storing a value does to a registry that is initialised. -/
theorem insertRegValue_cases (hp : p.regs.isSome) {key : BitVec 32} {name : Option CString}
    {type : BitVec 32} {value : List UInt8} {full : KeyName}
    (hk : p.buildKeyname key name = some (some full))
    (h : p.insertRegValue key name type value = some p') :
    p'.head = p.head ∧ p'.zz = p.zz ∧ p'.regs.isSome ∧
      ∃ v : RegValue, v.type = type ∧ v.name = full.name ∧ v.value = value ∧
        p'.entries = Keyed.upsert RegValue.name p.entries v := by
  rw [insertRegValue, hk, Option.bind_some] at h
  dsimp only at h
  split at h <;> [rename_i hlen; cases h]
  have hv : Fits (value.length + 1) := by have := full.pos; unfold Fits; omega
  let v : RegValue := ⟨type, full.name, value, full.fits, hv⟩
  have hput : p.findValueByName full.name = Keyed.position RegValue.name p.entries v.name := rfl
  split at h
  · rename_i hnone
    split at h <;> cases h
    refine ⟨rfl, rfl, rfl, v, rfl, rfl, rfl, ?_⟩
    rw [Keyed.upsert, ← hput, hnone]
    rfl
  · rename_i i hsome
    split at h <;> cases h
    refine ⟨rfl, rfl, rfl, v, rfl, rfl, rfl, ?_⟩
    rw [Keyed.upsert, ← hput, hsome]
    rfl

theorem lookup_entries (p : Process) (full : CString) :
    (p.findValueByName full).bind (p.entries[·]?) = Keyed.lookup RegValue.name p.entries full :=
  (Keyed.lookup_eq p.entries full).symm

/-- `generate_handle` gives a handle above all it gave before, and never a root:
the next number, or the one past the two roots. -/
theorem generateHandle_cases {zz : BitVec 32} (h : zz.toNat < 2 ^ 32 - 3) :
    zz.toNat < (generateHandle zz).toNat ∧ generateHandle zz ≠ hkeyCurrentUser ∧
      generateHandle zz ≠ hkeyLocalMachine ∧
      ((generateHandle zz).toNat = zz.toNat + 1 ∧ (zz.toNat < 0x80000000 ∨ 0x80000002 ≤ zz.toNat) ∨
        0x80000000 ≤ zz.toNat ∧ zz.toNat ≤ 0x80000001 ∧ (generateHandle zz).toNat = 0x80000003) := by
  unfold generateHandle hkeyCurrentUser hkeyLocalMachine
  dsimp only
  split
  · bv_omega
  · split <;> bv_omega

end Process

/-! ## The process and the view -/

/-- The registry of a process, which is initialised, is what its callers know:
the list of handles leads where they opened them, and the table holds what they
stored. Handles are given out in order, past the two roots. -/
structure Agrees (p : Process) (v : View) : Prop where
  regs : p.regs.isSome
  path : ∀ h, (p.findHandle h).map RegHandle.name = v.path h
  nodup : (p.head.map RegHandle.handle).Nodup
  given : ∀ t ∈ p.head, t.handle = hkeyCurrentUser ∨ t.handle = hkeyLocalMachine ∨
    t.handle.toNat ≤ p.zz.toNat
  zz : p.zz.toNat ≤ 249 + v.generated ∧ p.zz.toNat < 0x80000001 ∨
    0x80000003 ≤ p.zz.toNat ∧ p.zz.toNat ≤ 251 + v.generated
  stored : ∀ full type bytes, v.stored full = some (type, bytes) → Fits (full.chars.length + 9) ∧
    ∃ r, Keyed.lookup RegValue.name p.entries full = some r ∧ r.type = type ∧ r.value = bytes

namespace Agrees

variable {p q p' : Process} {v : View} {key : BitVec 32} {name : Option CString}

theorem start (t : Table) (file : Option (List UInt8)) :
    Agrees ({ Process.new file with regs := some t }).insertRoots .start where
  regs := rfl
  path h := by
    simp only [Process.findHandle_eq, Process.insertRoots, Process.insertHandle, Process.new,
      Keyed.lookup_cons, View.start]
    by_cases hu : h = hkeyCurrentUser
    · rw [if_pos hu.symm, if_pos hu]
      rfl
    · rw [if_neg (Ne.symm hu), if_neg hu]
      by_cases hm : h = hkeyLocalMachine
      · rw [if_pos hm.symm, if_pos hm]
        rfl
      · rw [if_neg (Ne.symm hm), if_neg hm]
        rfl
  nodup := by simp [Process.insertRoots, Process.insertHandle, Process.new, hkeyCurrentUser,
    hkeyLocalMachine]
  given t ht := by
    simp only [Process.insertRoots, Process.insertHandle, Process.new, List.mem_cons,
      List.not_mem_nil, or_false] at ht
    rcases ht with rfl | rfl
    · exact .inl rfl
    · exact .inr (.inl rfl)
  zz := .inl ⟨Nat.le_refl 249, show 249 < 0x80000001 by decide⟩
  stored _ _ _ h := by cases h

/-- A registry that is not there yet is read or created when it is first used. -/
theorem of_new {file : Option (List UInt8)} (hq : (Process.new file).ready = some q) :
    Agrees q .start := by
  simp only [Process.ready, Process.new, Option.isSome_none, Bool.false_eq_true, if_false,
    Process.initRegistry, Process.openRegistry] at hq
  cases file with
  | none => cases hq; exact start Process.rootTable (some _)
  | some content =>
    simp only [Option.map_eq_some_iff] at hq
    obtain ⟨r, ⟨⟨t, rest⟩, -, rfl⟩, rfl⟩ := hq
    exact start t (some content)

theorem ready_eq (h : Agrees p v) : p.ready = some p := if_pos h.regs

theorem fullName_eq (h : Agrees p v) {r : Option KeyName} (hr : p.buildKeyname key name = some r) :
    v.fullName key name = r.map KeyName.name := by
  rw [← (Process.buildKeyname_cases hr).1, View.fullName, ← h.path key, Option.map_map]
  rfl

/-- A new handle, which no other can be. -/
theorem opened (h : Agrees p v) (hg : v.generated < 2 ^ 31) (full : CString) :
    Agrees ({ p with zz := Process.generateHandle p.zz }.insertHandle (Process.generateHandle p.zz) full)
      { v with
        path := Function.update v.path (Process.generateHandle p.zz) (some full)
        generated := v.generated + 1 } := by
  have hzz := h.zz
  obtain ⟨hlt, hu, hm, hnext⟩ :=
    Process.generateHandle_cases (show p.zz.toNat < 2 ^ 32 - 3 by omega)
  generalize Process.generateHandle p.zz = zz at hlt hu hm hnext ⊢
  have hnew : ∀ t ∈ p.head, t.handle ≠ zz := by
    intro t ht he
    rcases h.given t ht with hr | hr | hr
    · exact hu (he.symm.trans hr)
    · exact hm (he.symm.trans hr)
    · rw [he] at hr
      omega
  exact {
    regs := h.regs
    path := fun k => by
      rw [Process.findHandle_eq, Process.insertHandle, Keyed.lookup_cons]
      dsimp only
      rw [Function.update_apply]
      by_cases hk : k = zz
      · rw [if_pos hk.symm, if_pos hk]
        rfl
      · rw [if_neg (Ne.symm hk), if_neg hk]
        exact h.path k
    nodup := List.nodup_cons.mpr ⟨fun hm => by
      obtain ⟨t, ht, he⟩ := List.mem_map.mp hm
      exact hnew t ht he, h.nodup⟩
    given := fun t ht => by
      rcases List.mem_cons.mp ht with rfl | ht
      · exact .inr (.inr (Nat.le_refl _))
      · exact (h.given t ht).imp_right (Or.imp_right fun hr => Nat.le_of_lt (Nat.lt_of_le_of_lt hr hlt))
    zz := by
      show zz.toNat ≤ 249 + (v.generated + 1) ∧ _ ∨ _ ∧ zz.toNat ≤ 251 + (v.generated + 1)
      dsimp only [Process.insertHandle]
      omega
    stored := h.stored }

theorem closed (h : Agrees p v) (key : BitVec 32) : Agrees (p.regCloseKey key).2 (v.closed key) := by
  unfold Process.regCloseKey View.closed
  by_cases hm : key = hkeyLocalMachine
  · rw [if_pos hm, if_pos (.inl hm)]
    exact h
  by_cases hu : key = hkeyCurrentUser
  · rw [if_neg hm, if_pos hu, if_pos (.inr hu)]
    exact h
  rw [if_neg hm, if_neg hu, if_neg (not_or.mpr ⟨hm, hu⟩)]
  have hpath : ∀ k, (Keyed.lookup RegHandle.handle (p.head.eraseP fun t => t.handle = key) k).map
      RegHandle.name = Function.update v.path key none k := fun k => by
    rw [Keyed.lookup_eraseP h.nodup, Function.update_apply]
    split
    · rfl
    · exact h.path k
  cases hk : p.findHandle key with
  | none =>
    have : Function.update v.path key none = v.path := by
      rw [Function.update_eq_self_iff, ← h.path key, hk]
      rfl
    rw [this]
    exact h
  | some t => exact {
      regs := h.regs
      path := hpath
      nodup := h.nodup.sublist (List.eraseP_sublist.map _)
      given := fun t ht => h.given t (List.eraseP_sublist.mem ht)
      zz := h.zz
      stored := h.stored }

/-- A value put into the table, when the view changes in no other name. -/
theorem inserted (h : Agrees p v) {type : BitVec 32} {value : List UInt8} {full : KeyName}
    (hk : p.buildKeyname key name = some (some full))
    (hp : p.insertRegValue key name type value = some p')
    {stored : CString → Option (BitVec 32 × List UInt8)}
    (hst : ∀ f x, stored f = some x → f = full.name ∧ x = (type, value) ∨
      f ≠ full.name ∧ v.stored f = some x) : Agrees p' { v with stored := stored } := by
  obtain ⟨hhead, hzz, hregs, r, hty, hname, hval, hent⟩ := Process.insertRegValue_cases h.regs hk hp
  exact {
    regs := hregs
    path := fun k => by rw [← h.path k, Process.findHandle_eq, hhead, Process.findHandle_eq]
    nodup := hhead ▸ h.nodup
    given := by rw [hhead, hzz]; exact h.given
    zz := hzz ▸ h.zz
    stored := fun f ty bytes hf => by
      rw [hent, Keyed.lookup_upsert, hname]
      rcases hst f _ hf with ⟨rfl, he⟩ | ⟨hne, hf⟩
      · cases he
        exact ⟨(Process.buildKeyname_cases hk).2 full rfl, r, if_pos rfl, hty, hval⟩
      · rw [if_neg (Ne.symm hne)]
        exact h.stored f ty bytes hf }

end Agrees

/-! ## Runs -/

theorem View.generated_call (v : View) (newkey : Option (BitVec 32)) (c : Call) :
    v.generated ≤ (v.call newkey c).generated := by
  cases c with
  | openKey => cases newkey <;> simp [View.call, View.opened]
  | createKey => cases newkey <;> simp [View.call, View.opened]
  | setValue key name => simp only [View.call]; cases v.fullName key name <;> exact Nat.le_refl _
  | closeKey key => simp only [View.call, View.closed]; split <;> exact Nat.le_refl _

namespace Client

variable {s s' s₀ : Client} {q : Process}

/-- As long as the handles do not run out, the process and the view agree once
the registry is in use. -/
def Inv (s : Client) : Prop :=
  s.view.generated < 2 ^ 31 → Agrees s.proc s.view ∨ ∃ file, s = ⟨.new file, .start⟩

theorem Inv.ready (h : s.Inv) (hg : s.view.generated < 2 ^ 31) (hq : s.proc.ready = some q) :
    Agrees q s.view := by
  rcases h hg with ha | ⟨file, rfl⟩
  · rw [ha.ready_eq] at hq
    cases hq
    exact ha
  · exact Agrees.of_new hq

/-- Opening a key of a registry in use. -/
theorem openKey_inv {key : BitVec 32} {subkey : Option CString} (hv : Agrees q s.view)
    (hg : s.view.generated < 2 ^ 31) (hq : s.proc.ready = some q)
    (hs : s.step (.openKey key subkey) = some s') : Agrees s'.proc s'.view := by
  simp only [step, Process.call, Process.regOpenKeyExA, hq, Option.bind_some, Option.map_map,
    Option.map_eq_some_iff, Option.bind_eq_some_iff] at hs
  obtain ⟨x, ⟨r, hr, hx⟩, rfl⟩ := hs
  have hfull := hv.fullName_eq hr
  cases r with
  | none => cases hx; exact hv
  | some full =>
    cases hx
    have := hv.opened hg full.name
    simp only [Function.comp_apply, View.call, View.opened, hfull]
    exact this

/-- Creating a key of a registry in use: it is there, or put there. -/
theorem createKey_inv {key : BitVec 32} {name : Option CString} (hv : Agrees q s.view)
    (hg : s.view.generated < 2 ^ 31) (hq : s.proc.ready = some q)
    (hs : s.step (.createKey key name) = some s') : Agrees s'.proc s'.view := by
  simp only [step, Process.call, Process.regCreateKeyExA, hq, Option.bind_some, Option.map_map,
    Option.map_eq_some_iff, Option.bind_eq_some_iff] at hs
  obtain ⟨x, ⟨r, hr, hx⟩, rfl⟩ := hs
  have hfull := hv.fullName_eq hr
  cases r with
  | none => cases hx; exact hv
  | some full =>
    simp only [Option.map_eq_some_iff] at hx
    obtain ⟨q', hq', rfl⟩ := hx
    have hv' : Agrees q' s.view := by
      split at hq'
      · cases hq'; exact hv
      · rename_i hnone
        refine hv.inserted hr hq' fun f x hf => .inr ⟨?_, hf⟩
        rintro rfl
        obtain ⟨-, r, hl, -⟩ := hv.stored _ _ _ hf
        rw [← Process.lookup_entries] at hl
        rw [Option.not_isSome_iff_eq_none.mp hnone] at hl
        cases hl
    have := hv'.opened hg full.name
    simp only [Function.comp_apply, View.call, View.opened, hfull]
    exact this

/-- Storing a value in a registry in use. -/
theorem setValue_inv {key : BitVec 32} {name : Option CString} {type : BitVec 32} {data : List UInt8}
    {size : BitVec 32} (hv : Agrees q s.view) (hq : s.proc.ready = some q)
    (hs : s.step (.setValue key name type data size) = some s') : Agrees s'.proc s'.view := by
  simp only [step, Process.call, Process.regSetValueExA, hq, Option.bind_some, Option.map_map,
    Option.map_eq_some_iff, Option.bind_eq_some_iff] at hs
  obtain ⟨x, ⟨r, hr, hx⟩, rfl⟩ := hs
  have hfull := hv.fullName_eq hr
  cases r with
  | none =>
    cases hx
    simp only [Function.comp_apply, View.call, hfull]
    exact hv
  | some full =>
    dsimp only at hx
    split at hx <;> [cases hx; skip]
    simp only [Option.map_eq_some_iff] at hx
    obtain ⟨q', hq', rfl⟩ := hx
    simp only [Function.comp_apply, View.call, hfull, Option.map_some, View.put]
    refine hv.inserted hr hq' fun f x hf => ?_
    rw [Function.update_apply] at hf
    split at hf <;> rename_i he
    · exact .inl ⟨he, (Option.some.inj hf).symm⟩
    · exact .inr ⟨he, hf⟩

theorem ready_of_step {c : Call} (hc : ∀ key, c ≠ .closeKey key) (hs : s.step c = some s') :
    ∃ q, s.proc.ready = some q := by
  cases hq : s.proc.ready with
  | some q => exact ⟨q, rfl⟩
  | none =>
    cases c with
    | closeKey key => exact absurd rfl (hc key)
    | openKey => simp [step, Process.call, Process.regOpenKeyExA, hq] at hs
    | createKey => simp [step, Process.call, Process.regCreateKeyExA, hq] at hs
    | setValue => simp [step, Process.call, Process.regSetValueExA, hq] at hs

/-- Nothing is open before the registry is in use, and nothing closes. -/
theorem closeKey_new (file : Option (List UInt8)) (key : BitVec 32) :
    (⟨((Process.new file).regCloseKey key).2, View.start.closed key⟩ : Client) =
      ⟨.new file, .start⟩ := by
  unfold Process.regCloseKey View.closed
  by_cases hm : key = hkeyLocalMachine
  · rw [if_pos hm, if_pos (.inl hm)]
  by_cases hu : key = hkeyCurrentUser
  · rw [if_neg hm, if_pos hu, if_pos (.inr hu)]
  have hpath : Function.update View.start.path key none = View.start.path := by
    rw [Function.update_eq_self_iff]
    exact ((if_neg hu).trans (if_neg hm)).symm
  rw [if_neg hm, if_neg hu, if_neg (not_or.mpr ⟨hm, hu⟩), hpath]
  rfl

theorem call_inv (h : s.Inv) {c : Call} (hs : s.step c = some s') : s'.Inv := by
  intro hg'
  have hmono : s.view.generated ≤ s'.view.generated := by
    simp only [step, Option.map_eq_some_iff] at hs
    obtain ⟨⟨newkey, p⟩, -, rfl⟩ := hs
    exact View.generated_call s.view newkey c
  have hg : s.view.generated < 2 ^ 31 := Nat.lt_of_le_of_lt hmono hg'
  cases c with
  | closeKey key =>
    cases hs
    rcases h hg with ha | ⟨file, rfl⟩
    · exact .inl (ha.closed key)
    · exact .inr ⟨file, closeKey_new file key⟩
  | openKey key subkey =>
    obtain ⟨q, hq⟩ := ready_of_step (fun _ he => by cases he) hs
    exact .inl (openKey_inv (h.ready hg hq) hg hq hs)
  | createKey key name =>
    obtain ⟨q, hq⟩ := ready_of_step (fun _ he => by cases he) hs
    exact .inl (createKey_inv (h.ready hg hq) hg hq hs)
  | setValue key name type data size =>
    obtain ⟨q, hq⟩ := ready_of_step (fun _ he => by cases he) hs
    exact .inl (setValue_inv (h.ready hg hq) hq hs)

theorem Fresh.inv (h : Fresh s) : s.Inv := fun _ => by
  cases h with
  | new file => exact .inr ⟨file, rfl⟩
  | initialised t file => exact .inl (Agrees.start t file)

theorem exec_inv (h₀ : Fresh s₀) {calls : List Call} (hr : exec step s₀ calls = some s) : s.Inv :=
  exec_inv' (fun _ _ _ h hs => call_inv h hs) (Fresh.inv h₀) hr

/-! ## Queries -/

/-- A query of a name under which something was stored. -/
theorem query_stored (hv : Agrees q s.view) (hq : s.proc.ready = some q) {h : BitVec 32}
    {name : Option CString} {full : CString} {type count : BitVec 32} {bytes : List UInt8}
    (hfull : s.view.fullName h name = some full) (hst : s.view.stored full = some (type, bytes))
    (hc : (bytes.length : Int) ≤ count.toInt) :
    s.proc.regQueryValueExA h name true true count =
      some (⟨0, some type, bytes, BitVec.ofNat 32 bytes.length⟩, q) := by
  obtain ⟨hfits, r, hl, rfl, rfl⟩ := hv.stored full type bytes hst
  obtain ⟨path, hpath, rfl⟩ := Option.map_eq_some_iff.mp hfull
  rw [← hv.path h, Option.map_eq_some_iff] at hpath
  obtain ⟨t, ht, rfl⟩ := hpath
  obtain ⟨k, hk, hname⟩ := Process.buildKeyname_eq ht hfits
  have hval := r.value_fits
  unfold Fits at hval
  have hlen : r.len.toInt = r.value.length := by
    rw [RegValue.len, BitVec.toInt_ofNat']
    exact Int.bmod_eq_of_le (by omega) (by omega)
  rw [← hname, ← Process.lookup_entries] at hl
  have hn : (if r.len.toInt < count.toInt then r.len else count).toInt = r.value.length := by
    split <;> omega
  simp only [Process.regQueryValueExA, hq, Option.bind_some, hk, hl]
  generalize (if r.len.toInt < count.toInt then r.len else count) = n at hn
  have htake : r.value.take n.toNat = r.value :=
    List.take_of_length_le (by have := BitVec.toInt_eq_toNat_cond n; split at this <;> omega)
  rw [if_neg fun h => by omega, if_neg (by omega), htake]
  rfl

/-- A query reads the list of handles and one entry of the table. -/
theorem query_congr {p p' q' : Process} (hq : p.ready = some q) (hq' : p'.ready = some q')
    (hhead : q'.head = q.head) {h : BitVec 32} {name : Option CString}
    (hl : ∀ full, q.buildKeyname h name = some (some full) →
      Keyed.lookup RegValue.name q'.entries full.name = Keyed.lookup RegValue.name q.entries full.name)
    (type data : Bool) (count : BitVec 32) :
    (p'.regQueryValueExA h name type data count).map Prod.fst =
      (p.regQueryValueExA h name type data count).map Prod.fst := by
  have hk : q'.buildKeyname h name = q.buildKeyname h name := by
    simp only [Process.buildKeyname, Process.findHandle, hhead]
  simp only [Process.regQueryValueExA, hq, hq', Option.bind_some, hk, Process.lookup_entries]
  cases hb : q.buildKeyname h name with
  | none => rfl
  | some r =>
    cases r with
    | none => rfl
    | some full =>
      simp only [Option.bind_some, hl full hb]
      cases Keyed.lookup RegValue.name q.entries full.name with
      | none => rfl
      | some t => simp only [apply_ite (Option.map Prod.fst), Option.map_none, Option.map_some]

/-- Storing changes nothing under any other full name. -/
theorem setValue_query (hv : Agrees q s.view) (hq : s.proc.ready = some q) {key : BitVec 32}
    {name : Option CString} {type : BitVec 32} {data : List UInt8} {size : BitVec 32}
    (hs : s.step (.setValue key name type data size) = some s') {h : BitVec 32} {n : Option CString}
    {full : CString} (hfull : s.view.fullName h n = some full)
    (hne : s.view.fullName key name ≠ some full) (t d : Bool) (count : BitVec 32) :
    (s'.proc.regQueryValueExA h n t d count).map Prod.fst =
      (s.proc.regQueryValueExA h n t d count).map Prod.fst := by
  have hv' := setValue_inv hv hq hs
  simp only [step, Process.call, Process.regSetValueExA, hq, Option.bind_some, Option.map_map,
    Option.map_eq_some_iff, Option.bind_eq_some_iff] at hs
  obtain ⟨x, ⟨r, hr, hx⟩, rfl⟩ := hs
  rw [hv.fullName_eq hr] at hne
  cases r with
  | none =>
    cases hx
    exact query_congr hq hv'.ready_eq rfl (fun _ _ => rfl) t d count
  | some k =>
    dsimp only at hx
    split at hx <;> [cases hx; skip]
    simp only [Option.map_eq_some_iff] at hx
    obtain ⟨q', hq', rfl⟩ := hx
    obtain ⟨hhead, -, -, v, -, hname, -, hent⟩ := Process.insertRegValue_cases hv.regs hr hq'
    refine query_congr hq hv'.ready_eq hhead (fun k' hk' => ?_) t d count
    have hk' := (hv.fullName_eq hk').symm.trans hfull
    show Keyed.lookup RegValue.name q'.entries k'.name = _
    rw [hent, Keyed.lookup_upsert, if_neg]
    rw [hname]
    intro he
    exact hne (by rw [← hk', Option.map_some, he, Option.map_some])

/-- Creating a key leaves every entry of the table where and what it is. -/
theorem createKey_entries (hv : Agrees q s.view) (hq : s.proc.ready = some q) {key : BitVec 32}
    {name : Option CString} (hs : s.step (.createKey key name) = some s') {i : Nat} {v : RegValue}
    (hi : q.entries[i]? = some v) : s'.proc.entries[i]? = some v := by
  simp only [step, Process.call, Process.regCreateKeyExA, hq, Option.bind_some, Option.map_map,
    Option.map_eq_some_iff, Option.bind_eq_some_iff] at hs
  obtain ⟨x, ⟨r, hr, hx⟩, rfl⟩ := hs
  cases r with
  | none => cases hx; exact hi
  | some k =>
    simp only [Option.map_eq_some_iff] at hx
    obtain ⟨q', hq', rfl⟩ := hx
    show q'.entries[i]? = some v
    split at hq'
    · cases hq'; exact hi
    · rename_i hnone
      obtain ⟨-, -, -, w, -, hname, -, hent⟩ := Process.insertRegValue_cases hv.regs hr hq'
      rw [hent]
      refine Keyed.getElem?_upsert hi ?_
      rw [hname]
      exact Keyed.position_eq_none (Option.not_isSome_iff_eq_none.mp hnone) (List.mem_of_getElem? hi)

/-- **The registry is a map from full names.** After every run of calls in which
fewer than 2³¹ handles were generated, a query with room for it gives what was
last stored under the full name; storing changes what no other name gives; and
creating a key alters no entry that is there. -/
theorem registry_map (h₀ : Fresh s₀) {calls : List Call} (hr : exec step s₀ calls = some s)
    (hg : s.view.generated < 2 ^ 31) :
    (∀ h name full type bytes (count : BitVec 32), s.view.fullName h name = some full →
      s.view.stored full = some (type, bytes) → (bytes.length : Int) ≤ count.toInt →
      (s.proc.regQueryValueExA h name true true count).map Prod.fst =
        some ⟨0, some type, bytes, BitVec.ofNat 32 bytes.length⟩) ∧
    (∀ key name type data size s', s.step (.setValue key name type data size) = some s' →
      ∀ h n full, s.view.fullName h n = some full → s.view.fullName key name ≠ some full →
      ∀ t d count, (s'.proc.regQueryValueExA h n t d count).map Prod.fst =
        (s.proc.regQueryValueExA h n t d count).map Prod.fst) ∧
    (∀ key name s', s.step (.createKey key name) = some s' → ∀ q, s.proc.ready = some q →
      ∀ (i : Nat) v, q.entries[i]? = some v → s'.proc.entries[i]? = some v) := by
  have hi : s.Inv := exec_inv h₀ hr
  refine ⟨?_, ?_, ?_⟩
  · intro h name full type bytes count hfull hst hc
    rcases hi hg with ha | ⟨file, rfl⟩
    · rw [query_stored ha ha.ready_eq hfull hst hc]
      rfl
    · cases hst
  · intro key name type data size s' hs h n full hfull hne t d count
    obtain ⟨q, hq⟩ := ready_of_step (fun _ he => by cases he) hs
    exact setValue_query (hi.ready hg hq) hq hs hfull hne t d count
  · intro key name s' hs q hq i v hv
    exact createKey_entries (hi.ready hg hq) hq hs hv

/-- A key created, a value stored under it, both handles in turn closed. -/
theorem registry_map_two : ∃ s, exec step ⟨.new none, .start⟩
      [.createKey hkeyLocalMachine (some ⟨ascii "A", by decide⟩),
        .setValue 250 none 3 [1, 2, 3] 2, .openKey hkeyLocalMachine (some ⟨ascii "A", by decide⟩),
        .closeKey 250] = some s ∧
    (s.proc.regQueryValueExA 251 none true true 8).map Prod.fst = some ⟨0, some 3, [1, 2], 2⟩ := by
  obtain ⟨s, hr, hf, hst, hg⟩ : ∃ s, exec step ⟨.new none, .start⟩
      [.createKey hkeyLocalMachine (some ⟨ascii "A", by decide⟩),
        .setValue 250 none 3 [1, 2, 3] 2, .openKey hkeyLocalMachine (some ⟨ascii "A", by decide⟩),
        .closeKey 250] = some s ∧
      s.view.fullName 251 none = some ⟨ascii "HKLM\\A\\<default>", by decide⟩ ∧
      s.view.stored ⟨ascii "HKLM\\A\\<default>", by decide⟩ = some (3, [1, 2]) ∧
      s.view.generated < 2 ^ 31 := ⟨_, rfl, by decide +kernel, by decide +kernel, by decide +kernel⟩
  exact ⟨s, hr, (registry_map (.new none) hr hg).1 251 none _ 3 [1, 2] 8 hf hst (by decide)⟩

end Client

end DShow.Registry
