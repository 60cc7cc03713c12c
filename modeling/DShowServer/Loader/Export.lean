import DShowServer.Framework.Bisect
import DShowServer.Loader.Relocation
import DShowServer.Registry.Model
import Mathlib.Data.List.Infix

/-!
# Exported functions

`PE_FindExportedFunction` searches the names of an export table by bisection and, if that
finds nothing, one after another; the ordinal it finds, or is given, is an index into
the functions. A function that lies in the table itself is a string, the module and the
name to which the function is forwarded, and is searched for there.

`ExportTable` is a table as its module means it. Where the tables lie in memory (`At`),
the search returns exactly what the tables resolve a name to (`Resolves`), through any
chain of forwarders (`findExportedFunction_resolves`), and in a table that is sorted
bisection alone finds every name (`findName_sorted`).
-/

namespace DShow.Loader

open Registry (CString ascii)
open Ram (Within)
open Bisect

/-! ## Strings in memory -/

def word (m : Ram 32) (a : BitVec 32) : Option (BitVec 32) := (m.readLE a 4).map (BitVec.ofNat 32)

def half (m : Ram 32) (a : BitVec 32) : Option (BitVec 16) := (m.readLE a 2).map (BitVec.ofNat 16)

/-- `strcmp` of the string at an address. -/
def strcmp (m : Ram 32) : BitVec 32 → List UInt8 → Option Ordering
  | a, [] => (m a).map fun b => if b = 0 then .eq else .gt
  | a, c :: cs => (m a).bind fun b =>
    if b = c then strcmp m (a + 1) cs else some (if b < c then .lt else .gt)

/-- The bytes from an address to a NUL. -/
def charsFrom (m : Ram 32) : Nat → BitVec 32 → Option (List UInt8)
  | 0, _ => none
  | room + 1, a => (m a).bind fun b => if b = 0 then some [] else (charsFrom m room (a + 1)).map (b :: ·)

/-- The string at an address. -/
def cstring (m : Ram 32) (a : BitVec 32) : Option CString := (charsFrom m (2 ^ 32) a).map CString.ofBytes

/-- `strchr(forward, '.')`: what stands before the dot, and behind it. -/
def splitDot (s : CString) : Option (CString × CString) :=
  match h : s.chars.dropWhile (· ≠ 46) with
  | [] => none
  | _ :: rest => some (⟨s.chars.takeWhile (· ≠ 46), fun hm => s.no_nul (List.takeWhile_prefix _ |>.subset hm)⟩,
      ⟨rest, fun hm => s.no_nul ((List.dropWhile_suffix _).subset (h ▸ List.mem_cons_of_mem _ hm))⟩)

/-! ## The search -/

/-- What `GetProcAddress` is asked for: a pointer, or a number below 0x10000. -/
inductive ProcName
  | name (s : CString)
  | ordinal (n : BitVec 16)
deriving DecidableEq

/-- `WINE_MODREF`: the file, where its image lies, and `binfmt.pe.pe_export`. -/
structure WineModref where
  filename : CString
  module : BitVec 32
  peExport : BitVec 32
deriving DecidableEq

/-- `MODULE_FindModule` in the list of modules, the newest first. -/
def findModule (mods : List WineModref) (m : CString) : Option WineModref :=
  mods.find? fun wm => m.chars <:+: wm.filename.chars

/-- `MODULE32_LookupHMODULE`. -/
def lookupHMODULE (mods : List WineModref) (m : BitVec 32) : Option WineModref :=
  mods.find? fun wm => wm.module = m

/-- The name at an index compared with one. -/
def compareName (m : Ram 32) (load_addr name : BitVec 32) (s : CString) (i : Nat) : Option Ordering := do
  let rva ← word m (name + BitVec.ofNat 32 (4 * i))
  strcmp m (load_addr + rva) s.chars

/-- The index of a name: by bisection, or else by a linear search. -/
def findName (m : Ram 32) (load_addr name : BitVec 32) (numberOfNames : Nat) (s : CString) :
    Option (Option Nat) := do
  match ← bisect (compareName m load_addr name s) (numberOfNames.log2 + 1) 0 numberOfNames with
  | some pos => some (some pos)
  | none => scan (compareName m load_addr name s) numberOfNames 0

/-- The index into the functions. -/
def findOrdinal (m : Ram 32) (load_addr exports : BitVec 32) : ProcName → Option (Option (BitVec 32))
  | .name s => do
    let ordinals ← word m (exports + 36)
    let name ← word m (exports + 32)
    let numberOfNames ← word m (exports + 24)
    match ← findName m load_addr (load_addr + name) numberOfNames.toNat s with
    | some pos => do
      let ordinal ← half m (load_addr + ordinals + BitVec.ofNat 32 (2 * pos))
      some (some (ordinal.setWidth 32))
    | none => some none
  | .ordinal n => do
    let base ← word m (exports + 16)
    some (some (n.setWidth 32 - base))

/-- `MODULE_GetProcAddress`, by a search in the module; `wrapper` stands for the dispatcher
of QuickTime. -/
def getProcAddress (find : WineModref → ProcName → Option (BitVec 32)) (mods : List WineModref)
    (wrapper hModule : BitVec 32) (function : ProcName) : Option (BitVec 32) :=
  match lookupHMODULE mods hModule with
  | none => some 0
  | some wm => (find wm function).map fun retproc =>
    if function = .name (CString.ofBytes (ascii "theQuickTimeDispatcher")) ∧ retproc ≠ 0 then wrapper
    else retproc

/-- A function that is forwarded, by `MODULE_GetProcAddress`. -/
def forwarded (get : BitVec 32 → CString → Option (BitVec 32)) (mods : List WineModref) (forward : CString) :
    Option (BitVec 32) :=
  match splitDot forward with
  | none => some 0
  | some (module, function) =>
    if module.chars.length ≥ 256 then some 0
    else match findModule mods module with
      | none => some 0
      | some wm => get wm.module function

/-- `PE_FindExportedFunction`: the address, or 0. `fuel` bounds the forwarders. -/
def findExportedFunction (mods : List WineModref) (wrapper : BitVec 32) (m : Ram 32) :
    Nat → WineModref → ProcName → Option (BitVec 32)
  | 0, _, _ => none
  | fuel + 1, wm, funcName =>
    if wm.peExport = 0 then some 0
    else do
      let function ← word m (wm.peExport + 28)
      let nt ← peHeader m wm.module
      let rvaStart ← word m (nt + 0x78)
      let size ← word m (nt + 0x7c)
      let rvaEnd := rvaStart + size
      match ← findOrdinal m wm.module wm.peExport funcName with
      | none => some 0
      | some ordinal => do
        let numberOfFunctions ← word m (wm.peExport + 20)
        if ordinal ≥ numberOfFunctions then some 0
        else do
          let addr ← word m (wm.module + function + 4 * ordinal)
          if addr = 0 then some 0
          else if addr < rvaStart ∨ addr ≥ rvaEnd then some (wm.module + addr)
          else do
            let forward ← cstring m (wm.module + addr)
            forwarded (fun hModule function => getProcAddress (findExportedFunction mods wrapper m fuel) mods
              wrapper hModule (.name function)) mods forward

/-! ## Tables -/

/-- What an export table says of a function. -/
inductive ExportEntry
  | unused
  | code (rva : BitVec 32)
  | forward (s : CString)

/-- An export table as its module means it. -/
structure ExportTable where
  base : BitVec 32
  functions : List ExportEntry
  names : List (CString × BitVec 16)
  nodup : (names.map Prod.fst).Nodup

/-- The index of a name or of an ordinal. -/
def ExportTable.index (t : ExportTable) : ProcName → Option (BitVec 32)
  | .name s => (t.names.find? fun x => x.1 = s).map fun x => x.2.setWidth 32
  | .ordinal n => some (n.setWidth 32 - t.base)

/-- The function of a name or of an ordinal. -/
def ExportTable.lookup (t : ExportTable) (p : ProcName) : Option ExportEntry :=
  (t.index p).bind fun o => t.functions[o.toNat]?

/-- An entry as it lies in the functions. -/
def ExportEntry.At (m : Ram 32) (load_addr rvaStart rvaEnd addr : BitVec 32) : ExportEntry → Prop
  | unused => addr = 0
  | code rva => addr = rva ∧ addr ≠ 0 ∧ (addr < rvaStart ∨ addr ≥ rvaEnd)
  | forward s => addr ≠ 0 ∧ ¬ (addr < rvaStart ∨ addr ≥ rvaEnd) ∧ s.chars.length < 2 ^ 32 ∧
      m.Holds (load_addr + addr) (s.chars ++ [0])

/-- The table lies in memory as that of a module. -/
structure ExportTable.At (t : ExportTable) (m : Ram 32) (wm : WineModref) : Prop where
  few : t.functions.length < 2 ^ 30 ∧ t.names.length < 2 ^ 30
  base : word m (wm.peExport + 16) = some t.base
  numberOfFunctions : word m (wm.peExport + 20) = some (BitVec.ofNat 32 t.functions.length)
  numberOfNames : word m (wm.peExport + 24) = some (BitVec.ofNat 32 t.names.length)
  functions : ∃ function nt rvaStart size, word m (wm.peExport + 28) = some function ∧
    peHeader m wm.module = some nt ∧ word m (nt + 0x78) = some rvaStart ∧ word m (nt + 0x7c) = some size ∧
    ∀ i (h : i < t.functions.length), ∃ addr,
      word m (wm.module + function + 4 * BitVec.ofNat 32 i) = some addr ∧
      (t.functions[i]).At m wm.module rvaStart (rvaStart + size) addr
  names : ∃ name ordinals, word m (wm.peExport + 32) = some name ∧ word m (wm.peExport + 36) = some ordinals ∧
    ∀ i (h : i < t.names.length),
      (∃ rva, word m (wm.module + name + BitVec.ofNat 32 (4 * i)) = some rva ∧
        m.Holds (wm.module + rva) (t.names[i].1.chars ++ [0])) ∧
      half m (wm.module + ordinals + BitVec.ofNat 32 (2 * i)) = some t.names[i].2

/-! ## What the tables resolve a name to -/

/-- Where a function is forwarded. -/
def forwardTarget (mods : List WineModref) (s : CString) : Option (WineModref × CString) := do
  let (module, function) ← splitDot s
  if module.chars.length ≥ 256 then none
  else
    let wm ← findModule mods module
    let wm ← lookupHMODULE mods wm.module
    pure (wm, function)

/-- The address that is returned for a name. -/
def dispatched (wrapper : BitVec 32) (function : CString) (a : BitVec 32) : BitVec 32 :=
  if function = CString.ofBytes (ascii "theQuickTimeDispatcher") ∧ a ≠ 0 then wrapper else a

/-- A name resolves to an address, or to 0, by the tables of the modules. A name that is forwarded
round a circle resolves to nothing. -/
inductive Resolves (mods : List WineModref) (wrapper : BitVec 32) (tables : WineModref → ExportTable) :
    WineModref → ProcName → BitVec 32 → Prop
  | noTable {wm : WineModref} {p : ProcName} : wm.peExport = 0 → Resolves mods wrapper tables wm p 0
  | absent {wm : WineModref} {p : ProcName} : wm.peExport ≠ 0 → (tables wm).lookup p = none →
      Resolves mods wrapper tables wm p 0
  | unused {wm : WineModref} {p : ProcName} : wm.peExport ≠ 0 → (tables wm).lookup p = some .unused →
      Resolves mods wrapper tables wm p 0
  | code {wm : WineModref} {p : ProcName} {rva : BitVec 32} : wm.peExport ≠ 0 →
      (tables wm).lookup p = some (.code rva) → Resolves mods wrapper tables wm p (wm.module + rva)
  | broken {wm : WineModref} {p : ProcName} {s : CString} : wm.peExport ≠ 0 →
      (tables wm).lookup p = some (.forward s) → forwardTarget mods s = none →
      Resolves mods wrapper tables wm p 0
  | forward {wm wm' : WineModref} {p : ProcName} {s function : CString} {a : BitVec 32} : wm.peExport ≠ 0 →
      (tables wm).lookup p = some (.forward s) → forwardTarget mods s = some (wm', function) →
      Resolves mods wrapper tables wm' (.name function) a →
      Resolves mods wrapper tables wm p (dispatched wrapper function a)

/-! ## Strings -/

/-- The order of `strcmp`. -/
def strOrd : List UInt8 → List UInt8 → Ordering
  | [], [] => .eq
  | [], _ :: _ => .lt
  | _ :: _, [] => .gt
  | b :: bs, c :: cs => if b = c then strOrd bs cs else if b < c then .lt else .gt

theorem strOrd_eq_iff {bs cs : List UInt8} : strOrd bs cs = .eq ↔ bs = cs := by
  induction bs generalizing cs with
  | nil => cases cs <;> simp [strOrd]
  | cons b bs ih =>
    cases cs with
    | nil => simp [strOrd]
    | cons c cs =>
      rw [strOrd, List.cons.injEq]
      by_cases hbc : b = c
      · rw [if_pos hbc, ih]
        exact (and_iff_right hbc).symm
      · rw [if_neg hbc]
        refine ⟨fun h => ?_, fun h => absurd h.1 hbc⟩
        split at h <;> cases h

theorem strOrd_swap {bs cs : List UInt8} : strOrd bs cs = .lt ↔ strOrd cs bs = .gt := by
  induction bs generalizing cs with
  | nil => cases cs <;> simp [strOrd]
  | cons b bs ih =>
    cases cs with
    | nil => simp [strOrd]
    | cons c cs =>
      rw [strOrd, strOrd]
      by_cases hbc : b = c
      · rw [if_pos hbc, if_pos hbc.symm, ih]
      · rw [if_neg hbc, if_neg (Ne.symm hbc)]
        have hne : b.toNat ≠ c.toNat := fun e => hbc (UInt8.toNat_inj.mp e)
        simp only [UInt8.lt_iff_toNat_lt]
        rcases Nat.lt_or_gt_of_ne hne with h | h
        · simp [h, Nat.lt_asymm h]
        · simp [h, Nat.lt_asymm h]

variable {m : Ram 32} {a load_addr : BitVec 32} {s : CString} {mods : List WineModref} {wrapper : BitVec 32}
  {tables : WineModref → ExportTable} {t : ExportTable} {wm : WineModref} {p : ProcName} {fuel : Nat}

theorem cstring_ext {s t : CString} (h : s.chars = t.chars) : s = t := by
  cases s
  cases t
  simpa using h

theorem strcmp_holds {bs cs : List UInt8} (h : m.Holds a (bs ++ [0])) (hb : 0 ∉ bs) (hc : 0 ∉ cs) :
    strcmp m a cs = some (strOrd bs cs) := by
  induction cs generalizing a bs with
  | nil =>
    cases bs with
    | nil => rw [strcmp, (Ram.holds_cons.mp h).1]; rfl
    | cons b bs =>
      have hne : b ≠ 0 := fun e => hb (e ▸ List.mem_cons_self)
      rw [strcmp, (Ram.holds_cons.mp h).1, Option.map_some, if_neg hne]
      rfl
  | cons c cs ih =>
    rw [List.mem_cons, not_or] at hc
    cases bs with
    | nil =>
      rw [strcmp, (Ram.holds_cons.mp h).1, Option.bind_some, if_neg hc.1, if_pos]
      · rfl
      · exact UInt8.lt_iff_toNat_lt.mpr (Nat.pos_of_ne_zero fun e => hc.1 (UInt8.toNat_inj.mp e.symm))
    | cons b bs =>
      rw [List.mem_cons, not_or] at hb
      rw [strcmp, (Ram.holds_cons.mp h).1, Option.bind_some, strOrd]
      split
      · exact ih (Ram.holds_cons.mp h).2 hb.2 hc.2
      · rfl

theorem charsFrom_holds {room : Nat} {bs : List UInt8} (h : m.Holds a (bs ++ [0])) (hb : 0 ∉ bs)
    (hr : bs.length < room) : charsFrom m room a = some bs := by
  induction bs generalizing a room with
  | nil =>
    obtain ⟨room, rfl⟩ := Nat.exists_eq_succ_of_ne_zero (Nat.ne_of_gt hr)
    rw [charsFrom, (Ram.holds_cons.mp h).1]
    rfl
  | cons b bs ih =>
    obtain ⟨room, rfl⟩ := Nat.exists_eq_succ_of_ne_zero (Nat.ne_of_gt (Nat.lt_of_le_of_lt (Nat.zero_le _) hr))
    rw [List.mem_cons, not_or] at hb
    rw [charsFrom, (Ram.holds_cons.mp h).1, Option.bind_some, if_neg (Ne.symm hb.1),
      ih (Ram.holds_cons.mp h).2 hb.2 (Nat.lt_of_succ_lt_succ hr)]
    rfl

theorem cstring_holds (h : m.Holds a (s.chars ++ [0])) (hlen : s.chars.length < 2 ^ 32) :
    cstring m a = some s := by
  rw [cstring, charsFrom_holds h s.no_nul hlen, Option.map_some, CString.ofBytes_chars]

/-! ## The search in a table -/

/-- The names of a table are sorted as `strcmp` compares them. -/
def ExportTable.Sorted (t : ExportTable) : Prop :=
  t.names.Pairwise fun x y => strOrd x.1.chars y.1.chars = .lt

section Names

variable {name : BitVec 32} (hnames : ∀ i (h : i < t.names.length), ∃ rva,
  word m (load_addr + name + BitVec.ofNat 32 (4 * i)) = some rva ∧
    m.Holds (load_addr + rva) (t.names[i].1.chars ++ [0]))

include hnames

theorem compareName_eq (s : CString) {i : Nat} (h : i < t.names.length) :
    compareName m load_addr (load_addr + name) s i = some (strOrd t.names[i].1.chars s.chars) := by
  obtain ⟨rva, hrva, hh⟩ := hnames i h
  rw [compareName, hrva, Option.bind_eq_bind, Option.bind_some]
  exact strcmp_holds hh t.names[i].1.no_nul s.no_nul

/-- The search finds a name wherever it is. -/
theorem findName_eq (s : CString) : findName m load_addr (load_addr + name) t.names.length s =
    some (t.names.findIdx? fun x => x.1 = s) := by
  have hcmp := fun i h => compareName_eq hnames s (i := i) h
  have hfound : ∀ p, p < t.names.length → compareName m load_addr (load_addr + name) s p = some .eq →
      t.names.findIdx? (fun x => x.1 = s) = some p := by
    intro p hp he
    rw [hcmp p hp, Option.some.injEq, strOrd_eq_iff] at he
    have hps : t.names[p].1 = s := cstring_ext he
    rw [List.findIdx?_eq_some_iff_getElem]
    refine ⟨hp, decide_eq_true hps, fun j hj => ?_⟩
    rw [decide_eq_true_iff]
    intro hjs
    -- the names of a table are different
    have := List.pairwise_iff_getElem.mp t.nodup j p (by rw [List.length_map]; omega)
      (by rw [List.length_map]; exact hp) hj
    rw [List.getElem_map, List.getElem_map] at this
    exact this (hjs.trans hps.symm)
  obtain ⟨r, hr⟩ : ∃ r, bisect (compareName m load_addr (load_addr + name) s) (t.names.length.log2 + 1) 0
      t.names.length = some r := bisect_total (fun i _ h => ⟨_, hcmp i h⟩) Nat.lt_log2_self
  rw [findName, hr, Option.bind_eq_bind, Option.bind_some]
  cases r with
  | some p =>
    obtain ⟨-, hp, he⟩ := bisect_sound hr
    rw [hfound p hp he]
  | none =>
    obtain ⟨r, hr, hspec⟩ := scan_spec (fun j (_ : 0 ≤ j) (h : j < 0 + t.names.length) =>
      (⟨_, hcmp j (by omega)⟩ : ∃ o, compareName m load_addr (load_addr + name) s j = some o))
    dsimp only
    rw [hr]
    cases r with
    | some p => rw [hfound p (by omega) hspec.2.2]
    | none =>
      rw [eq_comm, Option.some.injEq, List.findIdx?_eq_none_iff]
      intro x hx
      obtain ⟨j, hj, rfl⟩ := List.getElem_of_mem hx
      rw [decide_eq_false_iff_not]
      rintro rfl
      exact hspec j (Nat.zero_le j) (by omega) (by rw [hcmp j hj, strOrd_eq_iff.mpr rfl])

/-- In a table that is sorted bisection finds every name, with few comparisons. -/
theorem bisect_sorted (hs : t.Sorted) {i : Nat} (hi : i < t.names.length) (hname : t.names[i].1 = s) :
    bisect (compareName m load_addr (load_addr + name) s) (t.names.length.log2 + 1) 0 t.names.length =
      some (some i) := by
  subst hname
  have hcmp := fun j h => compareName_eq hnames t.names[i].1 (i := j) h
  refine bisect_complete ⟨Nat.zero_le i, hi⟩ ?_ (fun j _ hj => ?_) (fun j hj h => ?_) Nat.lt_log2_self
  · rw [hcmp i hi, strOrd_eq_iff.mpr rfl]
  · rw [hcmp j (by omega)]
    exact congrArg some (List.pairwise_iff_getElem.mp hs j i (by omega) hi hj)
  · rw [hcmp j h]
    exact congrArg some (strOrd_swap.mp (List.pairwise_iff_getElem.mp hs i j hi h hj))

end Names

theorem ExportTable.At.findOrdinal (h : t.At m wm) (p : ProcName) :
    findOrdinal m wm.module wm.peExport p = some (t.index p) := by
  cases p with
  | ordinal n =>
    rw [Loader.findOrdinal, h.base]
    rfl
  | name s =>
    obtain ⟨name, ordinals, hname, hord, hnames⟩ := h.names
    have hlen : (BitVec.ofNat 32 t.names.length).toNat = t.names.length := by
      rw [BitVec.toNat_ofNat, Nat.mod_eq_of_lt (Nat.lt_trans h.few.2 (by decide))]
    rw [Loader.findOrdinal, hord, hname, h.numberOfNames]
    simp only [Option.bind_eq_bind, Option.bind_some]
    rw [hlen, findName_eq (fun i hi => (hnames i hi).1) s, Option.bind_some, ExportTable.index]
    cases hf : t.names.findIdx? fun x => x.1 = s with
    | none =>
      rw [List.find?_eq_none.mpr fun x hx => by simpa using List.findIdx?_eq_none_iff.mp hf x hx]
      rfl
    | some i =>
      obtain ⟨hi, hp, -⟩ := List.findIdx?_eq_some_iff_getElem.mp hf
      have hfind : t.names.find? (fun x => x.1 = s) = some t.names[i] := by
        rw [List.find?_eq_bind_findIdx?_getElem?, hf, Option.bind_some, List.getElem?_eq_getElem hi]
      dsimp only
      rw [(hnames i hi).2, hfind]
      rfl

/-- The search in the module itself. -/
theorem ExportTable.At.findExportedFunction (h : t.At m wm) (hne : wm.peExport ≠ 0) (p : ProcName) :
    findExportedFunction mods wrapper m (fuel + 1) wm p = match t.lookup p with
      | none => some 0
      | some .unused => some 0
      | some (.code rva) => some (wm.module + rva)
      | some (.forward s) => forwarded (fun hModule function => getProcAddress
          (Loader.findExportedFunction mods wrapper m fuel) mods wrapper hModule (.name function)) mods s := by
  obtain ⟨function, nt, rvaStart, size, hfn, hnt, hst, hsz, hentry⟩ := h.functions
  rw [Loader.findExportedFunction, if_neg hne, hfn, hnt]
  simp only [Option.bind_eq_bind, Option.bind_some]
  rw [hst, Option.bind_some, hsz, Option.bind_some, h.findOrdinal p, Option.bind_some, ExportTable.lookup]
  cases t.index p with
  | none => rfl
  | some o =>
    rw [Option.bind_some]
    dsimp only
    have hlen : (BitVec.ofNat 32 t.functions.length).toNat = t.functions.length := by
      rw [BitVec.toNat_ofNat, Nat.mod_eq_of_lt (Nat.lt_trans h.few.1 (by decide))]
    rw [h.numberOfFunctions, Option.bind_some]
    by_cases ho : o.toNat < t.functions.length
    · obtain ⟨addr, haddr, hat⟩ := hentry o.toNat ho
      rw [BitVec.ofNat_toNat, BitVec.setWidth_eq] at haddr
      rw [if_neg (by rw [ge_iff_le, BitVec.le_def, hlen]; omega), haddr, Option.bind_some,
        List.getElem?_eq_getElem ho]
      cases he : t.functions[o.toNat] with
      | unused =>
        rw [he] at hat
        exact if_pos hat
      | code rva =>
        rw [he] at hat
        obtain ⟨rfl, h0, hout⟩ := hat
        rw [if_neg h0, if_pos hout]
      | forward s =>
        rw [he] at hat
        obtain ⟨h0, hin, hfits, hs⟩ := hat
        rw [if_neg h0, if_neg hin, cstring_holds hs hfits, Option.bind_some]
    · rw [if_pos (by rw [ge_iff_le, BitVec.le_def, hlen]; omega), List.getElem?_eq_none (by omega)]

/-- A function that is forwarded is searched for in the module that the string names. -/
theorem forwarded_eq (find : WineModref → ProcName → Option (BitVec 32)) (s : CString) :
    forwarded (fun hModule function => getProcAddress find mods wrapper hModule (.name function)) mods s =
      match forwardTarget mods s with
      | none => some 0
      | some (wm, function) => (find wm (.name function)).map (dispatched wrapper function) := by
  unfold forwarded forwardTarget
  cases splitDot s with
  | none => rfl
  | some x =>
    obtain ⟨module, function⟩ := x
    rw [Option.bind_eq_bind, Option.bind_some]
    dsimp only
    split
    · rfl
    · cases findModule mods module with
      | none => rfl
      | some wm =>
        show getProcAddress find mods wrapper wm.module (.name function) = _
        unfold getProcAddress
        rw [Option.bind_eq_bind, Option.bind_some]
        cases lookupHMODULE mods wm.module with
        | none => rfl
        | some wm =>
          dsimp only
          simp only [ProcName.name.injEq]
          rfl

theorem forwardTarget_mem {function : CString} (h : forwardTarget mods s = some (wm, function)) : wm ∈ mods := by
  obtain ⟨x, -, h⟩ := Option.bind_eq_some_iff.mp h
  dsimp only at h
  split at h
  · cases h
  · obtain ⟨wm₁, -, h⟩ := Option.bind_eq_some_iff.mp h
    obtain ⟨wm₂, h₂, h⟩ := Option.bind_eq_some_iff.mp h
    cases h
    exact List.mem_of_find?_eq_some h₂

/-- What is found resolves. -/
theorem resolves_of_find (ht : ∀ wm ∈ mods, wm.peExport ≠ 0 → (tables wm).At m wm) (hwm : wm ∈ mods) {a : BitVec 32}
    (h : findExportedFunction mods wrapper m fuel wm p = some a) : Resolves mods wrapper tables wm p a := by
  induction fuel generalizing wm p a with
  | zero => cases h
  | succ fuel ih =>
    by_cases h0 : wm.peExport = 0
    · rw [findExportedFunction, if_pos h0] at h
      cases h
      exact .noTable h0
    rw [(ht wm hwm h0).findExportedFunction h0] at h
    cases hl : (tables wm).lookup p with
    | none =>
      rw [hl] at h
      cases h
      exact .absent h0 hl
    | some e =>
      rw [hl] at h
      cases e with
      | unused =>
        cases h
        exact .unused h0 hl
      | code rva =>
        cases h
        exact .code h0 hl
      | forward s =>
        dsimp only at h
        rw [forwarded_eq] at h
        cases hf : forwardTarget mods s with
        | none =>
          rw [hf] at h
          cases h
          exact .broken h0 hl hf
        | some x =>
          obtain ⟨wm', function⟩ := x
          rw [hf] at h
          obtain ⟨b, hb, rfl⟩ := Option.map_eq_some_iff.mp h
          exact .forward h0 hl hf (ih (forwardTarget_mem hf) hb)

/-- What resolves is found, as soon as there is room for its forwarders. -/
theorem find_of_resolves (ht : ∀ wm ∈ mods, wm.peExport ≠ 0 → (tables wm).At m wm) {a : BitVec 32}
    (h : Resolves mods wrapper tables wm p a) : wm ∈ mods →
      ∃ n, ∀ fuel ≥ n, findExportedFunction mods wrapper m fuel wm p = some a := by
  have hstep : ∀ {n} {P : Nat → Prop}, (∀ fuel ≥ n, P (fuel + 1)) → ∃ n, ∀ fuel ≥ n, P fuel :=
    fun {n} _ hp => ⟨n + 1, fun fuel hf => by
      obtain ⟨k, rfl⟩ := Nat.exists_eq_succ_of_ne_zero (show fuel ≠ 0 by omega)
      exact hp k (by omega)⟩
  induction h with
  | noTable h0 =>
    refine fun _ => hstep (n := 0) fun fuel _ => ?_
    rw [findExportedFunction, if_pos h0]
  | absent h0 hl =>
    refine fun hwm => hstep (n := 0) fun fuel _ => ?_
    rw [(ht _ hwm h0).findExportedFunction h0, hl]
  | unused h0 hl =>
    refine fun hwm => hstep (n := 0) fun fuel _ => ?_
    rw [(ht _ hwm h0).findExportedFunction h0, hl]
  | code h0 hl =>
    refine fun hwm => hstep (n := 0) fun fuel _ => ?_
    rw [(ht _ hwm h0).findExportedFunction h0, hl]
  | broken h0 hl hf =>
    refine fun hwm => hstep (n := 0) fun fuel _ => ?_
    rw [(ht _ hwm h0).findExportedFunction h0, hl]
    dsimp only
    rw [forwarded_eq, hf]
  | forward h0 hl hf _ ih =>
    intro hwm
    obtain ⟨n, hn⟩ := ih (forwardTarget_mem hf)
    refine hstep (n := n) fun fuel hfuel => ?_
    rw [(ht _ hwm h0).findExportedFunction h0, hl]
    dsimp only
    rw [forwarded_eq, hf]
    dsimp only
    rw [hn fuel hfuel]
    rfl

/-- Where the tables of the modules lie in memory, `PE_FindExportedFunction` returns what they
resolve a name or an ordinal to, through forwarders from module to module, and does not return
where they lead round a circle. -/
theorem findExportedFunction_resolves (ht : ∀ wm ∈ mods, wm.peExport ≠ 0 → (tables wm).At m wm)
    (hwm : wm ∈ mods) (a : BitVec 32) :
    (∃ fuel, findExportedFunction mods wrapper m fuel wm p = some a) ↔ Resolves mods wrapper tables wm p a := by
  constructor
  · rintro ⟨fuel, h⟩
    exact resolves_of_find ht hwm h
  · intro h
    obtain ⟨n, hn⟩ := find_of_resolves ht h hwm
    exact ⟨n, hn n (Nat.le_refl n)⟩

/-- Two modules in memory: `a.dll` forwards `Run` to `b.Go`. -/
def twoModules : Ram 32 := fun x =>
  let directory : List (Nat × UInt8) := [(0x3c, 0x40), (0xb9, 1), (0xbc, 0x60), (0x110, 1), (0x114, 1),
    (0x118, 1), (0x11c, 0x30), (0x11d, 1), (0x120, 0x34), (0x121, 1), (0x124, 0x38), (0x125, 1), (0x131, 4),
    (0x134, 0x3a), (0x135, 1), (0x13a, 71), (0x13b, 111)]
  let forwarder : List (Nat × UInt8) := [(0x130, 0x40), (0x131, 1), (0x13a, 82), (0x13b, 117), (0x13c, 110),
    (0x140, 98), (0x141, 46), (0x142, 71), (0x143, 111)]
  let o := x.toNat % 0x10000000
  if o < 0x200 then
    if x.toNat / 0x10000000 = 2 then some ((directory.lookup o).getD 0)
    else if x.toNat / 0x10000000 = 1 then some (((forwarder ++ directory).lookup o).getD 0)
    else none
  else none

def moduleA : WineModref := ⟨CString.ofBytes (ascii "a.dll"), 0x10000000, 0x10000100⟩

def moduleB : WineModref := ⟨CString.ofBytes (ascii "b.dll"), 0x20000000, 0x20000100⟩

def tableA : ExportTable :=
  ⟨1, [.forward (CString.ofBytes (ascii "b.Go"))], [(CString.ofBytes (ascii "Run"), 0)], List.nodup_singleton _⟩

def tableB : ExportTable := ⟨1, [.code 0x400], [(CString.ofBytes (ascii "Go"), 0)], List.nodup_singleton _⟩

theorem tableA_at : tableA.At twoModules moduleA where
  few := by decide
  base := rfl
  numberOfFunctions := rfl
  numberOfNames := rfl
  functions := by
    refine ⟨_, _, _, _, rfl, rfl, rfl, rfl, fun i hi => ?_⟩
    obtain rfl : i = 0 := Nat.lt_one_iff.mp hi
    exact ⟨0x140, rfl, by decide, by decide, by decide, rfl⟩
  names := by
    refine ⟨_, _, rfl, rfl, fun i hi => ?_⟩
    obtain rfl : i = 0 := Nat.lt_one_iff.mp hi
    exact ⟨⟨_, rfl, rfl⟩, rfl⟩

theorem tableB_at : tableB.At twoModules moduleB where
  few := by decide
  base := rfl
  numberOfFunctions := rfl
  numberOfNames := rfl
  functions := by
    refine ⟨_, _, _, _, rfl, rfl, rfl, rfl, fun i hi => ?_⟩
    obtain rfl : i = 0 := Nat.lt_one_iff.mp hi
    exact ⟨0x400, rfl, rfl, by decide, by decide⟩
  names := by
    refine ⟨_, _, rfl, rfl, fun i hi => ?_⟩
    obtain rfl : i = 0 := Nat.lt_one_iff.mp hi
    exact ⟨⟨_, rfl, rfl⟩, rfl⟩

def twoTables (wm : WineModref) : ExportTable := if wm = moduleB then tableB else tableA

theorem findExportedFunction_resolves_forward : ∃ fuel, findExportedFunction [moduleB, moduleA] 0 twoModules fuel
    moduleA (.name (CString.ofBytes (ascii "Run"))) = some 0x20000400 := by
  have htables : ∀ wm ∈ [moduleB, moduleA], wm.peExport ≠ 0 → (twoTables wm).At twoModules wm := by
    intro wm hwm _
    rcases List.mem_cons.mp hwm with rfl | hwm
    · exact tableB_at
    · obtain rfl := List.mem_singleton.mp hwm
      exact tableA_at
  have hgo : Resolves [moduleB, moduleA] 0 twoTables moduleB (.name (CString.ofBytes (ascii "Go"))) 0x20000400 :=
    show Resolves [moduleB, moduleA] 0 twoTables moduleB _ (moduleB.module + 0x400) from .code (by decide) rfl
  have hrun : Resolves [moduleB, moduleA] 0 twoTables moduleA (.name (CString.ofBytes (ascii "Run"))) 0x20000400 :=
    .forward (show moduleA.peExport ≠ 0 by decide) rfl rfl hgo
  exact (findExportedFunction_resolves htables (by decide) _).mpr hrun

/-- In a table that is sorted bisection finds every name, with at most one comparison for each binary
digit of the number of names. -/
theorem findName_sorted (h : t.At m wm) (hs : t.Sorted) {i : Nat} (hi : i < t.names.length)
    (hname : t.names[i].1 = s) : ∃ name, word m (wm.peExport + 32) = some name ∧
      bisect (compareName m wm.module (wm.module + name) s) (t.names.length.log2 + 1) 0 t.names.length =
        some (some i) := by
  obtain ⟨name, _, hw, _, hnames⟩ := h.names
  exact ⟨name, hw, bisect_sorted (fun i hi => (hnames i hi).1) hs hi hname⟩

/-- A module in memory that exports three names. -/
def threeNames : Ram 32 := fun x =>
  let directory : List (Nat × UInt8) := [(0x3c, 0x40), (0xb9, 1), (0xbc, 0x60), (0x110, 1), (0x114, 3),
    (0x118, 3), (0x11c, 0x30), (0x11d, 1), (0x120, 0x3c), (0x121, 1), (0x124, 0x48), (0x125, 1),
    (0x131, 4), (0x134, 0x10), (0x135, 4), (0x138, 0x20), (0x139, 4),
    (0x13c, 0x50), (0x13d, 1), (0x140, 0x53), (0x141, 1), (0x144, 0x57), (0x145, 1), (0x148, 2), (0x14c, 1),
    (0x150, 71), (0x151, 111), (0x153, 82), (0x154, 117), (0x155, 110),
    (0x157, 83), (0x158, 116), (0x159, 111), (0x15a, 112)]
  let o := x.toNat % 0x10000000
  if x.toNat / 0x10000000 = 2 ∧ o < 0x200 then some ((directory.lookup o).getD 0) else none

def tableOfThree : ExportTable :=
  ⟨1, [.code 0x400, .code 0x410, .code 0x420], [(CString.ofBytes (ascii "Go"), 2), (CString.ofBytes (ascii "Run"), 0),
    (CString.ofBytes (ascii "Stop"), 1)], by decide⟩

theorem tableOfThree_at : tableOfThree.At threeNames moduleB where
  few := by decide
  base := rfl
  numberOfFunctions := rfl
  numberOfNames := rfl
  functions := by
    refine ⟨_, _, _, _, rfl, rfl, rfl, rfl, fun i hi => ?_⟩
    have hi : i < 3 := hi
    obtain rfl | rfl | rfl : i = 0 ∨ i = 1 ∨ i = 2 := by omega
    · exact ⟨0x400, rfl, rfl, by decide, by decide⟩
    · exact ⟨0x410, rfl, rfl, by decide, by decide⟩
    · exact ⟨0x420, rfl, rfl, by decide, by decide⟩
  names := by
    refine ⟨_, _, rfl, rfl, fun i hi => ?_⟩
    have hi : i < 3 := hi
    obtain rfl | rfl | rfl : i = 0 ∨ i = 1 ∨ i = 2 := by omega
    all_goals exact ⟨⟨_, rfl, rfl⟩, rfl⟩

theorem findName_sorted_three : ∃ name, word threeNames 0x20000120 = some name ∧
    bisect (compareName threeNames 0x20000000 (0x20000000 + name) (CString.ofBytes (ascii "Stop"))) 2 0 3 =
      some (some 2) := by
  have hs : tableOfThree.Sorted := by unfold ExportTable.Sorted; decide
  obtain ⟨name, hname, h⟩ := findName_sorted tableOfThree_at hs (i := 2) (by decide) rfl
  exact ⟨name, hname, h⟩

end DShow.Loader
