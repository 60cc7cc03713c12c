import DShowServer.Framework.Bytes
import DShowServer.Framework.Run
import Mathlib.Data.List.TakeWhile

/-!
# The registry (registry.c, modify_reg.c)

The registry is a table of values by full name. Every function that changes it
writes all of it over the file, which is opened without truncation, so that
after removals the bytes of an older and longer table follow the new one.

A process of 32 bits is modelled: `malloc` gives no block of 2³¹ bytes or more,
and where the code goes on with the `NULL` it gets instead there is no next
state. What `malloc` and `strlen` promise of the parts of a value is part of
`RegValue`, so that every table that can be built can be written.
-/

namespace DShow.Registry

open Bytes

/-- `malloc` gives a block of `n` bytes. -/
def Fits (n : Nat) : Prop := n < 2 ^ 31

instance (n : Nat) : Decidable (Fits n) := Nat.decLt _ _

theorem Fits.mono {m n : Nat} (h : Fits n) (hm : m ≤ n) : Fits m := Nat.lt_of_le_of_lt hm h

/-- The bytes of a string literal. -/
def ascii (s : String) : List UInt8 := s.toList.map fun c => c.toUInt8

/-- A string, without the NUL that ends it. -/
structure CString where
  chars : List UInt8
  no_nul : 0 ∉ chars
deriving DecidableEq

/-- The string at the start of a buffer that ends in a NUL. -/
def CString.ofBytes (l : List UInt8) : CString :=
  ⟨l.takeWhile (· ≠ 0), fun h => by simpa using List.mem_takeWhile_imp h⟩

theorem CString.ofBytes_length (l : List UInt8) : (ofBytes l).chars.length ≤ l.length :=
  (List.takeWhile_prefix _).length_le

@[simp] theorem CString.ofBytes_chars (c : CString) : ofBytes c.chars = c := by
  have : c.chars.takeWhile (· ≠ 0) = c.chars :=
    List.takeWhile_eq_self_iff.mpr fun x hx => decide_eq_true (ne_of_mem_of_not_mem hx c.no_nul)
  cases c
  simpa only [ofBytes, mk.injEq] using this

/-- `struct reg_value`. -/
structure RegValue where
  type : BitVec 32
  name : CString
  value : List UInt8
  name_fits : Fits (name.chars.length + 1)
  value_fits : Fits (value.length + 1)
deriving DecidableEq

/-- `len`, the number of bytes of `value`. -/
def RegValue.len (v : RegValue) : BitVec 32 := BitVec.ofNat 32 v.value.length

/-- `regs` and `reg_size`, with 16 bytes for each `struct reg_value`. -/
structure Table where
  entries : List RegValue
  fits : Fits (16 * entries.length)
deriving DecidableEq

/-- `DIR`. -/
def dir : BitVec 32 := -25

/-- `HKEY_CURRENT_USER` and `HKEY_LOCAL_MACHINE`. -/
def hkeyCurrentUser : BitVec 32 := 0x80000001

def hkeyLocalMachine : BitVec 32 := 0x80000002

def hklm : CString := ⟨ascii "HKLM", by decide⟩

def hkcu : CString := ⟨ascii "HKCU", by decide⟩

/-! ## The file -/

/-- What `save_registry` writes of one value. -/
def RegValue.pieces (v : RegValue) : List (List UInt8) :=
  [le32 v.type, le32 (BitVec.ofNat 32 v.name.chars.length), v.name.chars, le32 v.len, v.value]

/-- What it writes, in order. -/
def Table.pieces (t : Table) : List (List UInt8) :=
  le32 (BitVec.ofNat 32 t.entries.length) :: t.entries.flatMap RegValue.pieces

/-- `save_registry` over a file that holds `old`: its content afterwards. -/
def saveRegistry (t : Table) (old : List UInt8) : List UInt8 :=
  ((Fd.start old).writes t.pieces).content

/-- The body of the loop of `open_registry`; it fails where `malloc` does. -/
def readValue : Reader RegValue := do
  let type ← Reader.le32
  let len ← Reader.le32
  if hn : Fits (len.toNat + 1) then
    let name ← Reader.take len.toNat
    let vlen ← Reader.le32
    if hv : Fits (vlen.toNat + 1) then
      let value ← Reader.take vlen.toNat
      Reader.pure {
        type := type
        name := .ofBytes name.1
        value := value.1
        name_fits := hn.mono (Nat.succ_le_succ ((CString.ofBytes_length _).trans name.2.le))
        value_fits := value.2.symm ▸ hv }
    else Reader.fail
  else Reader.fail

/-- `open_registry` of a file that could be opened. -/
def readTable : Reader Table := do
  let size ← Reader.le32
  if h : Fits (16 * size.toNat) then
    let l ← readValue.times size.toNat
    Reader.pure ⟨l.1, l.2.symm ▸ h⟩
  else Reader.fail

/-! ## The process -/

/-- `reg_handle_t`. -/
structure RegHandle where
  handle : BitVec 32
  name : CString

/-- The static variables, with the handles from `head` on, and the registry's
file, if there is one. -/
structure Process where
  regs : Option Table
  head : List RegHandle
  zz : BitVec 32
  file : Option (List UInt8)

namespace Process

/-- A new process. -/
def new (file : Option (List UInt8)) : Process := ⟨none, [], 249, file⟩

/-- `save_registry` of the table. -/
def save (p : Process) (t : Table) : Process :=
  { p with regs := some t, file := some (saveRegistry t (p.file.getD [])) }

/-- The table of `create_registry`. -/
def rootTable : Table where
  entries := [⟨dir, hklm, [], by decide, by decide⟩, ⟨dir, hkcu, [], by decide, by decide⟩]
  fits := by decide

/-- `create_registry`. -/
def createRegistry (p : Process) : Process :=
  match p.regs with
  | some t => p.save t
  | none => { p with head := [] }.save rootTable

/-- `open_registry`. -/
def openRegistry (p : Process) : Option Process :=
  match p.regs with
  | some _ => some p
  | none =>
    match p.file with
    | none => some p.createRegistry
    | some content => (readTable content).map fun (t, _) => { p with regs := some t, head := [] }

/-- `insert_handle`. -/
def insertHandle (p : Process) (handle : BitVec 32) (name : CString) : Process :=
  { p with head := ⟨handle, name⟩ :: p.head }

/-- The handles of the two roots. -/
def insertRoots (p : Process) : Process :=
  (p.insertHandle hkeyLocalMachine hklm).insertHandle hkeyCurrentUser hkcu

/-- `init_registry`; modify_reg does the same at its start. -/
def initRegistry (p : Process) : Option Process := p.openRegistry.map insertRoots

/-- `if(!regs) init_registry()`. -/
def ready (p : Process) : Option Process := if p.regs.isSome then some p else p.initRegistry

/-- `find_handle`. -/
def findHandle (p : Process) (handle : BitVec 32) : Option RegHandle :=
  p.head.find? fun t => t.handle = handle

/-- `generate_handle`; the loop skips the two roots, which follow one another. -/
def generateHandle (zz : BitVec 32) : BitVec 32 :=
  let zz := zz + 1
  if zz = hkeyCurrentUser then zz + 2 else if zz = hkeyLocalMachine then zz + 1 else zz

/-- The entries of the table, none without one. -/
def entries (p : Process) : List RegValue := (p.regs.map Table.entries).getD []

/-- `find_value_by_name`: the index. -/
def findValueByName (p : Process) (name : CString) : Option Nat :=
  p.entries.findIdx? fun v => v.name = name

end Process

/-- A full name, as `build_keyname` allocates it. -/
structure KeyName where
  name : CString
  pos : 0 < name.chars.length
  fits : Fits (name.chars.length + 1)

namespace Process

/-- `build_keyname`: no next state if `malloc` fails, `NULL` for an unknown
handle. -/
def buildKeyname (p : Process) (key : BitVec 32) (subkey : Option CString) :
    Option (Option KeyName) :=
  match p.findHandle key with
  | none => some none
  | some t =>
    let subkey := subkey.getD ⟨ascii "<default>", by decide⟩
    if h : Fits (t.name.chars.length + subkey.chars.length + 10) then
      some (some {
        name := ⟨t.name.chars ++ ascii "\\" ++ subkey.chars, fun hm => by
          rcases List.mem_append.mp hm with hm | hm
          · exact (List.mem_append.mp hm).elim t.name.no_nul (by decide)
          · exact subkey.no_nul hm⟩
        pos := by
          simp only [List.length_append]
          exact Nat.add_pos_left (Nat.add_pos_right _ (by decide)) _
        fits := h.mono (by simp [ascii]; omega) })
    else none

/-- `insert_reg_value`. The caller's bytes, their copy and the full name lie in
one address space, so that they are less than 2³² bytes together. -/
def insertRegValue (p : Process) (handle : BitVec 32) (name : Option CString) (type : BitVec 32)
    (value : List UInt8) : Option Process :=
  (p.buildKeyname handle name).bind fun
  | none => some p
  | some full =>
    if h : 2 * value.length + full.name.chars.length + 1 < 2 ^ 32 then
      let v : RegValue := ⟨type, full.name, value, full.fits, by have := full.pos; unfold Fits; omega⟩
      match p.findValueByName full.name with
      | none =>
        let p := if p.regs.isSome then p else p.createRegistry
        if hf : Fits (16 * (p.entries ++ [v]).length) then some (p.save ⟨p.entries ++ [v], hf⟩)
        else none
      | some i =>
        if hf : Fits (16 * (p.entries.set i v).length) then some (p.save ⟨p.entries.set i v, hf⟩)
        else none
    else none

/-- What `RegCreateKeyExA` returns and stores. -/
structure Created where
  ret : Nat
  newkey : Option (BitVec 32)
  status : Option Nat

/-- `RegCreateKeyExA`. -/
def regCreateKeyExA (p : Process) (key : BitVec 32) (name : Option CString) :
    Option (Created × Process) :=
  p.ready.bind fun p => (p.buildKeyname key name).bind fun
  | none => some (⟨1, none, none⟩, p)
  | some full =>
    let found := (p.findValueByName full.name).isSome
    (if found then some p else p.insertRegValue key name dir (le32 45708)).map fun p =>
      let zz := generateHandle p.zz
      (⟨0, some zz, if found then none else some 1⟩, { p with zz := zz }.insertHandle zz full.name)

/-- `RegSetValueExA`, where `size` bytes of `data` are there to be copied. -/
def regSetValueExA (p : Process) (key : BitVec 32) (name : Option CString) (type : BitVec 32)
    (data : List UInt8) (size : BitVec 32) : Option (Nat × Process) :=
  p.ready.bind fun p => (p.buildKeyname key name).bind fun
  | none => some (1, p)
  | some _ =>
    if size.toInt < 0 ∨ data.length < size.toNat then none
    else (p.insertRegValue key name type (data.take size.toNat)).map fun p => (0, p)

/-- `RegOpenKeyExA`: what it returns and `*newkey`. -/
def regOpenKeyExA (p : Process) (key : BitVec 32) (subkey : Option CString) :
    Option ((Int × Option (BitVec 32)) × Process) :=
  p.ready.bind fun p => (p.buildKeyname key subkey).bind fun
  | none => some ((-1, none), p)
  | some full =>
    let zz := generateHandle p.zz
    some ((0, some zz), { p with zz := zz }.insertHandle zz full.name)

/-- `RegCloseKey`: what it returns, and the handle taken out of the list. -/
def regCloseKey (p : Process) (key : BitVec 32) : Nat × Process :=
  if key = hkeyLocalMachine then (0, p)
  else if key = hkeyCurrentUser then (0, p)
  else match p.findHandle key with
  | none => (0, p)
  | some _ => (1, { p with head := p.head.eraseP fun t => t.handle = key })

end Process

/-- `ERROR_MORE_DATA`. -/
def errorMoreData : Nat := 234

/-- What `RegQueryValueExA` returns, the type and the bytes it stores for the
caller, and `*count`. -/
structure Queried where
  ret : Nat
  type : Option (BitVec 32)
  data : List UInt8
  count : BitVec 32
deriving DecidableEq

namespace Process

/-- `RegQueryValueExA`, where `type` and `data` say whether these pointers are
given. The copy of a negative number of bytes does not end well. -/
def regQueryValueExA (p : Process) (key : BitVec 32) (value : Option CString) (type data : Bool)
    (count : BitVec 32) : Option (Queried × Process) :=
  p.ready.bind fun p => (p.buildKeyname key value).bind fun
  | none => some (⟨1, none, [], count⟩, p)
  | some c =>
    match (p.findValueByName c.name).bind (p.entries[·]?) with
    | none => some (⟨2, none, [], count⟩, p)
    | some t =>
      let n := if t.len.toInt < count.toInt then t.len else count
      if data ∧ n.toInt < 0 then none
      else some ({
        ret := if count.toInt < t.len.toInt then errorMoreData else 0
        type := if type then some t.type else none
        data := if data then t.value.take n.toNat else []
        count := t.len }, p)

/-- The loop of `hier_remove_key`. -/
def removeFrom (full : CString) : List RegValue → List RegValue
  | [] => []
  | v :: vs =>
    if full.chars.isPrefixOf v.name.chars then removeFrom full vs else v :: removeFrom full vs

theorem removeFrom_length (full : CString) (l : List RegValue) :
    (removeFrom full l).length ≤ l.length := by
  induction l with
  | nil => exact Nat.le_refl _
  | cons v vs ih =>
    simp only [removeFrom]
    split
    · exact Nat.le_succ_of_le ih
    · exact Nat.succ_le_succ ih

/-- `hier_remove_key`, which takes the length of `NULL` for an unknown handle. -/
def hierRemoveKey (p : Process) (handle : BitVec 32) (name : Option CString) : Option Process :=
  (p.buildKeyname handle name).bind fun
  | none => none
  | some full => p.regs.map fun t =>
    p.save ⟨removeFrom full.name t.entries,
      t.fits.mono (Nat.mul_le_mul_left _ (removeFrom_length full.name t.entries))⟩

end Process

end DShow.Registry
