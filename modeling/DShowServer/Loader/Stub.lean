import DShowServer.Framework.Numeral
import DShowServer.Loader.Export

/-!
# Functions of the loader, and stubs for those it lacks

What a DLL imports is looked up among the functions of the loader, and in a few libraries
that are loaded themselves. For anything else `add_stub` makes a function that prints its
name: a copy of `ext_stubs` with the index of the name, and the address of `printf`, put in
where the compiler left two magic numbers. The names lie in `export_names`, 32 bytes for each,
and a name that is longer reaches into the next.

`Stubs` has the bytes of the names and of the code. The table of names says what the bytes of the
names mean: a name is searched for as the beginning of one in the table, and a new one is put
behind the last (`SlotsAt`).
-/

namespace DShow.Loader

open Registry (CString ascii)
open Bytes (leBytes ofLeBytes)
open Bisect (scan)

/-! ## The functions of the loader -/

/-- `struct exports`. -/
structure Exports where
  name : CString
  id : Int
  func : BitVec 32

/-- `struct libs`. -/
structure Libs where
  name : CString
  exps : List Exports

def maxStubSize : Nat := 0x60

def maxNumStubs : Nat := 200

/-- `libraries`, where the functions of the loader lie, the code that was compiled of `ext_stubs`, and the
mapping for the stubs. -/
structure Win32 where
  libraries : List Libs
  extUnknown : BitVec 32
  printf : BitVec 32
  extcode : BitVec 32
  extStubs : List UInt8
  size : extStubs.length = maxStubSize

def toLower (c : UInt8) : UInt8 := if 65 ≤ c ∧ c ≤ 90 then c + 32 else c

/-- Whether `strcasecmp` is 0. -/
def sameName (s t : CString) : Bool := s.chars.map toLower = t.chars.map toLower

/-- The first function of a library that is asked for. -/
def Win32.findExport (w : Win32) (library : CString) (p : Exports → Bool) : Option Exports :=
  ((w.libraries.filter fun l => sameName library l.name).flatMap Libs.exps).find? p

/-! ## Stubs -/

/-- `pos`, `export_names` and the code at `extcode`. -/
structure Stubs where
  pos : Nat
  exportNames : Nat → UInt8
  code : Ram 32

def exportNamesSize : Nat := 300 * 32

def strcpy (buf : Nat → UInt8) (off : Nat) (cs : List UInt8) : Option (Nat → UInt8) :=
  if off + cs.length < exportNamesSize then
    some fun x => if off ≤ x ∧ x < off + cs.length then cs.getD (x - off) 0
      else if x = off + cs.length then 0 else buf x
  else none

/-- `strncmp` of a string and what lies at an offset, for the length of the string. -/
def strncmp (buf : Nat → UInt8) : Nat → List UInt8 → Option Ordering
  | _, [] => some .eq
  | off, c :: cs =>
    if off < exportNamesSize then
      if buf off = c then strncmp buf (off + 1) cs else some (if c < buf off then .lt else .gt)
    else none

def magicIndex : Nat := 0xdeadabcd

def magicPrintf : Nat := 0xdeadfbcd

/-- A word of the code: the first number put in, then the second. -/
def patchWord (pos printf v : Nat) : Nat × Bool × Bool :=
  let v' := if v = magicIndex then pos else v
  if v' = magicPrintf then (printf, v = magicIndex, true) else (v', v = magicIndex, false)

/-- Words of the code from its first byte on, as many as that, and which numbers were found. -/
def patch (pos printf : Nat) : Nat → List UInt8 → List UInt8 × Bool × Bool
  | n + 1, b₀ :: b₁ :: b₂ :: b₃ :: bs =>
    let (v, index, print) := patchWord pos printf (ofLeBytes [b₀, b₁, b₂, b₃])
    let r := patch pos printf n
      (UInt8.ofNat (v / 256) :: UInt8.ofNat (v / 256 ^ 2) :: UInt8.ofNat (v / 256 ^ 3) :: bs)
    (UInt8.ofNat v :: r.1, index || r.2.1, print || r.2.2)
  | _, bs => (bs, false, false)

namespace Win32

variable (w : Win32)

def stubAddress (i : Nat) : BitVec 32 := w.extcode + BitVec.ofNat 32 (i * maxStubSize)

/-- The code of a stub, and whether both magic numbers were in `ext_stubs`. -/
def stubCode (i : Nat) : List UInt8 × Bool :=
  let r := patch i w.printf.toNat (maxStubSize - 3) w.extStubs
  (r.1, r.2.1 && r.2.2)

/-- `add_stub`. -/
def addStub (s : Stubs) : Option (BitVec 32 × Stubs) :=
  if s.pos ≥ maxNumStubs then some (0, s)
  else do
    let code ← s.code.writeBytes (w.stubAddress s.pos) (w.stubCode s.pos).1
    if (w.stubCode s.pos).2 then some (w.stubAddress s.pos, { s with code, pos := s.pos + 1 })
    else some (0, { s with code })

/-- Behind `no_dll` and `no_dll_byname`: the stub for a name, or a new one. -/
def noDll (s : Stubs) (name : CString) : Option (BitVec 32 × Stubs) := do
  match ← scan (fun i => strncmp s.exportNames (32 * i) name.chars) s.pos 0 with
  | some i => some (w.stubAddress i, s)
  | none =>
    if s.pos > 150 then some (0, s)
    else do
      let exportNames ← strcpy s.exportNames (32 * s.pos) name.chars
      w.addStub { s with exportNames }

end Win32

/-! ## Lookups -/

/-- `sprintf(expname, "%s:%d", library, ordinal)`, into 80 bytes. -/
def expName (library : CString) (ordinal : BitVec 16) : Option CString :=
  let expname := CString.ofBytes (library.chars ++ 58 :: (Numeral.decimal ordinal.toNat).map Char.toUInt8)
  if expname.chars.length < 80 then some expname else none

section

variable {σ : Type} (w : Win32) (stub : σ → CString → Option (BitVec 32 × σ))

/-- `LookupExternal`. `native` is the function found in the library itself, if one of these is loaded. -/
def lookupExternal (s : σ) (library : Option CString) (ordinal : BitVec 16) (native : BitVec 32) :
    Option (BitVec 32 × σ) :=
  match library with
  | none => some (w.extUnknown, s)
  | some library =>
    match w.findExport library fun e => e.id = ordinal.toNat with
    | some e => some (e.func, s)
    | none =>
      if library.chars ∈ ["tsd32.dll", "vssh264dec.dll", "LCMW2.dll", "VDODEC32.dll"].map ascii ∧ native ≠ 0 then
        some (native, s)
      else (expName library ordinal).bind (stub s)

/-- `LookupExternalByName`. -/
def lookupExternalByName (s : σ) (library : Option CString) (name : ProcName) (native : BitVec 32) :
    Option (BitVec 32 × σ) :=
  match library, name with
  | none, _ => some (w.extUnknown, s)
  | some library, .ordinal n => lookupExternal w stub s (some library) n native
  | some library, .name name =>
    match w.findExport library fun e => e.name = name with
    | some e => some (if e.func = -1 then 0 else e.func, s)
    | none =>
      if library.chars ∈ ["vssh264core.dll", "3ivx.dll"].map ascii ∧ native ≠ 0 then some (native, s)
      else stub s name

/-- One lookup: the library, what is asked for, and what the library itself has. -/
structure External where
  library : Option CString
  name : ProcName
  native : BitVec 32

def External.call (s : σ) (e : External) : Option (BitVec 32 × σ) :=
  lookupExternalByName w stub s e.library e.name e.native

end

/-! ## The table of names -/

/-- What can be read at the slot of the first of some names that lie behind one another. -/
def slotText : List CString → List UInt8
  | [] => []
  | n :: rest => if n.chars.length < 32 ∨ rest = [] then n.chars else n.chars.take 32 ++ slotText rest

/-- The first slot at which a name can be read, or a longer one that begins with it. -/
def slotOf (names : List CString) (name : CString) : Option Nat :=
  (List.range names.length).find? fun i => name.chars.isPrefixOf (slotText (names.drop i))

/-- The stub for a name, or a new one. -/
def Win32.stubOf (w : Win32) (names : List CString) (name : CString) : Option (BitVec 32 × List CString) :=
  match slotOf names name with
  | some i => some (w.stubAddress i, names)
  | none =>
    if names.length > 150 then some (0, names)
    else if 32 * names.length + name.chars.length < exportNamesSize then
      some (w.stubAddress names.length, names ++ [name])
    else none

/-! ## The bytes of the table -/

section

variable {buf buf' : Nat → UInt8} {off i : Nat} {cs ds : List UInt8} {n x : CString} {names : List CString}

/-- Some bytes lie at an offset. -/
def HoldsAt (buf : Nat → UInt8) (off : Nat) (cs : List UInt8) : Prop :=
  ∀ j (h : j < cs.length), buf (off + j) = cs[j]

theorem HoldsAt.congr (h : HoldsAt buf off cs) (he : ∀ y, y < off + cs.length → buf' y = buf y) :
    HoldsAt buf' off cs := by
  intro j hj
  rw [he (off + j) (by omega)]
  exact h j hj

theorem holdsAt_cons {c : UInt8} : HoldsAt buf off (c :: cs) ↔ buf off = c ∧ HoldsAt buf (off + 1) cs := by
  constructor
  · intro h
    refine ⟨h 0 (Nat.succ_pos _), fun j hj => ?_⟩
    rw [show off + 1 + j = off + (j + 1) by omega]
    exact h (j + 1) (Nat.succ_lt_succ hj)
  · intro h j hj
    cases j with
    | zero => exact h.1
    | succ j =>
      rw [show off + (j + 1) = off + 1 + j by omega]
      exact h.2 j (Nat.lt_of_succ_lt_succ hj)

theorem holdsAt_append : HoldsAt buf off (cs ++ ds) ↔ HoldsAt buf off cs ∧ HoldsAt buf (off + cs.length) ds := by
  induction cs generalizing off with
  | nil => exact ⟨fun h => ⟨fun j hj => absurd hj (Nat.not_lt_zero j), h⟩, fun h => h.2⟩
  | cons c cs ih =>
    rw [List.cons_append, holdsAt_cons, holdsAt_cons, ih, and_assoc, List.length_cons,
      show off + (cs.length + 1) = off + 1 + cs.length by omega]

theorem strcpy_spec (h : strcpy buf off cs = some buf') :
    HoldsAt buf' off (cs ++ [0]) ∧ ∀ y < off, buf' y = buf y := by
  unfold strcpy at h
  split at h
  · obtain rfl := Option.some.inj h
    refine ⟨holdsAt_append.mpr ⟨fun j hj => ?_, holdsAt_cons.mpr ⟨?_, fun j hj => absurd hj (Nat.not_lt_zero j)⟩⟩,
      fun y hy => ?_⟩
    · dsimp only
      rw [if_pos (by omega), Nat.add_sub_cancel_left, List.getD_eq_getElem?_getD, List.getElem?_eq_getElem hj]
      rfl
    · rw [if_neg (by omega), if_pos rfl]
    · dsimp only
      rw [if_neg (by omega), if_neg (by omega)]
  · cases h

/-- A string is compared with the text at an offset. -/
theorem strncmp_eq (h : HoldsAt buf off (ds ++ [0])) (hlen : off + ds.length < exportNamesSize) (hc : 0 ∉ cs) :
    ∃ o, strncmp buf off cs = some o ∧ (o = .eq ↔ cs.isPrefixOf ds = true) := by
  induction cs generalizing off ds with
  | nil => exact ⟨.eq, rfl, by rw [List.isPrefixOf_nil_left]; exact ⟨fun _ => rfl, fun _ => rfl⟩⟩
  | cons c cs ih =>
    rw [List.mem_cons, not_or] at hc
    rw [strncmp, if_pos (by omega)]
    cases ds with
    | nil =>
      have h0 : buf off = 0 := (holdsAt_cons.mp h).1
      rw [h0, if_neg hc.1]
      refine ⟨_, rfl, fun he => ?_, fun he => (nomatch he)⟩
      split at he <;> cases he
    | cons d ds =>
      obtain ⟨hd, h⟩ := holdsAt_cons.mp h
      rw [hd, List.isPrefixOf_cons_cons]
      by_cases hcd : d = c
      · rw [if_pos hcd, hcd, beq_self_eq_true, Bool.true_and]
        exact ih h (by rw [List.length_cons] at hlen; omega) hc.2
      · rw [if_neg hcd, beq_false_of_ne (Ne.symm hcd), Bool.false_and]
        refine ⟨_, rfl, fun he => ?_, fun he => (nomatch he)⟩
        split at he <;> cases he

/-- Names lie in the slots from one on. -/
def SlotsAt (buf : Nat → UInt8) : Nat → List CString → Prop
  | _, [] => True
  | i, n :: rest => HoldsAt buf (32 * i) (slotText (n :: rest) ++ [0]) ∧
      32 * i + (slotText (n :: rest)).length < exportNamesSize ∧ SlotsAt buf (i + 1) rest

theorem slotText_short (h : n.chars.length < 32) : slotText (n :: names) = n.chars := if_pos (.inl h)

theorem slotText_long (h : ¬ n.chars.length < 32) (hne : names ≠ []) :
    slotText (n :: names) = n.chars.take 32 ++ slotText names := if_neg (not_or.mpr ⟨h, hne⟩)

theorem slotText_singleton : slotText [n] = n.chars := if_pos (.inr rfl)

/-- A name of 32 bytes or more fills its slot. -/
theorem take_slotText (h : ¬ n.chars.length < 32) : (slotText (n :: names)).take 32 = n.chars.take 32 := by
  have hlen : (n.chars.take 32).length = 32 := by rw [List.length_take]; omega
  by_cases hne : names = []
  · rw [hne, slotText_singleton]
  · rw [slotText_long h hne, List.take_left' hlen]

/-- The text at a slot keeps its first 32 bytes when a name is put behind the last. -/
theorem take_slotText_append (hne : names ≠ []) : (slotText (names ++ [x])).take 32 = (slotText names).take 32 := by
  cases names with
  | nil => exact absurd rfl hne
  | cons n rest =>
    rw [List.cons_append]
    by_cases hn : n.chars.length < 32
    · rw [slotText_short hn, slotText_short hn]
    · rw [take_slotText hn, take_slotText hn]

theorem SlotsAt.head (h : SlotsAt buf i names) (hne : names ≠ []) :
    HoldsAt buf (32 * i) (slotText names ++ [0]) ∧ 32 * i + (slotText names).length < exportNamesSize := by
  cases names with
  | nil => exact absurd rfl hne
  | cons n rest => exact ⟨h.1, h.2.1⟩

theorem SlotsAt.drop (h : SlotsAt buf i names) (k : Nat) : SlotsAt buf (i + k) (names.drop k) := by
  induction k generalizing i names with
  | zero => exact h
  | succ k ih =>
    cases names with
    | nil => exact trivial
    | cons n rest =>
      rw [List.drop_succ_cons, show i + (k + 1) = i + 1 + k by omega]
      exact ih h.2.2

/-- A name is put behind the last. -/
theorem SlotsAt.strcpy (h : SlotsAt buf i names) (hc : strcpy buf (32 * (i + names.length)) x.chars = some buf')
    (hlen : 32 * (i + names.length) + x.chars.length < exportNamesSize) : SlotsAt buf' i (names ++ [x]) := by
  obtain ⟨hx, hframe⟩ := strcpy_spec hc
  clear hc
  induction names generalizing i with
  | nil =>
    rw [List.nil_append, SlotsAt, slotText_singleton]
    exact ⟨hx, hlen, trivial⟩
  | cons n rest ih =>
    obtain ⟨hn, hfits, hrest⟩ := h
    rw [List.length_cons, show i + (rest.length + 1) = i + 1 + rest.length by omega] at hx hframe hlen
    have hrest' := ih hrest hlen hx hframe
    have hne : rest ++ [x] ≠ [] := List.append_ne_nil_of_right_ne_nil _ (List.cons_ne_nil _ _)
    rw [List.cons_append]
    by_cases hs : n.chars.length < 32
    · -- the slot ends before the new name
      rw [slotText_short hs] at hn hfits
      rw [SlotsAt, slotText_short hs]
      refine ⟨hn.congr fun y hy => hframe y ?_, hfits, hrest'⟩
      rw [List.length_append, List.length_singleton] at hy
      omega
    · have h32 : (n.chars.take 32).length = 32 := by rw [List.length_take]; omega
      have htake : HoldsAt buf (32 * i) (n.chars.take 32) := by
        rw [← List.take_append_drop 32 (slotText (n :: rest)), take_slotText hs, List.append_assoc] at hn
        exact (holdsAt_append.mp hn).1
      obtain ⟨hx', hlen'⟩ := hrest'.head hne
      rw [SlotsAt, slotText_long hs hne]
      refine ⟨?_, by rw [List.length_append, h32]; omega, hrest'⟩
      rw [List.append_assoc, holdsAt_append, h32]
      exact ⟨htake.congr fun y hy => hframe y (by omega), hx'⟩

end

end DShow.Loader
