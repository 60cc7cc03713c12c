import DShowServer.Framework.Chain
import DShowServer.Framework.Run
import DShowServer.Framework.Simulate
import DShowServer.Loader.Export

/-!
# Libraries loaded and freed

`LoadLibraryExA` searches the list from `local_wm` on for a module whose file name contains the name it is given,
and otherwise a few directories; `FreeLibrary` takes the module out, and `CodecRelease` all of them when the last codec
is gone. While a module is attached or detached its `DllMain` runs, and that may call any of these again: the
calls that are waiting for a `DllMain` are a stack of frames, and a run is any order of calls and returns.

Left out is that the imports of a new module are fixed up before it is in the list: `LookupExternal` may then call
`LoadLibraryA` itself, for one of the few libraries that it loads.
-/

namespace DShow.Loader

open Registry (CString ascii)

/-! ## The calls -/

def str (s : String) : CString := CString.ofBytes (ascii s)

/-- What `PE_LoadLibraryExA` makes of a file: where its image and its exports lie, whether it has an entry point, and
what `PE_FindExportedFunction` finds in it. -/
structure PeFile where
  module : BitVec 32
  peExport : BitVec 32
  entry : Bool
  exported : CString → BitVec 32

/-- A `WINE_MODREF` in memory. `attached` is the flag `WINE_MODREF_PROCESS_ATTACHED`, and `entry` a property of the
image. -/
structure Modref where
  wm : WineModref
  entry : Bool
  attached : Bool
deriving DecidableEq

/-- What `PE_CreateModule` makes of the image. -/
def createModule (path : CString) (file : PeFile) : Modref :=
  ⟨⟨path, file.module, file.peExport⟩, file.entry, false⟩

/-- What waits for a `DllMain`: `LoadLibraryExA` for an attach, or for the detach after one that failed; `FreeLibrary`;
and `CodecRelease`, in a turn of its loop or between two. -/
inductive ModuleFrame
  | attach (wm : Nat) (libname : CString) (exported : CString → BitVec 32)
  | failed (wm : Nat)
  | free (wm : Nat)
  | release (list wm : Nat)
  | releasing

/-- The modules, the list from `local_wm` on, `def_path`, `acounter`, the calls that wait, and how often
`my_garbagecollection` was called. -/
structure Modules where
  modrefs : Store Modref
  localWm : Chain Nat
  defPath : CString
  acounter : Int
  stack : List ModuleFrame
  collections : Nat

inductive ModuleCall
  | setCodecPath (path : CString)
  | loadLibrary (libname : CString) (disk : CString → Option PeFile)
  | freeLibrary (hLibModule : BitVec 32)
  | codecAlloc
  | codecRelease
  | turn
  | dllMain (retv : Bool)

/-- A call that waits for a `DllMain`, or what it returns. -/
inductive Answer
  | running
  | handle (module : BitVec 32)
  | freed (retv : Bool)
  | done
deriving DecidableEq

/-- A name in a directory. -/
def inDirectory (dir libname : CString) : CString :=
  ⟨dir.chars ++ ascii "/" ++ libname.chars.take 100, by
    simp only [List.mem_append, not_or]
    exact ⟨⟨dir.no_nul, by decide⟩, fun h => libname.no_nul (List.mem_of_mem_take h)⟩⟩

/-- The paths that are tried. A `def_path` that `strncpy` does not end makes a path that is too long below. -/
def listPath (defPath libname : CString) : List CString :=
  libname :: inDirectory defPath libname ::
    (([str "/usr/lib/win32", str "/usr/local/lib/win32"].filter (defPath ≠ ·)).map (inDirectory · libname))

/-- The search along the paths. `PE_LoadLibraryExA` copies a path of 256 bytes or more without its end. -/
def searchPath (disk : CString → Option PeFile) : List CString → Option (Option (CString × PeFile))
  | [] => some none
  | path :: paths =>
    if path.chars.length ≥ 256 then none
    else match disk path with
      | some file => some (some (path, file))
      | none => searchPath disk paths

/-- A codec of a version that `LoadLibraryExA` does not know how to patch. -/
def unsupported (libname : CString) (module : BitVec 32) (exported : CString → BitVec 32) : Bool :=
  let found (name : String) (rvas : List (BitVec 32)) : Bool := rvas.any fun rva => exported (str name) = module + rva
  let is (name : String) : Bool := (str name).chars <:+: libname.chars
  is "vp5vfw.dll" && !found "DriverProc" [0x3930] ||
  is "vp6vfw.dll" && !found "DriverProc" [0x3ef0, 0x4120, 0x3e70] ||
  is "wmvadvd.dll" && !found "CreateInstance" [0xb812] ||
  is "QuickTime.qts" && !found "theQuickTimeDispatcher" [0x124c30, 0x13b330, 0x13c3e0]

namespace Modules

/-- The search along `prev` for a module. -/
def searchFrom (nodes : Store (ChainNode Nat)) (modrefs : Store Modref) (p : Modref → Bool) :
    Nat → Nat → Option (Option (Nat × Modref))
  | 0, _ => none
  | room + 1, t =>
    if t = 0 then some none
    else do
      let list ← nodes.read t
      let wm ← modrefs.read list.value
      if p wm then some (some (list.value, wm)) else searchFrom nodes modrefs p room list.prev

def search (s : Modules) (p : Modref → Bool) : Option (Option (Nat × Modref)) :=
  searchFrom s.localWm.nodes s.modrefs p s.localWm.nodes.top s.localWm.newest

/-- `MODULE_FindModule`. -/
def findModule (s : Modules) (m : CString) : Option (Option (Nat × Modref)) :=
  s.search fun wm => m.chars <:+: wm.wm.filename.chars

/-- `MODULE32_LookupHMODULE`. -/
def lookupHMODULE (s : Modules) (m : BitVec 32) : Option (Option (Nat × Modref)) := s.search fun wm => wm.wm.module = m

/-- `MODULE_RemoveFromList`. -/
def removeFromList (localWm : Chain Nat) (mod : Nat) : Option (Chain Nat) :=
  if localWm.newest = 0 ∨ mod = 0 then some localWm
  else do
    let list ← localWm.nodes.read localWm.newest
    if list.prev = 0 ∧ list.next = 0 then (localWm.nodes.free localWm.newest).map fun nodes => ⟨nodes, 0⟩
    else do
      let list ← localWm.find (· = mod)
      if list = 0 then some localWm else localWm.unlink list

def setAttached (s : Modules) (wm : Nat) (attached : Bool) : Option Modules :=
  (s.modrefs.modify wm fun m => { m with attached }).map fun modrefs => { s with modrefs }

/-- `PE_UnloadLibrary`. -/
def unloadLibrary (s : Modules) (wm : Nat) : Option Modules :=
  (s.modrefs.free wm).map fun modrefs => { s with modrefs }

def remove (s : Modules) (wm : Nat) : Option Modules :=
  (removeFromList s.localWm wm).map fun localWm => { s with localWm }

/-- `my_garbagecollection`, if no module is left. -/
def collect (s : Modules) : Modules :=
  if s.localWm.newest = 0 then { s with collections := s.collections + 1 } else s

def push (s : Modules) (frame : ModuleFrame) : Modules := { s with stack := frame :: s.stack }

/-- A call cannot come between two turns of the loop of `CodecRelease`. -/
def between (s : Modules) : Bool :=
  match s.stack with
  | .releasing :: _ => true
  | _ => false

/-- `MODULE_FreeLibrary` as far as to the `DllMain`. What is done after that is `finish`, at once if there is none. -/
def freeStart (s : Modules) (wm : Nat) (frame : ModuleFrame) (finish : Modules → Option (Answer × Modules)) :
    Option (Answer × Modules) := do
  let s ← s.setAttached wm false
  let m ← s.modrefs.read wm
  if m.entry then some (.running, s.push frame) else finish s

/-- The rest of `LoadLibraryExA` after an attach that failed. -/
def finishFailed (wm : Nat) (s : Modules) : Option (Answer × Modules) := do
  let s ← s.unloadLibrary wm
  let s ← s.remove wm
  pure (.handle 0, s)

/-- The rest of `FreeLibrary`. -/
def finishFree (wm : Nat) (s : Modules) : Option (Answer × Modules) := do
  let s ← s.unloadLibrary wm
  let s ← s.remove wm
  pure (.freed true, s.collect)

/-- The rest of a turn of `CodecRelease`, which reads the module from the node again. -/
def finishRelease (list wm : Nat) (s : Modules) : Option (Answer × Modules) := do
  let s ← s.unloadLibrary wm
  let node ← s.localWm.nodes.read list
  let s ← s.remove node.value
  pure (.running, s.collect)

/-- `LoadLibraryExA` from the return of the `DllMain` on. -/
def attachEnd (s : Modules) (wm : Nat) (libname : CString) (exported : CString → BitVec 32) (retv : Bool) :
    Option (Answer × Modules) :=
  if retv then do
    let s ← s.setAttached wm true
    let m ← s.modrefs.read wm
    some (.handle (if unsupported libname m.wm.module exported then 0 else m.wm.module), s)
  else s.freeStart wm (.failed wm) (finishFailed wm)

/-- A module that is new: `VirtualAlloc` has put it where no other is. -/
def attach (s : Modules) (path libname : CString) (file : PeFile) : Option (Answer × Modules) := do
  let old ← s.lookupHMODULE file.module
  if file.module = 0 ∨ old.isSome then none
  else do
    let (wm, modrefs) := s.modrefs.alloc (createModule path file)
    let (_, localWm) ← s.localWm.push wm
    let s := { s with modrefs, localWm }
    if file.entry then some (.running, s.push (.attach wm libname file.exported))
    else s.attachEnd wm libname file.exported true

/-- `LoadLibraryExA`. -/
def loadLibrary (s : Modules) (libname : CString) (disk : CString → Option PeFile) : Option (Answer × Modules) := do
  match ← s.findModule libname with
  | some (_, wm) => some (.handle wm.wm.module, s)
  | none =>
    match ← searchPath disk (listPath s.defPath libname) with
    | some (path, file) => s.attach path libname file
    | none => some (.handle 0, s)

/-- `FreeLibrary`. -/
def freeLibrary (s : Modules) (hLibModule : BitVec 32) : Option (Answer × Modules) := do
  match ← s.lookupHMODULE hLibModule with
  | none => some (.freed false, s)
  | some (wm, _) => if hLibModule = 0 then some (.freed false, s) else s.freeStart wm (.free wm) (finishFree wm)

/-- `CodecRelease` as far as to its loop. -/
def codecRelease (s : Modules) : Answer × Modules :=
  let s := { s with acounter := s.acounter - 1 }
  if s.acounter = 0 then (.running, s.push .releasing) else (.done, s)

/-- The loop of `CodecRelease`. -/
def turn (s : Modules) : Option (Answer × Modules) :=
  match s.stack with
  | .releasing :: stack =>
    if s.localWm.newest = 0 then some (.done, { s with stack })
    else do
      let list ← s.localWm.nodes.read s.localWm.newest
      s.freeStart list.value (.release s.localWm.newest list.value) (finishRelease s.localWm.newest list.value)
  | _ => none

/-- The `DllMain` that is running returns. -/
def dllMain (s : Modules) (retv : Bool) : Option (Answer × Modules) :=
  match s.stack with
  | .attach wm libname exported :: stack => { s with stack }.attachEnd wm libname exported retv
  | .failed wm :: stack => finishFailed wm { s with stack }
  | .free wm :: stack => finishFree wm { s with stack }
  | .release list wm :: stack => finishRelease list wm { s with stack }
  | _ => none

def call (s : Modules) : ModuleCall → Option (Answer × Modules)
  | .turn => s.turn
  | .dllMain retv => s.dllMain retv
  | e =>
    if s.between then none
    else match e with
      | .setCodecPath path => some (.done, { s with defPath := path })
      | .loadLibrary libname disk => s.loadLibrary libname disk
      | .freeLibrary hLibModule => s.freeLibrary hLibModule
      | .codecAlloc => some (.done, { s with acounter := s.acounter + 1 })
      | .codecRelease => some s.codecRelease
      | _ => none

/-- `WIN32_PATH` is what the build makes of it. -/
def start (win32Path : CString) : Modules := ⟨.empty, .empty, win32Path, 0, [], 0⟩

end Modules

end DShow.Loader
