import DShowServer.Loader.Modules

/-!
# The modules alone

`LoadedModules` is the list of the modules as `findModule` and `lookupHMODULE` know it, without the nodes that it is
made of. `call_moves` says what a call can do to it: nothing, add a module, change whether one is attached, or
take one out; the last two only to the module whose handle is freed, that `CodecRelease` has come to, or that a
waiting call is about.
-/

namespace DShow.Loader

open Registry (CString ascii)

/-- The node that a frame holds forgotten. -/
def ModuleFrame.forget : ModuleFrame → ModuleFrame
  | .release _ wm => .release 0 wm
  | f => f

/-- The modules, the newest first, with their addresses and the next one. -/
structure LoadedModules where
  mods : List (Nat × Modref)
  top : Nat
  defPath : CString
  acounter : Int
  stack : List ModuleFrame
  collections : Nat

namespace LoadedModules

def modref (g : LoadedModules) (wm : Nat) : Option Modref := (Keyed.lookup Prod.fst g.mods wm).map Prod.snd

/-- The modules as the search for an exported function knows them. -/
def wineModrefs (g : LoadedModules) : List WineModref := g.mods.map fun x => x.2.wm

def search (g : LoadedModules) (p : Modref → Bool) : Option (Nat × Modref) := g.mods.find? fun x => p x.2

def setAttached (g : LoadedModules) (wm : Nat) (attached : Bool) : Option LoadedModules :=
  (g.modref wm).map fun _ => { g with mods := Chain.setIn g.mods wm fun m => { m with attached } }

def remove (g : LoadedModules) (wm : Nat) : Option LoadedModules :=
  (g.modref wm).map fun _ => { g with mods := g.mods.eraseP fun x => x.1 = wm }

def collect (g : LoadedModules) : LoadedModules :=
  if g.mods = [] then { g with collections := g.collections + 1 } else g

def push (g : LoadedModules) (frame : ModuleFrame) : LoadedModules := { g with stack := frame :: g.stack }

def between (g : LoadedModules) : Bool :=
  match g.stack with
  | .releasing :: _ => true
  | _ => false

def freeStart (g : LoadedModules) (wm : Nat) (frame : ModuleFrame)
    (finish : LoadedModules → Option (Answer × LoadedModules)) : Option (Answer × LoadedModules) := do
  let g ← g.setAttached wm false
  let m ← g.modref wm
  if m.entry then some (.running, g.push frame) else finish g

def finishFailed (wm : Nat) (g : LoadedModules) : Option (Answer × LoadedModules) :=
  (g.remove wm).map fun g => (.handle 0, g)

def finishFree (wm : Nat) (g : LoadedModules) : Option (Answer × LoadedModules) :=
  (g.remove wm).map fun g => (.freed true, g.collect)

def finishRelease (wm : Nat) (g : LoadedModules) : Option (Answer × LoadedModules) :=
  (g.remove wm).map fun g => (.running, g.collect)

def attachEnd (g : LoadedModules) (wm : Nat) (libname : CString) (exported : CString → BitVec 32) (retv : Bool) :
    Option (Answer × LoadedModules) :=
  if retv then do
    let g ← g.setAttached wm true
    let m ← g.modref wm
    some (.handle (if unsupported libname m.wm.module exported then 0 else m.wm.module), g)
  else g.freeStart wm (.failed wm) (finishFailed wm)

def add (g : LoadedModules) (m : Modref) : LoadedModules :=
  { g with mods := (g.top, m) :: g.mods, top := g.top + 1 }

/-- Without an entry point a module is attached at once. -/
def attach (g : LoadedModules) (path libname : CString) (file : PeFile) : Option (Answer × LoadedModules) :=
  if file.module = 0 ∨ (lookupHMODULE g.wineModrefs file.module).isSome then none
  else if file.entry then
    some (.running, (g.add (createModule path file)).push (.attach g.top libname file.exported))
  else
    some (.handle (if unsupported libname file.module file.exported then 0 else file.module),
      g.add { createModule path file with attached := true })

def loadLibrary (g : LoadedModules) (libname : CString) (disk : CString → Option PeFile) :
    Option (Answer × LoadedModules) :=
  match findModule g.wineModrefs libname with
  | some wm => some (.handle wm.module, g)
  | none => (searchPath disk (listPath g.defPath libname)).bind fun
    | some (path, file) => g.attach path libname file
    | none => some (.handle 0, g)

def freeLibrary (g : LoadedModules) (hLibModule : BitVec 32) : Option (Answer × LoadedModules) :=
  match g.search fun wm => wm.wm.module = hLibModule with
  | none => some (.freed false, g)
  | some (wm, _) => if hLibModule = 0 then some (.freed false, g) else g.freeStart wm (.free wm) (finishFree wm)

def codecRelease (g : LoadedModules) : Answer × LoadedModules :=
  let g := { g with acounter := g.acounter - 1 }
  if g.acounter = 0 then (.running, g.push .releasing) else (.done, g)

def turn (g : LoadedModules) : Option (Answer × LoadedModules) :=
  match g.stack with
  | .releasing :: stack =>
    match g.mods with
    | [] => some (.done, { g with stack })
    | (wm, _) :: _ => g.freeStart wm (.release 0 wm) (finishRelease wm)
  | _ => none

def dllMain (g : LoadedModules) (retv : Bool) : Option (Answer × LoadedModules) :=
  match g.stack with
  | .attach wm libname exported :: stack => { g with stack }.attachEnd wm libname exported retv
  | .failed wm :: stack => finishFailed wm { g with stack }
  | .free wm :: stack => finishFree wm { g with stack }
  | .release _ wm :: stack => finishRelease wm { g with stack }
  | _ => none

def call (g : LoadedModules) : ModuleCall → Option (Answer × LoadedModules)
  | .turn => g.turn
  | .dllMain retv => g.dllMain retv
  | e =>
    if g.between then none
    else match e with
      | .setCodecPath path => some (.done, { g with defPath := path })
      | .loadLibrary libname disk => g.loadLibrary libname disk
      | .freeLibrary hLibModule => g.freeLibrary hLibModule
      | .codecAlloc => some (.done, { g with acounter := g.acounter + 1 })
      | .codecRelease => some g.codecRelease
      | _ => none

def start (win32Path : CString) : LoadedModules := ⟨[], 1, win32Path, 0, [], 0⟩

/-- Which module a frame is about. -/
def about : ModuleFrame → Option Nat
  | .attach wm .. | .failed wm | .free wm | .release _ wm => some wm
  | .releasing => none

/-- The modules that were there before what a frame waits for. -/
def bound (top : Nat) : ModuleFrame → Nat
  | .attach wm .. => wm
  | _ => top

/-- What waits under an attach was there before the module. -/
def Stacked : Nat → List ModuleFrame → Prop
  | _, [] => True
  | top, f :: stack => (∀ wm ∈ about f, wm < top) ∧ Stacked (bound top f) stack

/-- Modules have addresses of their own, and handles of their own that are not 0. -/
structure Ok (g : LoadedModules) : Prop where
  nodup : (g.mods.map Prod.fst).Nodup
  lt_top : ∀ x ∈ g.mods, x.1 < g.top
  handles : (g.mods.map fun x => x.2.wm.module).Nodup
  ne_zero : ∀ x ∈ g.mods, x.2.wm.module ≠ 0
  stacked : Stacked g.top g.stack

end LoadedModules

/-! ## What a call does to the modules -/

namespace LoadedModules

variable {g g' : LoadedModules} {e : ModuleCall} {r : Answer} {wm top : Nat} {m : Modref}
  {stack base : List ModuleFrame}

/-- What waits under a step that is about a module: `FreeLibrary` of its handle, a turn of `CodecRelease`, or a return
to a frame. -/
def Base (g : LoadedModules) (e : ModuleCall) (wm : Nat) (base : List ModuleFrame) : Prop :=
  (∃ m, g.modref wm = some m ∧ e = .freeLibrary m.wm.module ∧ base = g.stack) ∨
  (e = .turn ∧ (∃ stack, g.stack = .releasing :: stack) ∧ base = g.stack) ∨
  ∃ f, g.stack = f :: base ∧ about f = some wm

/-- What a step can do to the modules and the frames. -/
inductive Moves (g : LoadedModules) (e : ModuleCall) (g' : LoadedModules) : Prop
  | same (mods : g'.mods = g.mods) (top : g'.top = g.top) (stack : g'.stack = g.stack)
  | enter (last : e = .codecRelease ∧ g.acounter = 1) (mods : g'.mods = g.mods) (top : g'.top = g.top)
      (stack : g'.stack = .releasing :: g.stack)
  | leave (mods : g'.mods = g.mods) (top : g'.top = g.top) (stack : g.stack = .releasing :: g'.stack)
  | add (m : Modref) (mods : g'.mods = (g.top, m) :: g.mods) (ne_zero : m.wm.module ≠ 0)
      (new : m.wm.module ∉ g.mods.map fun x => x.2.wm.module) (top : g'.top = g.top + 1)
      (stack : g'.stack = g.stack ∨ ∃ libname exported, g'.stack = .attach g.top libname exported :: g.stack)
  | change (wm : Nat) (b : Bool) (base : List ModuleFrame) (named : g.Base e wm base) (mem : wm ∈ g.mods.map Prod.fst)
      (mods : g'.mods = Chain.setIn g.mods wm fun m => { m with attached := b }) (top : g'.top = g.top)
      (stack : g'.stack = base ∨ (∃ f, about f = some wm ∧ (∀ l x, f ≠ .attach wm l x) ∧ g'.stack = f :: base))
  | remove (wm : Nat) (base : List ModuleFrame) (named : g.Base e wm base) (l : List (Nat × Modref))
      (before : l = g.mods ∨ l = Chain.setIn g.mods wm fun m => { m with attached := false })
      (mods : g'.mods = l.eraseP fun x => x.1 = wm) (top : g'.top = g.top) (stack : g'.stack = base)

theorem mem_of_modref (h : g.modref wm = some m) : (wm, m) ∈ g.mods := by
  obtain ⟨x, hx, rfl⟩ := Option.map_eq_some_iff.mp h
  obtain ⟨hm, rfl⟩ := Keyed.key_of_lookup hx
  exact hm

theorem modref_of_mem (hg : (g.mods.map Prod.fst).Nodup) (h : (wm, m) ∈ g.mods) : g.modref wm = some m :=
  congrArg (Option.map Prod.snd) (Keyed.lookup_of_mem hg h)

theorem search_eq_some {p : Modref → Bool} (hg : (g.mods.map Prod.fst).Nodup) (h : g.search p = some (wm, m)) :
    p m = true ∧ g.modref wm = some m :=
  ⟨List.find?_some (p := fun x : Nat × Modref => p x.2) h, modref_of_mem hg (List.mem_of_find?_eq_some h)⟩

theorem modref_setIn {f : Modref → Modref} (g : LoadedModules) (a wm : Nat) :
    ({ g with mods := Chain.setIn g.mods a f } : LoadedModules).modref wm =
      if wm = a then (g.modref wm).map f else g.modref wm := by
  unfold LoadedModules.modref
  rw [Chain.lookup_setIn]
  split <;> simp [Option.map_map, Function.comp_def]

theorem modref_add (g : LoadedModules) (m : Modref) (wm : Nat) :
    (g.add m).modref wm = if g.top = wm then some m else g.modref wm := by
  unfold LoadedModules.modref add
  rw [Keyed.lookup_cons]
  split <;> rfl

/-- A module whose flag may be another is the same module. -/
theorem exists_of_mem_setIn {l : List (Nat × Modref)} {a : Nat} {b : Bool} {x : Nat × Modref}
    (hx : x ∈ Chain.setIn l a fun m => { m with attached := b }) : ∃ y ∈ l, x.1 = y.1 ∧ x.2.wm = y.2.wm := by
  obtain ⟨y, hy, rfl⟩ := List.mem_map.mp hx
  refine ⟨y, hy, ?_⟩
  split <;> exact ⟨rfl, rfl⟩

theorem setAttached_eq_some {b : Bool} : g.setAttached wm b = some g' ↔ (∃ m, g.modref wm = some m) ∧
    g' = { g with mods := Chain.setIn g.mods wm fun m => { m with attached := b } } := by
  rw [setAttached, Option.map_eq_some_iff]
  exact ⟨fun ⟨m, hm, he⟩ => ⟨⟨m, hm⟩, he.symm⟩, fun ⟨⟨m, hm⟩, he⟩ => ⟨m, hm, he.symm⟩⟩

theorem remove_eq_some : g.remove wm = some g' ↔ (∃ m, g.modref wm = some m) ∧
    g' = { g with mods := g.mods.eraseP fun x => x.1 = wm } := by
  rw [remove, Option.map_eq_some_iff]
  exact ⟨fun ⟨m, hm, he⟩ => ⟨⟨m, hm⟩, he.symm⟩, fun ⟨⟨m, hm⟩, he⟩ => ⟨m, hm, he.symm⟩⟩

@[simp] theorem collect_mods : g.collect.mods = g.mods := by unfold collect; split <;> rfl
@[simp] theorem collect_top : g.collect.top = g.top := by unfold collect; split <;> rfl
@[simp] theorem collect_stack : g.collect.stack = g.stack := by unfold collect; split <;> rfl

/-- A removal, whatever is answered and counted. -/
theorem removed {finish : LoadedModules → Answer × LoadedModules}
    (hf : ∀ g, (finish g).2.mods = g.mods ∧ (finish g).2.top = g.top ∧ (finish g).2.stack = g.stack)
    (h : (g.remove wm).map finish = some (r, g')) :
    g'.mods = (g.mods.eraseP fun x => x.1 = wm) ∧ g'.top = g.top ∧ g'.stack = g.stack := by
  obtain ⟨g₁, h₁, he⟩ := Option.map_eq_some_iff.mp h
  obtain ⟨-, rfl⟩ := remove_eq_some.mp h₁
  obtain ⟨hm, ht, hs⟩ := hf { g with mods := g.mods.eraseP fun x => x.1 = wm }
  rw [he] at hm ht hs
  exact ⟨hm, ht, hs⟩

theorem finishFailed_eq (h : finishFailed wm g = some (r, g')) :
    g'.mods = (g.mods.eraseP fun x => x.1 = wm) ∧ g'.top = g.top ∧ g'.stack = g.stack :=
  removed (fun _ => ⟨rfl, rfl, rfl⟩) h

theorem finishFree_eq (h : finishFree wm g = some (r, g')) :
    g'.mods = (g.mods.eraseP fun x => x.1 = wm) ∧ g'.top = g.top ∧ g'.stack = g.stack :=
  removed (fun _ => ⟨collect_mods, collect_top, collect_stack⟩) h

theorem finishRelease_eq (h : finishRelease wm g = some (r, g')) :
    g'.mods = (g.mods.eraseP fun x => x.1 = wm) ∧ g'.top = g.top ∧ g'.stack = g.stack :=
  removed (fun _ => ⟨collect_mods, collect_top, collect_stack⟩) h

/-- A detach enters the `DllMain`, or takes the module out at once. -/
theorem freeStart_moves {frame : ModuleFrame} {finish : LoadedModules → Option (Answer × LoadedModules)}
    (hfin : ∀ g r g', finish g = some (r, g') →
      g'.mods = (g.mods.eraseP fun x => x.1 = wm) ∧ g'.top = g.top ∧ g'.stack = g.stack)
    (hframe : about frame = some wm ∧ ∀ l x, frame ≠ .attach wm l x) {g₀ : LoadedModules} (hb : g₀.Base e wm g.stack)
    (hm : g₀.mods = g.mods) (ht : g₀.top = g.top) (h : g.freeStart wm frame finish = some (r, g')) : g₀.Moves e g' := by
  obtain ⟨g₁, h₁, h⟩ := Option.bind_eq_some_iff.mp h
  obtain ⟨⟨m, hr⟩, rfl⟩ := setAttached_eq_some.mp h₁
  obtain ⟨m', hr', h⟩ := Option.bind_eq_some_iff.mp h
  split at h
  · cases h
    exact .change wm false g.stack hb (hm ▸ List.mem_map_of_mem (mem_of_modref hr)) (by rw [hm]; rfl) ht.symm
      (.inr ⟨frame, hframe.1, hframe.2, rfl⟩)
  · obtain ⟨hm', ht', hs'⟩ := hfin _ _ _ h
    exact .remove wm g.stack hb _ (.inr (by rw [hm])) hm' (ht'.trans ht.symm) hs'

theorem attachEnd_moves {libname : CString} {exported : CString → BitVec 32} {retv : Bool} {g₀ : LoadedModules}
    (hb : g₀.Base e wm g.stack) (hm : g₀.mods = g.mods) (ht : g₀.top = g.top)
    (h : g.attachEnd wm libname exported retv = some (r, g')) : g₀.Moves e g' := by
  unfold attachEnd at h
  split at h
  · obtain ⟨g₁, h₁, h⟩ := Option.bind_eq_some_iff.mp h
    obtain ⟨⟨m, hr⟩, rfl⟩ := setAttached_eq_some.mp h₁
    obtain ⟨m', -, h⟩ := Option.bind_eq_some_iff.mp h
    cases h
    exact .change wm true g.stack hb (hm ▸ List.mem_map_of_mem (mem_of_modref hr)) (by rw [hm]) ht.symm (.inl rfl)
  · exact freeStart_moves (fun _ _ _ => finishFailed_eq) ⟨rfl, by rintro _ _ ⟨⟩⟩ hb hm ht h

theorem attachEnd_add (hnew : g.top ∉ g.mods.map Prod.fst) (m : Modref) (libname : CString)
    (exported : CString → BitVec 32) : (g.add m).attachEnd g.top libname exported true =
      some (.handle (if unsupported libname m.wm.module exported then 0 else m.wm.module),
        g.add { m with attached := true }) := by
  have hm : (g.add m).modref g.top = some m := by rw [modref_add, if_pos rfl]
  have hset : (g.add m).setAttached g.top true = some (g.add { m with attached := true }) := by
    have hcons : Chain.setIn ((g.top, m) :: g.mods) g.top (fun m => { m with attached := true }) =
        (g.top, { m with attached := true }) :: g.mods := by
      have hold : Chain.setIn g.mods g.top (fun m => { m with attached := true }) = g.mods :=
        Chain.setIn_of_notMem hnew
      rw [Chain.setIn, List.map_cons, if_pos rfl]
      exact congrArg (List.cons _) hold
    rw [setAttached, hm, Option.map_some]
    exact congrArg (fun mods => some { g with mods, top := g.top + 1 }) hcons
  have hm' : (g.add { m with attached := true }).modref g.top = some { m with attached := true } := by
    rw [modref_add, if_pos rfl]
  rw [attachEnd, if_pos rfl, hset, Option.bind_eq_bind, Option.bind_some, hm', Option.bind_eq_bind, Option.bind_some]

theorem attach_moves {path libname : CString} {file : PeFile} (h : g.attach path libname file = some (r, g')) :
    g.Moves e g' := by
  unfold attach at h
  split at h
  · cases h
  · rename_i hn
    rw [not_or] at hn
    have hnew : file.module ∉ g.mods.map fun x => x.2.wm.module := by
      intro hmem
      obtain ⟨x, hx, hm⟩ := List.mem_map.mp hmem
      refine hn.2 (List.find?_isSome.mpr ⟨x.2.wm, List.mem_map_of_mem (f := fun x : Nat × Modref => x.2.wm) hx, ?_⟩)
      exact decide_eq_true hm
    split at h
    · cases h
      exact .add _ rfl hn.1 hnew rfl (.inr ⟨_, _, rfl⟩)
    · cases h
      exact .add _ rfl hn.1 hnew rfl (.inl rfl)

theorem loadLibrary_moves {libname : CString} {disk : CString → Option PeFile}
    (h : g.loadLibrary libname disk = some (r, g')) : g.Moves e g' := by
  unfold loadLibrary at h
  split at h
  · cases h
    exact .same rfl rfl rfl
  · obtain ⟨found, -, h⟩ := Option.bind_eq_some_iff.mp h
    cases found with
    | none =>
      cases h
      exact .same rfl rfl rfl
    | some p => exact attach_moves h

theorem freeLibrary_moves {hLibModule : BitVec 32} (hg : (g.mods.map Prod.fst).Nodup)
    (h : g.freeLibrary hLibModule = some (r, g')) : g.Moves (.freeLibrary hLibModule) g' := by
  unfold freeLibrary at h
  split at h
  · cases h
    exact .same rfl rfl rfl
  · rename_i wm m hs
    split at h
    · cases h
      exact .same rfl rfl rfl
    · refine freeStart_moves (fun _ _ _ => finishFree_eq) ⟨rfl, by rintro _ _ ⟨⟩⟩ (.inl ⟨m, ?_, ?_, rfl⟩) rfl rfl h
      · exact (search_eq_some hg hs).2
      · rw [of_decide_eq_true (search_eq_some hg hs).1]

theorem call_moves (hg : (g.mods.map Prod.fst).Nodup) (h : g.call e = some (r, g')) : g.Moves e g' := by
  unfold call at h
  cases e with
  | turn =>
    dsimp only at h
    unfold turn at h
    split at h
    · rename_i stack hs
      split at h
      · cases h
        exact .leave rfl rfl hs
      · exact freeStart_moves (fun _ _ _ => finishRelease_eq) ⟨rfl, by rintro _ _ ⟨⟩⟩
          (.inr (.inl ⟨rfl, ⟨stack, hs⟩, rfl⟩)) rfl rfl h
    · cases h
  | dllMain retv =>
    dsimp only at h
    unfold dllMain at h
    split at h
    · rename_i hs
      exact attachEnd_moves (g := { g with stack := _ }) (.inr (.inr ⟨_, hs, rfl⟩)) rfl rfl h
    · rename_i wm stack hs
      obtain ⟨hm, ht, hs'⟩ := finishFailed_eq h
      exact .remove wm stack (.inr (.inr ⟨_, hs, rfl⟩)) _ (.inl rfl) hm ht hs'
    · rename_i wm stack hs
      obtain ⟨hm, ht, hs'⟩ := finishFree_eq h
      exact .remove wm stack (.inr (.inr ⟨_, hs, rfl⟩)) _ (.inl rfl) hm ht hs'
    · rename_i wm stack hs
      obtain ⟨hm, ht, hs'⟩ := finishRelease_eq h
      exact .remove wm stack (.inr (.inr ⟨_, hs, rfl⟩)) _ (.inl rfl) hm ht hs'
    · cases h
  | setCodecPath path =>
    dsimp only at h
    split at h
    · cases h
    · cases h
      exact .same rfl rfl rfl
  | loadLibrary libname disk =>
    dsimp only at h
    split at h
    · cases h
    · exact loadLibrary_moves h
  | freeLibrary hLibModule =>
    dsimp only at h
    split at h
    · cases h
    · exact freeLibrary_moves hg h
  | codecAlloc =>
    dsimp only at h
    split at h
    · cases h
    · cases h
      exact .same rfl rfl rfl
  | codecRelease =>
    dsimp only at h
    split at h
    · cases h
    · unfold codecRelease at h
      dsimp only at h
      split at h
      · rename_i hz
        cases h
        exact .enter ⟨rfl, by omega⟩ rfl rfl rfl
      · cases h
        exact .same rfl rfl rfl

end LoadedModules

end DShow.Loader
