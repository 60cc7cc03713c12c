import DShowServer.Loader.ModuleList

/-!
# Modules in use

The list in memory follows the list of the modules over any run (`modules_track`). Nothing counts how often a module
was asked for: it stays exactly until it is freed for the first time (`module_stays`, `freeLibrary_once`), and a
version that `LoadLibraryExA` refuses stays, too, and is handed out when it is asked for again (`refused_given`).
-/

namespace DShow.Loader

open Registry (CString)
open Simulate (outputs rel_left rel_imp outputs_rel)

namespace Modules

open LoadedModules (mem_of_modref modref_setIn setAttached_eq_some)

variable {s s' : Modules} {g g' : LoadedModules} {wm : Nat} {stack : List ModuleFrame}
variable {win32Path : CString} {es fs : List ModuleCall} {rs : List Answer} {m : Modref}

theorem start_tracks (win32Path : CString) : (start win32Path).Tracks (.start win32Path) where
  cells := ⟨[], ⟨rfl, trivial, List.nodup_nil⟩, rfl⟩
  nodes _ _ h := nomatch h
  modref _ := rfl
  top := rfl
  defPath := rfl
  acounter := rfl
  stack := rfl
  collections := rfl

theorem start_ok (win32Path : CString) : (LoadedModules.start win32Path).Ok where
  nodup := List.nodup_nil
  lt_top _ h := nomatch h
  handles := List.nodup_nil
  ne_zero _ h := nomatch h
  stacked := trivial

theorem Tracks.step (h : s.Tracks g ∧ g.Ok) (e : ModuleCall) :
    Option.Rel (fun p q => p.1 = q.1 ∧ p.2.Tracks q.2 ∧ q.2.Ok) (s.call e) (g.call e) :=
  rel_imp (h.1.call h.2 e) fun _ _ _ hg h' => ⟨h'.1, h'.2, h.2.moves (LoadedModules.call_moves h.2.nodup hg)⟩

theorem tracks_outputs (h : s.Tracks g ∧ g.Ok) (es : List ModuleCall) :
    Option.Rel (fun p q => p.1 = q.1 ∧ p.2.Tracks q.2 ∧ q.2.Ok) (outputs call s es)
      (outputs LoadedModules.call g es) :=
  outputs_rel (R := fun (s : Modules) (g : LoadedModules) => s.Tracks g ∧ g.Ok) (fun _ _ e h => Tracks.step h e) h es

/-- **The list of modules.** Over any run, whatever the `DllMain`s call and answer, the list from `local_wm` on and a
list of the modules give the same answers and fail at the same call: what is found by a part of its name or by its
handle, attached, detached, taken out and collected is the same, also where the list in memory has a single node. -/
theorem modules_track (win32Path : CString) (es : List ModuleCall) :
    Option.Rel (fun p q => p.1 = q.1 ∧ p.2.Tracks q.2) (outputs call (start win32Path) es)
      (outputs LoadedModules.call (.start win32Path) es) :=
  rel_imp (tracks_outputs ⟨start_tracks win32Path, start_ok win32Path⟩ es) fun _ _ _ _ h => ⟨h.1, h.2.1⟩

theorem tracks_of_outputs (hs : outputs call (start win32Path) es = some (rs, s)) : ∃ g, s.Tracks g ∧ g.Ok := by
  obtain ⟨⟨_, g⟩, -, -, h⟩ := rel_left (tracks_outputs ⟨start_tracks win32Path, start_ok win32Path⟩ es) hs
  exact ⟨g, h⟩

/-- The state after a call. -/
def next (s : Modules) (e : ModuleCall) : Option Modules := (s.call e).map Prod.snd

/-- A call that does not free a module, nor all of them. -/
def Spares (handle : BitVec 32) (s : Modules) : ModuleCall → Prop
  | .freeLibrary hLibModule => hLibModule ≠ handle
  | .codecRelease => s.acounter ≠ 1
  | _ => True

instance (handle : BitVec 32) (s : Modules) : (e : ModuleCall) → Decidable (Spares handle s e)
  | .freeLibrary hLibModule => inferInstanceAs (Decidable (hLibModule ≠ handle))
  | .codecRelease => inferInstanceAs (Decidable (s.acounter ≠ 1))
  | .setCodecPath _ | .loadLibrary .. | .codecAlloc | .turn | .dllMain _ => isTrue trivial

/-- No call that waits is about a module, and none is `CodecRelease`. -/
def Quiet (s : Modules) (wm : Nat) : Prop := ∀ f ∈ s.stack, LoadedModules.about f ≠ some wm ∧ f ≠ .releasing

theorem Tracks.quiet (h : s.Tracks g) :
    s.Quiet wm ↔ ∀ f ∈ g.stack, LoadedModules.about f ≠ some wm ∧ f ≠ .releasing := by
  rw [← h.stack, List.forall_mem_map]
  refine forall₂_congr fun f _ => ?_
  cases f <;> simp [LoadedModules.about, ModuleFrame.forget]

/-- What the run after a call keeps of a module, and that it is found. -/
theorem stays {t : Modules} (h : s.Tracks g ∧ g.Ok) (hk : g.Keeps wm m)
    (hm : Run.Meets next (Spares m.wm.module) s fs) (ht : Run.exec next s fs = some t) :
    t.modrefs.read wm = some m ∧ ∀ libname disk, libname.chars <:+: m.wm.filename.chars →
      ∃ module, module ≠ 0 ∧ t.call (.loadLibrary libname disk) = some (.handle module, t) := by
  obtain ⟨g', ⟨h', hg'⟩, hk'⟩ : ∃ g, (t.Tracks g ∧ g.Ok) ∧ g.Keeps wm m := by
    refine Run.exec_inv (I := fun s => ∃ g, (s.Tracks g ∧ g.Ok) ∧ g.Keeps wm m) ?_ ⟨g, h, hk⟩ hm ht
    rintro s e s' ⟨g, h, hk⟩ hc hs
    obtain ⟨⟨r, s₁⟩, hs₁, rfl⟩ := Option.map_eq_some_iff.mp hs
    obtain ⟨⟨_, g'⟩, hg', -, h'⟩ := rel_left (Tracks.step h e) hs₁
    refine ⟨g', h', hk.moves h.2 ?_ ?_ (LoadedModules.call_moves h.2.nodup hg')⟩
    · rintro rfl
      exact hc rfl
    · rintro rfl
      exact h.1.acounter ▸ hc
  refine ⟨(h'.modref wm).trans hk'.modref, fun libname disk hname => ?_⟩
  obtain ⟨x, hx⟩ : ∃ x, (g'.search fun wm => libname.chars <:+: wm.wm.filename.chars) = some x :=
    Option.isSome_iff_exists.mp (List.find?_isSome.mpr ⟨_, mem_of_modref hk'.modref, decide_eq_true hname⟩)
  have hfind : t.findModule libname = some (some x) := (h'.search hg' _).trans (congrArg some hx)
  refine ⟨x.2.wm.module, hg'.ne_zero x (List.mem_of_find?_eq_some hx), ?_⟩
  show (if t.between then none else t.loadLibrary libname disk) = _
  rw [h'.between, hk'.between, if_neg Bool.false_ne_true, Modules.loadLibrary, hfind, Option.bind_eq_bind,
    Option.bind_some]

theorem Tracks.keeps (h : s.Tracks g) (hw : s.modrefs.read wm = some m) (hq : s.Quiet wm) : g.Keeps wm m :=
  ⟨(h.modref wm).symm.trans hw, h.quiet.mp hq⟩

/-- **A module stays.** In any run after any run, whatever is loaded, attached, detached and freed besides, a module
that no call waits for stays as it is as long as it is not freed itself and the last codec is not released, and every
`LoadLibraryA` of a part of its name is given a module. -/
theorem module_stays {t : Modules} (hs : outputs call (start win32Path) es = some (rs, s))
    (hw : s.modrefs.read wm = some m) (hq : s.Quiet wm) (hm : Run.Meets next (Spares m.wm.module) s fs)
    (ht : Run.exec next s fs = some t) : t.modrefs.read wm = some m ∧
      ∀ libname disk, libname.chars <:+: m.wm.filename.chars →
        ∃ module, module ≠ 0 ∧ t.call (.loadLibrary libname disk) = some (.handle module, t) := by
  obtain ⟨g, h⟩ := tracks_of_outputs hs
  exact stays h (h.1.keeps hw hq) hm ht

/-- Two libraries on the disk, the second of which is of a version that is not known. -/
def oneLibrary : PeFile := ⟨0x10000000, 0x10003000, true, fun _ => 0⟩

def vp6 : PeFile := ⟨0x20000000, 0, true, fun _ => 0⟩

/-- The first is loaded for two codecs; then the second is loaded and freed, and one of the codecs released. -/
def twoUsers : List ModuleCall :=
  [.codecAlloc, .loadLibrary (CString.ofBytes [97]) fun _ => some oneLibrary, .dllMain true, .codecAlloc,
    .loadLibrary (CString.ofBytes [97]) fun _ => none]

def secondLibrary : List ModuleCall :=
  [.loadLibrary (str "vp6vfw.dll") fun _ => some vp6, .dllMain true, .freeLibrary 0x20000000, .dllMain true,
    .codecRelease]

theorem module_stays_twoUsers : ∃ rs s t, outputs call (start (CString.ofBytes [])) twoUsers = some (rs, s) ∧
    Run.exec next s secondLibrary = some t ∧ (t.modrefs.read 1).isSome := by
  obtain ⟨rs, s, t, hs, hw, hst, hm, ht⟩ : ∃ rs s t,
      outputs call (start (CString.ofBytes [])) twoUsers = some (rs, s) ∧
      s.modrefs.read 1 = some ⟨⟨CString.ofBytes [97], 0x10000000, 0x10003000⟩, true, true⟩ ∧ s.stack = [] ∧
      Run.Meets next (Spares 0x10000000) s secondLibrary ∧ Run.exec next s secondLibrary = some t :=
    ⟨_, _, _, rfl, rfl, rfl, by decide, rfl⟩
  have hq : s.Quiet 1 := fun f hf => by
    rw [hst] at hf
    cases hf
  exact ⟨rs, s, t, hs, ht, by rw [(module_stays hs hw hq hm ht).1]; rfl⟩

/-- **Nothing counts the users.** After any run, however often `LoadLibraryA` has answered with its handle, one
`FreeLibrary` takes a module out, and the next finds nothing to free. -/
theorem freeLibrary_once (hs : outputs call (start win32Path) es = some (rs, s))
    (hw : s.modrefs.read wm = some m) (hb : s.between = false) (retv : Bool) : ∃ qs t,
      outputs call s (.freeLibrary m.wm.module :: if m.entry then [.dllMain retv] else []) = some (qs, t) ∧
      t.modrefs.read wm = none ∧ t.call (.freeLibrary m.wm.module) = some (.freed false, t) := by
  obtain ⟨g, h⟩ := tracks_of_outputs hs
  have hwg := (h.1.modref wm).symm.trans hw
  obtain ⟨qs, g', hout, hnone, hgone, hstack⟩ :=
    LoadedModules.freeLibrary_outputs h.2 hwg (h.1.between.symm.trans hb) retv
  obtain ⟨⟨qs', t⟩, ht, -, h', hg'⟩ := Simulate.rel_right (tracks_outputs h _) hout
  have hbt : t.between = false := by
    rw [h'.between, LoadedModules.between, hstack]
    exact h.1.between.symm.trans hb
  refine ⟨qs', t, ht, (h'.modref wm).trans hnone, ?_⟩
  have hlook : t.lookupHMODULE m.wm.module = some none := (h'.search hg' _).trans (congrArg some hgone)
  show (if t.between then none else t.freeLibrary m.wm.module) = _
  rw [hbt, if_neg Bool.false_ne_true, Modules.freeLibrary, hlook, Option.bind_eq_bind, Option.bind_some]

theorem freeLibrary_once_twoUsers : ∃ rs s qs t, outputs call (start (CString.ofBytes [])) twoUsers = some (rs, s) ∧
    outputs call s [.freeLibrary 0x10000000, .dllMain false] = some (qs, t) ∧
      t.call (.freeLibrary 0x10000000) = some (.freed false, t) := by
  obtain ⟨rs, s, hs, hw, hb⟩ : ∃ rs s, outputs call (start (CString.ofBytes [])) twoUsers = some (rs, s) ∧
      s.modrefs.read 1 = some ⟨⟨CString.ofBytes [97], 0x10000000, 0x10003000⟩, true, true⟩ ∧ s.between = false :=
    ⟨_, _, rfl, rfl, rfl⟩
  obtain ⟨qs, t, hout, -, h⟩ := freeLibrary_once hs hw hb false
  exact ⟨rs, s, qs, t, hs, hout, h⟩

/-- **What was refused is given.** When `LoadLibraryExA` has refused a version that it does not know, the module is in
the list all the same, and in any run after that, as long as it is not freed, the next `LoadLibraryA` of the name is
given a module. -/
theorem refused_given {t u : Modules} {libname : CString} {exported : CString → BitVec 32}
    (hs : outputs call (start win32Path) es = some (rs, s)) (hst : s.stack = .attach wm libname exported :: stack)
    (hrel : ∀ f ∈ stack, f ≠ .releasing) (hw : s.modrefs.read wm = some m)
    (hname : libname.chars <:+: m.wm.filename.chars) (hcall : s.call (.dllMain true) = some (.handle 0, t))
    (hm : Run.Meets next (Spares m.wm.module) t fs) (hu : Run.exec next t fs = some u)
    (disk : CString → Option PeFile) :
    ∃ module, module ≠ 0 ∧ u.call (.loadLibrary libname disk) = some (.handle module, u) := by
  obtain ⟨g, h⟩ := tracks_of_outputs hs
  obtain ⟨⟨r, g'⟩, hg', -, h'⟩ := rel_left (Tracks.step h _) hcall
  have hwg := (h.1.modref wm).symm.trans hw
  have hwg' : ({ g with stack := stack.map ModuleFrame.forget } : LoadedModules).modref wm = some m := hwg
  have hstack := h.1.stack
  rw [hst] at hstack
  -- what waits below was there before the module
  have hbelow : ∀ f ∈ stack.map ModuleFrame.forget, LoadedModules.about f ≠ some wm ∧ f ≠ .releasing := by
    have hstk := h.2.stacked
    rw [← hstack] at hstk
    intro f hf
    refine ⟨fun ha => Nat.lt_irrefl wm (hstk.2.lt hf ha), ?_⟩
    obtain ⟨f₀, hf₀, rfl⟩ := List.mem_map.mp hf
    cases f₀ with
    | releasing => exact absurd rfl (hrel _ hf₀)
    | _ => rintro ⟨⟩
  have hend : ({ g with stack := stack.map ModuleFrame.forget } : LoadedModules).attachEnd wm libname exported true =
      some (r, g') := by
    have hd : g.dllMain true = some (r, g') := hg'
    rw [LoadedModules.dllMain, ← hstack] at hd
    exact hd
  obtain ⟨g₁, h₁, hend⟩ := Option.bind_eq_some_iff.mp hend
  obtain ⟨-, rfl⟩ := setAttached_eq_some.mp h₁
  obtain ⟨m', hm', hend⟩ := Option.bind_eq_some_iff.mp hend
  rw [modref_setIn, if_pos rfl, hwg', Option.map_some, Option.some.injEq] at hm'
  subst hm'
  cases hend
  refine (stays (m := { m with attached := true }) h' ⟨?_, hbelow⟩ hm hu).2 libname disk hname
  rw [modref_setIn, if_pos rfl, hwg']
  rfl

theorem refused_given_vp6 : ∃ rs s t u module,
    outputs call (start (CString.ofBytes [])) (secondLibrary.take 1) = some (rs, s) ∧
    s.call (.dllMain true) = some (.handle 0, t) ∧ Run.exec next t twoUsers = some u ∧ module ≠ 0 ∧
    u.call (.loadLibrary (str "vp6vfw.dll") fun _ => none) = some (.handle module, u) := by
  obtain ⟨rs, s, t, u, hs, hst, hw, hcall, hm, hu⟩ : ∃ rs s t u,
      outputs call (start (CString.ofBytes [])) (secondLibrary.take 1) = some (rs, s) ∧
      s.stack = [.attach 1 (str "vp6vfw.dll") vp6.exported] ∧
      s.modrefs.read 1 = some ⟨⟨str "vp6vfw.dll", 0x20000000, 0⟩, true, false⟩ ∧
      s.call (.dllMain true) = some (.handle 0, t) ∧ Run.Meets next (Spares 0x20000000) t twoUsers ∧
      Run.exec next t twoUsers = some u :=
    ⟨_, _, _, _, rfl, rfl, rfl, rfl, by decide, rfl⟩
  obtain ⟨module, h0, h⟩ := refused_given hs hst (fun _ h => nomatch h) hw List.infix_rfl hcall hm hu fun _ => none
  exact ⟨rs, s, t, u, module, hs, hcall, hu, h0, h⟩

end Modules

end DShow.Loader
