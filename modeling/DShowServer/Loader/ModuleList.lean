import DShowServer.Loader.ModulesKept

/-!
# The list of modules in memory

The nodes from `local_wm` on are linked both ways. `Modules.Tracks` says that they hold the modules of a
`LoadedModules`, and that a node at which `CodecRelease` waits is that of its module as long as that is loaded. Every
call keeps it and answers the same (`Tracks.call`), also where `MODULE_RemoveFromList` frees the only node without
a look at its module (`removeFromList_holds`).
-/

namespace DShow.Loader

open Registry (CString)
open Simulate (rel_bind rel_imp)

/-- The list in memory is that of the modules, and a node that `CodecRelease` holds is that of its module. -/
structure Modules.Tracks (s : Modules) (g : LoadedModules) : Prop where
  cells : ∃ cells, s.localWm.Holds cells ∧ cells.map Prod.snd = g.mods.map Prod.fst
  nodes : ∀ list wm, .release list wm ∈ s.stack → (g.modref wm).isSome → s.localWm.value list = some wm
  modref : ∀ wm, s.modrefs.read wm = g.modref wm
  top : s.modrefs.top = g.top
  defPath : s.defPath = g.defPath
  acounter : s.acounter = g.acounter
  stack : s.stack.map ModuleFrame.forget = g.stack
  collections : s.collections = g.collections

namespace Modules

open LoadedModules (modref_of_mem mem_of_modref modref_setIn setAttached_eq_some)

variable {s s' : Modules} {g g' : LoadedModules} {wm a : Nat} {list : Chain Nat} {l₁ l₂ : List (Nat × Nat)}
  {frame : ModuleFrame} {stack : List ModuleFrame} {p : Modref → Bool}

/-- Also where it is the last one, the module that is taken out is the one that was asked for. -/
theorem removeFromList_holds (h : list.Holds (l₁ ++ (a, wm) :: l₂)) (hn : ((l₁ ++ (a, wm) :: l₂).map Prod.snd).Nodup)
    (h0 : wm ≠ 0) : ∃ list', removeFromList list wm = some list' ∧ list'.Holds (l₁ ++ l₂) ∧
      ∀ b, list'.value b = if b = a then none else list.value b := by
  have hne : list.newest ≠ 0 := fun hz => by simpa using h.newest_eq_zero.mp hz
  obtain ⟨x, t, ht⟩ : ∃ x t, l₁ ++ (a, wm) :: l₂ = x :: t := by
    cases l₁ with
    | nil => exact ⟨_, _, rfl⟩
    | cons x l₁ => exact ⟨_, _, rfl⟩
  have hh := h
  rw [ht] at hh
  have hread : list.nodes.read list.newest = some ⟨x.2, Links.first 0 t, 0⟩ := by
    rw [hh.newest]
    exact hh.seg.1
  unfold removeFromList
  rw [if_neg (by rintro (hz | hz); exacts [hne hz, h0 hz]), hread, Option.bind_eq_bind, Option.bind_some]
  by_cases hlast : t = []
  · subst hlast
    obtain ⟨rfl, rfl, rfl⟩ : l₁ = [] ∧ l₂ = [] ∧ x = (a, wm) := by
      cases l₁ with
      | nil =>
        cases ht
        exact ⟨rfl, rfl, rfl⟩
      | cons y l₁ => simp at ht
    obtain ⟨nodes, hf, -, hr⟩ := Store.exists_free hread
    rw [if_pos ⟨rfl, rfl⟩, hf]
    refine ⟨_, rfl, ⟨rfl, trivial, List.nodup_nil⟩, fun b => ?_⟩
    rw [Chain.value, hr, hh.newest]
    show (if b = a then none else list.nodes.read b).map ChainNode.value = _
    split <;> rfl
  · have hprev : Links.first 0 t ≠ 0 := by
      obtain ⟨y, u, rfl⟩ := List.exists_cons_of_ne_nil hlast
      exact Store.ne_zero_of_read hh.seg.2.1
    have hfind : (l₁ ++ (a, wm) :: l₂).find? (fun x => decide (x.2 = wm)) = some (a, wm) := by
      rw [List.map_append, List.map_cons, List.nodup_append] at hn
      refine List.find?_eq_some_iff_append.mpr ⟨decide_eq_true rfl, l₁, l₂, rfl, fun x hx => ?_⟩
      have := hn.2.2 x.2 (List.mem_map_of_mem hx) wm List.mem_cons_self
      simpa using this
    have ha : a ≠ 0 := h.seg.ne_zero (by simp)
    obtain ⟨list', hu, hl⟩ := h.unlink
    rw [if_neg fun hz => hprev hz.1, h.find, hfind, Option.bind_eq_bind, Option.bind_some]
    refine ⟨list', (if_neg ha).trans hu, hl, fun b => Chain.unlink_value hu⟩

theorem searchFrom_eq {st : Store (ChainNode Nat)} {modrefs : Store Modref} {cells : List (Nat × Nat)}
    {mods : List (Nat × Modref)} {next room : Nat} (hs : Chain.links.Seg st 0 next cells)
    (hm : cells.map Prod.snd = mods.map Prod.fst) (hread : ∀ x ∈ mods, modrefs.read x.1 = some x.2)
    (hr : cells.length < room) :
    searchFrom st modrefs p room (Links.first 0 cells) = some (mods.find? fun x => p x.2) := by
  induction cells generalizing mods next room with
  | nil =>
    obtain ⟨r, rfl⟩ := Nat.exists_eq_succ_of_ne_zero (Nat.ne_of_gt hr)
    obtain rfl : mods = [] := List.map_eq_nil_iff.mp hm.symm
    rfl
  | cons c cells ih =>
    obtain ⟨r, rfl⟩ := Nat.exists_eq_succ_of_ne_zero (Nat.ne_of_gt (Nat.lt_of_le_of_lt (Nat.zero_le _) hr))
    obtain ⟨x, mods, rfl⟩ : ∃ x mods', mods = x :: mods' := List.exists_cons_of_ne_nil fun h0 => by simp [h0] at hm
    obtain ⟨hc, hm⟩ := List.cons.inj hm
    have hx : modrefs.read c.2 = some x.2 := hc ▸ hread x List.mem_cons_self
    rw [Links.first, searchFrom, if_neg (Store.ne_zero_of_read hs.1), hs.1, Option.bind_eq_bind, Option.bind_some]
    show (modrefs.read c.2).bind _ = _
    rw [hx, Option.bind_some]
    by_cases hp : p x.2 = true
    · rw [List.find?_cons_of_pos (p := fun x : Nat × Modref => p x.2) hp, if_pos hp]
      exact congrArg (fun w => some (some (w, x.2))) hc
    · rw [List.find?_cons_of_neg (p := fun x : Nat × Modref => p x.2) hp, if_neg hp]
      exact ih hs.2 hm (fun y hy => hread y (List.mem_cons_of_mem _ hy)) (Nat.lt_of_succ_lt_succ hr)

theorem Tracks.search (h : s.Tracks g) (hg : g.Ok) (p : Modref → Bool) : s.search p = some (g.search p) := by
  obtain ⟨cells, hc, hm⟩ := h.cells
  unfold Modules.search
  rw [hc.newest]
  exact searchFrom_eq hc.seg hm (fun x hx => (h.modref x.1).trans (modref_of_mem hg.nodup hx)) hc.length_lt

theorem Tracks.newest (h : s.Tracks g) : s.localWm.newest = 0 ↔ g.mods = [] := by
  obtain ⟨cells, hc, hm⟩ := h.cells
  rw [hc.newest_eq_zero, ← List.map_eq_nil_iff (f := Prod.snd), hm, List.map_eq_nil_iff]

theorem Tracks.collect (h : s.Tracks g) : s.collect.Tracks g.collect := by
  unfold Modules.collect LoadedModules.collect
  by_cases hz : g.mods = []
  · rw [if_pos hz, if_pos (h.newest.mpr hz)]
    exact ⟨h.cells, h.nodes, h.modref, h.top, h.defPath, h.acounter, h.stack, congrArg Nat.succ h.collections⟩
  · rw [if_neg hz, if_neg fun h0 => hz (h.newest.mp h0)]
    exact h

theorem Tracks.push (h : s.Tracks g) (frame : ModuleFrame)
    (hf : ∀ list wm, frame = .release list wm → s.localWm.value list = some wm) :
    (s.push frame).Tracks (g.push frame.forget) where
  cells := h.cells
  nodes list wm hl hw := by
    rcases List.mem_cons.mp hl with he | hl
    · exact hf list wm he.symm
    · exact h.nodes list wm hl hw
  modref := h.modref
  top := h.top
  defPath := h.defPath
  acounter := h.acounter
  stack := congrArg _ h.stack
  collections := h.collections

theorem Tracks.pop (h : s.Tracks g) (hs : s.stack = frame :: stack) :
    Tracks { s with stack } { g with stack := stack.map ModuleFrame.forget } where
  cells := h.cells
  nodes list wm hl hw := h.nodes list wm (hs ▸ List.mem_cons_of_mem _ hl) hw
  modref := h.modref
  top := h.top
  defPath := h.defPath
  acounter := h.acounter
  stack := rfl
  collections := h.collections

theorem Tracks.setAttached (h : s.Tracks g) (wm : Nat) (attached : Bool) :
    Option.Rel Tracks (s.setAttached wm attached) (g.setAttached wm attached) := by
  unfold Modules.setAttached LoadedModules.setAttached
  cases hw : g.modref wm with
  | none =>
    have hmod : s.modrefs.modify wm (fun m => { m with attached }) = none := by
      cases hs : s.modrefs.modify wm fun m => { m with attached } with
      | none => rfl
      | some modrefs =>
        obtain ⟨x, hx, -⟩ := Store.modify_eq_some.mp hs
        cases hw.symm.trans ((h.modref wm).symm.trans hx)
    rw [hmod]
    exact .none
  | some m =>
    obtain ⟨modrefs, hs, hr⟩ := Store.exists_modify_map ((h.modref wm).trans hw) fun m => { m with attached }
    obtain ⟨-, -, ht, -⟩ := Store.modify_eq_some.mp hs
    rw [hs]
    refine .some ⟨?_, fun list w hl hw' => h.nodes list w hl ?_, fun w => ?_, ht.trans h.top, h.defPath, h.acounter,
      h.stack, h.collections⟩
    · obtain ⟨cells, hc, hm⟩ := h.cells
      exact ⟨cells, hc, hm.trans (Chain.map_setIn g.mods wm fun m => { m with attached }).symm⟩
    · rw [modref_setIn] at hw'
      split at hw'
      · simpa using hw'
      · exact hw'
    · rw [modref_setIn, hr, h.modref]

/-- Related results. -/
abbrev Same (x : Option (Answer × Modules)) (y : Option (Answer × LoadedModules)) : Prop :=
  Option.Rel (fun p q => p.1 = q.1 ∧ p.2.Tracks q.2) x y

/-- A module unloaded and taken out of the list. -/
theorem Tracks.unload (h : s.Tracks g) (hg : (g.mods.map Prod.fst).Nodup) (wm : Nat) :
    (s.unloadLibrary wm = none ∧ g.remove wm = none) ∨
    ((g.modref wm).isSome ∧ ∃ s₁ s₂ g', s.unloadLibrary wm = some s₁ ∧ s₁.localWm = s.localWm ∧
      s₁.remove wm = some s₂ ∧ g.remove wm = some g' ∧ s₂.Tracks g') := by
  unfold Modules.unloadLibrary LoadedModules.remove
  cases hw : g.modref wm with
  | none =>
    refine .inl ⟨?_, rfl⟩
    cases hf : s.modrefs.free wm with
    | none => rfl
    | some modrefs =>
      obtain ⟨⟨x, hx⟩, -⟩ := Store.free_eq_some.mp hf
      cases hw.symm.trans ((h.modref wm).symm.trans hx)
  | some m =>
    have hread := (h.modref wm).trans hw
    obtain ⟨modrefs, hf, ht, hr⟩ := Store.exists_free hread
    obtain ⟨cells, hc, hm⟩ := h.cells
    obtain ⟨⟨a, w⟩, hcell, hw'⟩ : ∃ c ∈ cells, c.2 = wm :=
      List.mem_map.mp (hm ▸ List.mem_map_of_mem (mem_of_modref hw))
    obtain rfl : w = wm := hw'
    obtain ⟨l₁, l₂, rfl⟩ := List.append_of_mem hcell
    obtain ⟨list', hrem, hl, hv⟩ := removeFromList_holds hc (hm ▸ hg) (Store.ne_zero_of_read hread)
    rw [hf]
    refine .inr ⟨rfl, _, { s with modrefs, localWm := list' }, _, rfl, rfl, ?_, rfl, ?_⟩
    · show (removeFromList s.localWm w).map _ = _
      rw [hrem]
      rfl
    have hmod : ∀ v, ({ g with mods := g.mods.eraseP fun x => x.1 = w } : LoadedModules).modref v =
        if v = w then none else g.modref v := by
      intro v
      unfold LoadedModules.modref
      rw [Keyed.lookup_eraseP hg]
      split <;> rfl
    refine ⟨⟨_, hl, ?_⟩, fun list v hin hv' => ?_, fun v => ?_, ht.trans h.top, h.defPath, h.acounter, h.stack,
      h.collections⟩
    · have hnot : ∀ x ∈ l₁.map Prod.snd, x ≠ w := by
        rw [← hm, List.map_append, List.map_cons, List.nodup_append] at hg
        exact fun x hx => hg.2.2 x hx w List.mem_cons_self
      have herase : ((g.mods.map Prod.fst).eraseP fun x => x = w) = (g.mods.eraseP fun x => x.1 = w).map Prod.fst :=
        List.eraseP_map ..
      rw [← herase, ← hm, List.map_append, List.map_append, List.map_cons, Keyed.eraseP_append_cons hnot rfl]
    · rw [hmod] at hv'
      split at hv'
      · cases hv'
      · rename_i hne
        have hold := h.nodes list v hin hv'
        rw [hv, if_neg, hold]
        rintro rfl
        rw [hc.value] at hold
        exact hne (Option.some.inj hold).symm
    · rw [hmod, hr, h.modref]

theorem Tracks.finishFailed (h : s.Tracks g) (hg : (g.mods.map Prod.fst).Nodup) (wm : Nat) :
    Same (Modules.finishFailed wm s) (LoadedModules.finishFailed wm g) := by
  unfold Modules.finishFailed LoadedModules.finishFailed
  rcases h.unload hg wm with ⟨hu, hr⟩ | ⟨-, s₁, s₂, g', hu, -, hr₁, hr, h'⟩
  · rw [hu, hr]
    exact .none
  · rw [hu, hr, Option.bind_eq_bind, Option.bind_some, hr₁]
    exact .some ⟨rfl, h'⟩

theorem Tracks.finishFree (h : s.Tracks g) (hg : (g.mods.map Prod.fst).Nodup) (wm : Nat) :
    Same (Modules.finishFree wm s) (LoadedModules.finishFree wm g) := by
  unfold Modules.finishFree LoadedModules.finishFree
  rcases h.unload hg wm with ⟨hu, hr⟩ | ⟨-, s₁, s₂, g', hu, -, hr₁, hr, h'⟩
  · rw [hu, hr]
    exact .none
  · rw [hu, hr, Option.bind_eq_bind, Option.bind_some, hr₁]
    exact .some ⟨rfl, h'.collect⟩

/-- The node that is read again is that of the module. -/
theorem Tracks.finishRelease {list : Nat} (h : s.Tracks g) (hg : (g.mods.map Prod.fst).Nodup)
    (hv : (g.modref wm).isSome → s.localWm.value list = some wm) :
    Same (Modules.finishRelease list wm s) (LoadedModules.finishRelease wm g) := by
  unfold Modules.finishRelease LoadedModules.finishRelease
  rcases h.unload hg wm with ⟨hu, hr⟩ | ⟨hw, s₁, s₂, g', hu, hl, hr₁, hr, h'⟩
  · rw [hu, hr]
    exact .none
  · obtain ⟨c, hc, rfl⟩ := Option.map_eq_some_iff.mp (hv hw)
    rw [hu, hr, Option.bind_eq_bind, Option.bind_some, hl, hc, Option.bind_eq_bind, Option.bind_some, hr₁]
    exact .some ⟨rfl, h'.collect⟩

theorem Tracks.freeStart {fin : Modules → Option (Answer × Modules)}
    {fin' : LoadedModules → Option (Answer × LoadedModules)} (h : s.Tracks g) (wm : Nat) (frame : ModuleFrame)
    (hf : ∀ list v, frame = .release list v → s.localWm.value list = some v)
    (hfin : ∀ s' g', s'.Tracks g' → s'.localWm = s.localWm → g'.mods.map Prod.fst = g.mods.map Prod.fst →
      Same (fin s') (fin' g')) : Same (s.freeStart wm frame fin) (g.freeStart wm frame.forget fin') := by
  have hrel := rel_imp (h.setAttached wm false) (q := fun s' g' => s'.Tracks g' ∧ s'.localWm = s.localWm ∧
      g'.mods.map Prod.fst = g.mods.map Prod.fst) fun s' g' hs hg' h' => by
    obtain ⟨modrefs, -, rfl⟩ := Option.map_eq_some_iff.mp hs
    obtain ⟨-, rfl⟩ := setAttached_eq_some.mp hg'
    exact ⟨h', rfl, Chain.map_setIn g.mods wm fun m => { m with attached := false }⟩
  refine rel_bind hrel fun s₁ g₁ ⟨h₁, hl, hm⟩ => ?_
  rw [h₁.modref wm]
  cases g₁.modref wm with
  | none => exact .none
  | some m =>
    rw [Option.bind_eq_bind, Option.bind_some, Option.bind_eq_bind, Option.bind_some]
    split
    · exact .some ⟨rfl, h₁.push frame fun list v he => hl ▸ hf list v he⟩
    · exact hfin s₁ g₁ h₁ hl hm

theorem Tracks.attachEnd (h : s.Tracks g) (hg : (g.mods.map Prod.fst).Nodup) (wm : Nat) (libname : CString)
    (exported : CString → BitVec 32) (retv : Bool) :
    Same (s.attachEnd wm libname exported retv) (g.attachEnd wm libname exported retv) := by
  unfold Modules.attachEnd LoadedModules.attachEnd
  split
  · refine rel_bind (h.setAttached wm true) fun s₁ g₁ h₁ => ?_
    rw [h₁.modref wm]
    cases g₁.modref wm with
    | none => exact .none
    | some m => exact .some ⟨rfl, h₁⟩
  · exact h.freeStart wm (.failed wm) (fun _ _ he => nomatch he) fun s' g' h' _ hm => h'.finishFailed (hm ▸ hg) wm

theorem lookup_isSome (g : LoadedModules) (m : BitVec 32) :
    (Loader.lookupHMODULE g.wineModrefs m).isSome = (g.search fun wm => wm.wm.module = m).isSome := by
  unfold Loader.lookupHMODULE LoadedModules.wineModrefs LoadedModules.search
  rw [List.find?_map, Option.isSome_map]
  rfl

theorem Tracks.attach (h : s.Tracks g) (hg : g.Ok) (path libname : CString) (file : PeFile) :
    Same (s.attach path libname file) (g.attach path libname file) := by
  unfold Modules.attach LoadedModules.attach
  rw [show s.lookupHMODULE file.module = _ from h.search hg _, lookup_isSome, Option.bind_eq_bind, Option.bind_some]
  by_cases hold : file.module = 0 ∨ (g.search fun wm => wm.wm.module = file.module).isSome
  · rw [if_pos hold, if_pos hold]
    exact .none
  rw [if_neg hold, if_neg hold]
  obtain ⟨cells, hc, hm⟩ := h.cells
  obtain ⟨localWm, hp, hl⟩ := hc.push s.modrefs.top
  have hnew : g.top ∉ g.mods.map Prod.fst := fun hmem => by
    obtain ⟨x, hx, he⟩ := List.mem_map.mp hmem
    exact Nat.lt_irrefl _ (he ▸ hg.lt_top x hx)
  -- the module is in the list before its `DllMain` is called
  have h₁ : Tracks { s with modrefs := (s.modrefs.alloc (createModule path file)).2, localWm }
      (g.add (createModule path file)) := by
    refine ⟨⟨_, hl, ?_⟩, fun list w hin hw => ?_, fun w => ?_, ?_, h.defPath, h.acounter, h.stack, h.collections⟩
    · show s.modrefs.top :: cells.map Prod.snd = g.top :: g.mods.map Prod.fst
      rw [hm, h.top]
    · have hlt : w < g.top :=
        LoadedModules.Stacked.lt hg.stacked (h.stack ▸ List.mem_map_of_mem (f := ModuleFrame.forget) hin) rfl
      rw [LoadedModules.modref_add, if_neg (Nat.ne_of_gt hlt)] at hw
      have hv := h.nodes list w hin hw
      obtain ⟨c, hc, -⟩ := Option.map_eq_some_iff.mp hv
      show localWm.value list = _
      rw [Chain.push_value hp, if_neg (Store.ne_top_of_read hc), hv]
    · rw [LoadedModules.modref_add, Store.read_alloc, h.top, h.modref]
      simp only [eq_comm]
    · exact congrArg Nat.succ h.top
  show Same ((s.localWm.push s.modrefs.top).bind _) _
  rw [hp, Option.bind_some]
  dsimp only
  split
  · have hframe : ModuleFrame.attach g.top libname file.exported =
        (ModuleFrame.attach s.modrefs.top libname file.exported).forget := by rw [h.top]; rfl
    rw [hframe]
    exact .some ⟨rfl, h₁.push _ (by rintro _ _ ⟨⟩)⟩
  · have hend := h₁.attachEnd (List.nodup_cons.mpr ⟨hnew, hg.nodup⟩) s.modrefs.top libname file.exported true
    have hadd := LoadedModules.attachEnd_add hnew (createModule path file) libname file.exported
    rw [← h.top] at hadd
    rw [hadd] at hend
    exact hend

theorem Tracks.loadLibrary (h : s.Tracks g) (hg : g.Ok) (libname : CString) (disk : CString → Option PeFile) :
    Same (s.loadLibrary libname disk) (g.loadLibrary libname disk) := by
  unfold Modules.loadLibrary LoadedModules.loadLibrary
  have hfind : Loader.findModule g.wineModrefs libname =
      (g.search fun wm => libname.chars <:+: wm.wm.filename.chars).map fun x => x.2.wm :=
    List.find?_map ..
  rw [show s.findModule libname = _ from h.search hg _, hfind, Option.bind_eq_bind, Option.bind_some]
  cases g.search fun wm => libname.chars <:+: wm.wm.filename.chars with
  | some x => exact .some ⟨rfl, h⟩
  | none =>
    dsimp only [Option.map_none]
    rw [h.defPath]
    cases searchPath disk (listPath g.defPath libname) with
    | none => exact .none
    | some found =>
      cases found with
      | none => exact .some ⟨rfl, h⟩
      | some x => exact h.attach hg x.1 libname x.2

theorem Tracks.freeLibrary (h : s.Tracks g) (hg : g.Ok) (hLibModule : BitVec 32) :
    Same (s.freeLibrary hLibModule) (g.freeLibrary hLibModule) := by
  unfold Modules.freeLibrary LoadedModules.freeLibrary
  rw [show s.lookupHMODULE hLibModule = _ from h.search hg _, Option.bind_eq_bind, Option.bind_some]
  cases g.search fun wm => wm.wm.module = hLibModule with
  | none => exact .some ⟨rfl, h⟩
  | some x =>
    dsimp only
    split
    · exact .some ⟨rfl, h⟩
    · exact h.freeStart x.1 (.free x.1) (fun _ _ he => nomatch he) fun s' g' h' _ hm =>
        h'.finishFree (hm ▸ hg.nodup) x.1

theorem Tracks.codecRelease (h : s.Tracks g) : Same (some s.codecRelease) (some g.codecRelease) := by
  have h' : Tracks { s with acounter := s.acounter - 1 } { g with acounter := g.acounter - 1 } :=
    ⟨h.cells, h.nodes, h.modref, h.top, h.defPath, congrArg (· - 1) h.acounter, h.stack, h.collections⟩
  unfold Modules.codecRelease LoadedModules.codecRelease
  dsimp only
  rw [h.acounter]
  split
  · exact .some ⟨rfl, h.acounter ▸ h'.push .releasing fun _ _ he => nomatch he⟩
  · exact .some ⟨rfl, h.acounter ▸ h'⟩

theorem Tracks.turn (h : s.Tracks g) (hg : g.Ok) : Same s.turn g.turn := by
  unfold Modules.turn LoadedModules.turn
  rw [← h.stack]
  cases hs : s.stack with
  | nil => exact .none
  | cons f stack =>
    cases f with
    | releasing =>
      obtain ⟨cells, hc, hm⟩ := h.cells
      dsimp only
      cases hmods : g.mods with
      | nil =>
        dsimp only
        rw [if_pos (h.newest.mpr hmods)]
        have h' := h.pop hs
        rw [hmods] at h'
        exact .some ⟨rfl, h'⟩
      | cons x mods =>
        dsimp only
        rw [if_neg fun h0 => by simpa [hmods] using h.newest.mp h0]
        obtain ⟨c, cells, rfl⟩ : ∃ c cells', cells = c :: cells' :=
          List.exists_cons_of_ne_nil fun h0 => by simp [h0, hmods] at hm
        rw [hmods] at hm
        obtain ⟨hx, -⟩ := List.cons.inj hm
        have hread : s.localWm.nodes.read s.localWm.newest = some ⟨c.2, Links.first 0 cells, 0⟩ := by
          rw [hc.newest]
          exact hc.seg.1
        have hv : s.localWm.value s.localWm.newest = some c.2 := by
          rw [Chain.value, hread]
          rfl
        rw [hread, Option.bind_eq_bind, Option.bind_some]
        have hfin : ∀ s' g', s'.Tracks g' → s'.localWm = s.localWm → g'.mods.map Prod.fst = g.mods.map Prod.fst →
            Same (Modules.finishRelease s.localWm.newest c.2 s') (LoadedModules.finishRelease c.2 g') :=
          fun s' g' h' hl hm' => h'.finishRelease (hm' ▸ hg.nodup) fun _ => hl ▸ hv
        rw [← hx]
        exact h.freeStart c.2 (.release s.localWm.newest c.2) (fun list v he => by cases he; exact hv) hfin
    | _ => exact .none

theorem Tracks.dllMain (h : s.Tracks g) (hg : g.Ok) (retv : Bool) : Same (s.dllMain retv) (g.dllMain retv) := by
  unfold Modules.dllMain LoadedModules.dllMain
  rw [← h.stack]
  cases hs : s.stack with
  | nil => exact .none
  | cons f stack =>
    cases f with
    | attach wm libname exported => exact (h.pop hs).attachEnd hg.nodup wm libname exported retv
    | failed wm => exact (h.pop hs).finishFailed hg.nodup wm
    | free wm => exact (h.pop hs).finishFree hg.nodup wm
    | release list wm =>
      exact (h.pop hs).finishRelease hg.nodup fun hw => h.nodes list wm (hs ▸ List.mem_cons_self) hw
    | releasing => exact .none

theorem Tracks.between (h : s.Tracks g) : s.between = g.between := by
  unfold Modules.between LoadedModules.between
  rw [← h.stack]
  cases s.stack with
  | nil => rfl
  | cons f stack => cases f <;> rfl

theorem Tracks.call (h : s.Tracks g) (hg : g.Ok) (e : ModuleCall) : Same (s.call e) (g.call e) := by
  unfold Modules.call LoadedModules.call
  rw [h.between]
  cases e with
  | turn => exact h.turn hg
  | dllMain retv => exact h.dllMain hg retv
  | setCodecPath path =>
    dsimp only
    split
    · exact .none
    · exact .some ⟨rfl, h.cells, h.nodes, h.modref, h.top, rfl, h.acounter, h.stack, h.collections⟩
  | loadLibrary libname disk =>
    dsimp only
    split
    · exact .none
    · exact h.loadLibrary hg libname disk
  | freeLibrary hLibModule =>
    dsimp only
    split
    · exact .none
    · exact h.freeLibrary hg hLibModule
  | codecAlloc =>
    dsimp only
    split
    · exact .none
    · exact .some ⟨rfl, h.cells, h.nodes, h.modref, h.top, h.defPath, congrArg (· + 1) h.acounter, h.stack,
        h.collections⟩
  | codecRelease =>
    dsimp only
    split
    · exact .none
    · exact h.codecRelease

end Modules

end DShow.Loader
