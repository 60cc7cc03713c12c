import DShowServer.Loader.LoadedModules

/-!
# What every run keeps of the modules

Modules have addresses and handles of their own, and what waits under an attach was there before the module
(`Ok.moves`). One `FreeLibrary` takes a module out (`freeLibrary_outputs`), and a module that no waiting call is
about stays until then (`Keeps.moves`).
-/

namespace DShow.Loader

open Simulate (outputs)

namespace LoadedModules

variable {g g' : LoadedModules} {e : ModuleCall} {r : Answer} {wm top : Nat} {m : Modref}
  {stack base : List ModuleFrame}

theorem Stacked.mono {top top' : Nat} (h : Stacked top stack) (hle : top ≤ top') : Stacked top' stack := by
  induction stack generalizing top top' with
  | nil => trivial
  | cons f stack ih =>
    refine ⟨fun wm hw => Nat.lt_of_lt_of_le (h.1 wm hw) hle, ih h.2 ?_⟩
    cases f with
    | attach wm _ _ => exact Nat.le_refl wm
    | _ => exact hle

theorem Stacked.tail {f : ModuleFrame} (h : Stacked top (f :: stack)) : Stacked top stack := by
  refine h.2.mono ?_
  cases f with
  | attach wm _ _ => exact Nat.le_of_lt (h.1 wm rfl)
  | _ => exact Nat.le_refl top

theorem Stacked.push {f : ModuleFrame} (h : Stacked top stack) (ha : about f = some wm) (hlt : wm < top)
    (hf : ∀ l x, f ≠ .attach wm l x) : Stacked top (f :: stack) := by
  refine ⟨fun w hw => ?_, ?_⟩
  · cases ha.symm.trans hw
    exact hlt
  · cases f with
    | attach w l x =>
      cases ha
      exact absurd rfl (hf l x)
    | _ => exact h

/-- The modules that a frame on top, and those under it, are about. -/
theorem Stacked.lt {f : ModuleFrame} (h : Stacked top stack) (hf : f ∈ stack) (ha : about f = some wm) : wm < top := by
  induction stack generalizing top with
  | nil => cases hf
  | cons f' stack ih =>
    rcases List.mem_cons.mp hf with rfl | hf
    · exact h.1 wm ha
    · exact ih h.tail hf

theorem Base.stacked (h : g.Base e wm base) (hs : Stacked top g.stack) : Stacked top base := by
  rcases h with ⟨-, -, -, rfl⟩ | ⟨-, -, rfl⟩ | ⟨f, hf, -⟩
  · exact hs
  · exact hs
  · rw [hf] at hs
    exact hs.tail

theorem handles_setIn (l : List (Nat × Modref)) (a : Nat) (b : Bool) :
    ((Chain.setIn l a fun m => { m with attached := b }).map fun x => x.2.wm.module) =
      l.map fun x => x.2.wm.module := by
  unfold Chain.setIn
  rw [List.map_map]
  refine List.map_congr_left fun x _ => ?_
  rw [Function.comp_apply]
  split <;> rfl

/-- No module is new, and those that are left are where they were. -/
theorem Ok.fewer (hg : g.Ok) (hx : ∀ x ∈ g'.mods, ∃ y ∈ g.mods, x.1 = y.1 ∧ x.2.wm = y.2.wm)
    (hk : (g'.mods.map Prod.fst).Sublist (g.mods.map Prod.fst))
    (hh : (g'.mods.map fun x => x.2.wm.module).Sublist (g.mods.map fun x => x.2.wm.module)) (ht : g'.top = g.top)
    (hs : Stacked g.top g'.stack) : g'.Ok where
  nodup := hg.nodup.sublist hk
  lt_top x h := by
    obtain ⟨y, hy, he, -⟩ := hx x h
    rw [he, ht]
    exact hg.lt_top y hy
  handles := hg.handles.sublist hh
  ne_zero x h := by
    obtain ⟨y, hy, -, he⟩ := hx x h
    rw [he]
    exact hg.ne_zero y hy
  stacked := ht ▸ hs

theorem Ok.moves (hg : g.Ok) (h : g.Moves e g') : g'.Ok := by
  cases h with
  | same hm ht hs => exact ⟨hm ▸ hg.nodup, hm ▸ ht ▸ hg.lt_top, hm ▸ hg.handles, hm ▸ hg.ne_zero, ht ▸ hs ▸ hg.stacked⟩
  | enter _ hm ht hs =>
    refine ⟨hm ▸ hg.nodup, hm ▸ ht ▸ hg.lt_top, hm ▸ hg.handles, hm ▸ hg.ne_zero, ?_⟩
    rw [hs, ht]
    exact ⟨(fun _ h => nomatch h), hg.stacked⟩
  | leave hm ht hs =>
    refine ⟨hm ▸ hg.nodup, hm ▸ ht ▸ hg.lt_top, hm ▸ hg.handles, hm ▸ hg.ne_zero, ?_⟩
    have := hg.stacked
    rw [hs] at this
    exact ht ▸ this.tail
  | add m hm hz hn ht hs =>
    refine ⟨?_, ?_, hm ▸ List.nodup_cons.mpr ⟨hn, hg.handles⟩, ?_, ?_⟩
    · rw [hm, List.map_cons, List.nodup_cons]
      refine ⟨fun hmem => ?_, hg.nodup⟩
      obtain ⟨x, hx, he⟩ := List.mem_map.mp hmem
      exact absurd (hg.lt_top x hx) (by rw [he]; exact Nat.lt_irrefl _)
    · rw [hm, ht]
      rintro x hx
      rcases List.mem_cons.mp hx with rfl | hx
      · exact Nat.lt_succ_self _
      · exact Nat.lt_succ_of_lt (hg.lt_top x hx)
    · rw [hm]
      rintro x hx
      rcases List.mem_cons.mp hx with rfl | hx
      · exact hz
      · exact hg.ne_zero x hx
    · rw [ht]
      rcases hs with hs | ⟨l, x, hs⟩
      · exact hs ▸ hg.stacked.mono (Nat.le_succ _)
      · rw [hs]
        exact ⟨fun w hw => Option.some.inj hw ▸ Nat.lt_succ_self _, hg.stacked⟩
  | change wm b base hb hmem hm ht hs =>
    refine hg.fewer (fun x hx => exists_of_mem_setIn (hm ▸ hx)) ?_ ?_ ht ?_
    · rw [hm, Chain.map_setIn]
    · rw [hm, handles_setIn]
    · rcases hs with hs | ⟨f, ha, hf, hs⟩
      · exact hs ▸ hb.stacked hg.stacked
      · obtain ⟨x, hx, rfl⟩ := List.mem_map.mp hmem
        exact hs ▸ (hb.stacked hg.stacked).push ha (hg.lt_top x hx) hf
  | remove wm base hb l hl hm ht hs =>
    have hsub : g'.mods.Sublist l := hm ▸ List.eraseP_sublist
    refine hg.fewer (fun x hx => ?_) ((hsub.map _).trans ?_) ((hsub.map _).trans ?_) ht (hs ▸ hb.stacked hg.stacked)
    · rcases hl with rfl | rfl
      · exact ⟨x, hsub.subset hx, rfl, rfl⟩
      · exact exists_of_mem_setIn (hsub.subset hx)
    · rcases hl with rfl | rfl
      · exact List.Sublist.refl _
      · rw [Chain.map_setIn]
    · rcases hl with rfl | rfl
      · exact List.Sublist.refl _
      · rw [handles_setIn]

/-- After one `FreeLibrary` a module is gone. -/
theorem freeLibrary_outputs (hg : g.Ok) (hw : g.modref wm = some m) (hb : g.between = false) (retv : Bool) :
    ∃ rs g', outputs call g (.freeLibrary m.wm.module :: if m.entry then [.dllMain retv] else []) = some (rs, g') ∧
      g'.modref wm = none ∧ (g'.search fun wm => wm.wm.module = m.wm.module) = none ∧ g'.stack = g.stack := by
  have hmem := mem_of_modref hw
  have hlookup : Keyed.lookup (fun x : Nat × Modref => x.2.wm.module) g.mods m.wm.module = some (wm, m) :=
    Keyed.lookup_of_mem hg.handles hmem
  have hsearch : (g.search fun wm => wm.wm.module = m.wm.module) = some (wm, m) := hlookup
  obtain ⟨g₁, hg₁⟩ : ∃ g₁ : LoadedModules,
      g₁ = { g with mods := Chain.setIn g.mods wm fun m => { m with attached := false } } := ⟨_, rfl⟩
  have hset : g.setAttached wm false = some g₁ := setAttached_eq_some.mpr ⟨⟨m, hw⟩, hg₁⟩
  have hw₁ : g₁.modref wm = some { m with attached := false } := by
    rw [hg₁, modref_setIn, if_pos rfl, hw]
    rfl
  have hkeys : (g₁.mods.map Prod.fst).Nodup := by
    rw [hg₁, Chain.map_setIn]
    exact hg.nodup
  obtain ⟨g₂, hg₂⟩ : ∃ g₂ : LoadedModules, g₂ = { g₁ with mods := g₁.mods.eraseP fun x => x.1 = wm } := ⟨_, rfl⟩
  have hfin : finishFree wm g₁ = some (.freed true, g₂.collect) := by
    rw [finishFree, remove_eq_some.mpr ⟨⟨_, hw₁⟩, hg₂⟩]
    rfl
  have hcall : g.call (.freeLibrary m.wm.module) =
      if m.entry then some (.running, g₁.push (.free wm)) else some (.freed true, g₂.collect) := by
    show (if g.between then none else g.freeLibrary m.wm.module) = _
    rw [hb, if_neg Bool.false_ne_true, freeLibrary, hsearch]
    dsimp only
    rw [if_neg (hg.ne_zero _ hmem), freeStart, hset, Option.bind_eq_bind, Option.bind_some, hw₁, Option.bind_eq_bind,
      Option.bind_some, hfin]
  have hnone : g₂.collect.modref wm = none := by
    unfold LoadedModules.modref
    rw [collect_mods, hg₂, Keyed.lookup_eraseP hkeys, if_pos rfl]
    rfl
  have hgone : (g₂.collect.search fun wm => wm.wm.module = m.wm.module) = none := by
    refine List.find?_eq_none.mpr fun x hx hmod => ?_
    rw [collect_mods, hg₂] at hx
    -- it would be the same module, which has that handle alone
    have hne : x.1 ≠ wm := by
      rintro rfl
      have hkeys₂ := hkeys.sublist ((List.eraseP_sublist (p := fun y => decide (y.1 = x.1))).map _)
      have hx' := Keyed.lookup_of_mem hkeys₂ hx
      rw [Keyed.lookup_eraseP hkeys, if_pos rfl] at hx'
      cases hx'
    obtain ⟨y, hy, hkey, hwm⟩ := exists_of_mem_setIn (hg₁ ▸ List.mem_of_mem_eraseP hx)
    have hmod' : y.2.wm.module = m.wm.module := hwm ▸ of_decide_eq_true hmod
    have hym : y = (wm, m) := List.inj_on_of_nodup_map hg.handles hy hmem hmod'
    exact hne (hkey.trans (congrArg Prod.fst hym))
  have hstack : g₂.collect.stack = g.stack := by rw [collect_stack, hg₂, hg₁]
  cases hentry : m.entry with
  | false =>
    rw [hentry, if_neg Bool.false_ne_true] at hcall
    exact ⟨_, _, Simulate.outputs_cons hcall rfl, hnone, hgone, hstack⟩
  | true =>
    rw [hentry, if_pos rfl] at hcall
    have hret : (g₁.push (.free wm)).call (.dllMain retv) = some (.freed true, g₂.collect) := hfin
    exact ⟨_, _, Simulate.outputs_cons hcall (Simulate.outputs_cons hret rfl), hnone, hgone, hstack⟩

/-- A module is loaded, no call that waits is about it, and none is `CodecRelease`. -/
structure Keeps (g : LoadedModules) (wm : Nat) (m : Modref) : Prop where
  modref : g.modref wm = some m
  stack : ∀ f ∈ g.stack, about f ≠ some wm ∧ f ≠ .releasing

theorem Keeps.between (h : g.Keeps wm m) : g.between = false := by
  unfold LoadedModules.between
  cases hs : g.stack with
  | nil => rfl
  | cons f stack =>
    cases f with
    | releasing => exact absurd rfl (h.stack .releasing (hs ▸ List.mem_cons_self)).2
    | _ => rfl

/-- It stays so as long as it is not freed and the last codec is not released. -/
theorem Keeps.moves (h : g.Keeps wm m) (hg : g.Ok) (he : e ≠ .freeLibrary m.wm.module)
    (hc : e = .codecRelease → g.acounter ≠ 1) (hmv : g.Moves e g') : g'.Keeps wm m := by
  -- a step that is about a module is about another one
  have hbase : ∀ {w : Nat} {base : List ModuleFrame}, g.Base e w base → w ≠ wm ∧ ∀ f ∈ base, f ∈ g.stack := by
    rintro w base (⟨m', hm', rfl, rfl⟩ | ⟨-, ⟨stack, hs⟩, -⟩ | ⟨f, hs, ha⟩)
    · refine ⟨?_, fun _ hf => hf⟩
      rintro rfl
      cases h.modref.symm.trans hm'
      exact he rfl
    · exact absurd rfl (h.stack .releasing (hs ▸ List.mem_cons_self)).2
    · refine ⟨?_, fun f' hf' => hs ▸ List.mem_cons_of_mem _ hf'⟩
      rintro rfl
      exact (h.stack f (hs ▸ List.mem_cons_self)).1 ha
  cases hmv with
  | same hm ht hs => exact ⟨by unfold LoadedModules.modref; rw [hm]; exact h.modref, hs ▸ h.stack⟩
  | enter hl => exact absurd hl.2 (hc hl.1)
  | leave _ _ hs => exact absurd rfl (h.stack .releasing (hs ▸ List.mem_cons_self)).2
  | add m' hm _ _ _ hs =>
    have hne : g.top ≠ wm := fun h0 => Nat.lt_irrefl _ (h0 ▸ hg.lt_top _ (mem_of_modref h.modref))
    refine ⟨?_, ?_⟩
    · unfold LoadedModules.modref
      rw [hm, Keyed.lookup_cons, if_neg hne]
      exact h.modref
    · rcases hs with hs | ⟨l, x, hs⟩
      · exact hs ▸ h.stack
      · rw [hs, List.forall_mem_cons]
        exact ⟨⟨fun h0 => hne (Option.some.inj h0), by rintro ⟨⟩⟩, h.stack⟩
  | change w b base hb _ hm _ hs =>
    obtain ⟨hne, hsub⟩ := hbase hb
    refine ⟨?_, ?_⟩
    · unfold LoadedModules.modref
      rw [hm, Chain.lookup_setIn_of_ne hne.symm]
      exact h.modref
    · have hst := fun f hf => h.stack f (hsub f hf)
      rcases hs with hs | ⟨f, ha, -, hs⟩
      · exact hs ▸ hst
      · rw [hs, List.forall_mem_cons]
        refine ⟨⟨fun h0 => hne (Option.some.inj (ha.symm.trans h0)), ?_⟩, hst⟩
        rintro rfl
        cases ha
  | remove w base hb l hl hm _ hs =>
    obtain ⟨hne, hsub⟩ := hbase hb
    refine ⟨?_, hs ▸ fun f hf => h.stack f (hsub f hf)⟩
    unfold LoadedModules.modref
    rw [hm, Keyed.lookup_eraseP_of_ne hne]
    rcases hl with rfl | rfl
    · exact h.modref
    · rw [Chain.lookup_setIn_of_ne hne.symm]
      exact h.modref

end LoadedModules

end DShow.Loader
