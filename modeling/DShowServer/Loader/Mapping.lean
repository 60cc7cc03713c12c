import DShowServer.Loader.Regions
import DShowServer.Registry.Model

/-!
# File mappings

`CreateFileMappingA` maps a file, or as many bytes of nothing, and puts the mapping at
the new end of a list; `OpenFileMappingA` searches the list from there to its old end.
`UnmapViewOfFile` starts at the new end too, but goes on along `next`, where there is
nothing: it finds the newest mapping or none. So the list is a stack (`MappingStack`),
which the calls restore if they are nested (`mapping_nested`).
-/

namespace DShow.Loader

open Registry (CString)
open Simulate

/-- `file_mapping`. -/
structure FileMapping where
  mappingSize : BitVec 32
  name : Option CString
  handle : BitVec 32

/-- The list `fm` and the pages that are mapped. -/
structure Mappings where
  fm : Chain FileMapping
  pages : Nat → Bool

namespace Mappings

/-- `CreateFileMappingA` of an open file, given by its length, or of none. -/
def createFileMappingA (s : Mappings) (k : Kernel) (hFile : Option (BitVec 32)) (dwMaxLow : BitVec 32)
    (name : Option CString) : Option (BitVec 32 × Mappings) :=
  let len := hFile.getD dwMaxLow
  match k.mmap s.pages 0 len with
  | none => some (0, s)
  | some answer => do
    let (_, fm) ← s.fm.push ⟨len, name, answer⟩
    pure (answer, ⟨fm, mapPages s.pages answer len⟩)

/-- `UnmapViewOfFile`, which returns 0 whatever it finds. -/
def unmapViewOfFile (s : Mappings) (handle : BitVec 32) : Option (BitVec 32 × Mappings) :=
  if s.fm.newest = 0 then some (0, s)
  else do
    let p ← s.fm.findNext fun r => r.handle = handle
    if p ≠ 0 then
      let r ← s.fm.value p
      let fm ← s.fm.unlink p
      pure (0, ⟨fm, munmap s.pages handle r.mappingSize⟩)
    else pure (0, s)

/-- `OpenFileMappingA`. -/
def openFileMappingA (s : Mappings) (name : Option CString) : Option (BitVec 32 × Mappings) :=
  if s.fm.newest = 0 then some (0, s)
  else match name with
    | none => some (0, s)
    | some name => do
      let p ← s.fm.find fun r => r.name = some name
      if p ≠ 0 then
        let r ← s.fm.value p
        pure (r.handle, s)
      else pure (0, s)

end Mappings

/-- A call, with what the kernel would answer then. -/
inductive MappingCall
  | create (k : Kernel) (hFile : Option (BitVec 32)) (dwMaxLow : BitVec 32) (name : Option CString)
  | unmap (handle : BitVec 32)
  | openNamed (name : Option CString)

def Mappings.call (s : Mappings) : MappingCall → Option (BitVec 32 × Mappings)
  | .create k hFile dwMaxLow name => s.createFileMappingA k hFile dwMaxLow name
  | .unmap handle => s.unmapViewOfFile handle
  | .openNamed name => s.openFileMappingA name

/-! ## The mappings as a stack -/

/-- The mappings, the newest first, and the pages that are mapped. -/
structure MappingStack where
  fm : List FileMapping
  pages : Nat → Bool

namespace MappingStack

def create (g : MappingStack) (k : Kernel) (hFile : Option (BitVec 32)) (dwMaxLow : BitVec 32)
    (name : Option CString) : BitVec 32 × MappingStack :=
  let len := hFile.getD dwMaxLow
  match k.mmap g.pages 0 len with
  | none => (0, g)
  | some answer => (answer, ⟨⟨len, name, answer⟩ :: g.fm, mapPages g.pages answer len⟩)

/-- The newest mapping taken off, if it is the one. -/
def unmap (g : MappingStack) (handle : BitVec 32) : BitVec 32 × MappingStack :=
  match g.fm with
  | [] => (0, g)
  | r :: fm => if r.handle = handle then (0, ⟨fm, munmap g.pages handle r.mappingSize⟩) else (0, g)

/-- The newest mapping of a name. -/
def openNamed (g : MappingStack) (name : Option CString) : BitVec 32 × MappingStack :=
  match name with
  | none => (0, g)
  | some name => (((g.fm.find? fun r => r.name = some name).map FileMapping.handle).getD 0, g)

def call (g : MappingStack) : MappingCall → BitVec 32 × MappingStack
  | .create k hFile dwMaxLow name => g.create k hFile dwMaxLow name
  | .unmap handle => g.unmap handle
  | .openNamed name => g.openNamed name

end MappingStack

variable {pages₀ : Nat → Bool} {s s' t : Mappings} {g : MappingStack} {k : Kernel}
  {hFile : Option (BitVec 32)} {dwMaxLow handle : BitVec 32} {name : Option CString}

/-- The list in memory is the stack. -/
structure Mappings.Tracks (s : Mappings) (g : MappingStack) : Prop where
  fm : s.fm.Represents g.fm
  pages : s.pages = g.pages

namespace Mappings

theorem Tracks.createFileMappingA (h : s.Tracks g) (k : Kernel) (hFile : Option (BitVec 32))
    (dwMaxLow : BitVec 32) (name : Option CString) :
    ∃ s', s.createFileMappingA k hFile dwMaxLow name = some ((g.create k hFile dwMaxLow name).1, s') ∧
      s'.Tracks (g.create k hFile dwMaxLow name).2 := by
  unfold Mappings.createFileMappingA MappingStack.create
  rw [h.pages]
  dsimp only
  cases k.mmap g.pages 0 (hFile.getD dwMaxLow) with
  | none => exact ⟨s, rfl, h⟩
  | some answer =>
    obtain ⟨t, fm, hp, hr⟩ := h.fm.push ⟨hFile.getD dwMaxLow, name, answer⟩
    dsimp only
    rw [hp]
    exact ⟨_, rfl, hr, rfl⟩

theorem newest_eq_zero_iff {fm : Chain FileMapping} {l : List FileMapping} (h : fm.Represents l) :
    fm.newest = 0 ↔ l = [] := by
  obtain ⟨cells, hc, rfl⟩ := h
  rw [hc.newest]
  cases cells with
  | nil => exact ⟨fun _ => rfl, fun _ => rfl⟩
  | cons x cells =>
    exact ⟨fun e => absurd e (Store.ne_zero_of_read hc.seg.1), fun e => by cases e⟩

theorem Tracks.unmapViewOfFile (h : s.Tracks g) (handle : BitVec 32) :
    ∃ s', s.unmapViewOfFile handle = some ((g.unmap handle).1, s') ∧ s'.Tracks (g.unmap handle).2 := by
  obtain ⟨l, pages⟩ := g
  unfold Mappings.unmapViewOfFile MappingStack.unmap
  have h0 := newest_eq_zero_iff h.fm
  obtain ⟨p, hp, hz, hv⟩ := h.fm.findNext fun r => r.handle = handle
  cases l with
  | nil =>
    rw [if_pos (h0.mpr rfl)]
    exact ⟨s, rfl, h⟩
  | cons r l =>
    rw [if_neg fun e => List.cons_ne_nil _ _ (h0.mp e), hp, Option.bind_eq_bind, Option.bind_some]
    dsimp only
    by_cases hr : r.handle = handle
    · have hne : p ≠ 0 := fun e => hz.mp e ⟨r, rfl, decide_eq_true hr⟩
      obtain ⟨fm, hu, hrep⟩ := h.fm.unlink (hv hne).1 hne
      rw [if_pos hr, if_pos hne, (hv hne).2, List.head?_cons, hu, h.pages]
      rw [List.eraseP_cons_of_pos (p := fun r : FileMapping => decide (r.handle = handle))
        (decide_eq_true hr)] at hrep
      exact ⟨_, rfl, hrep, rfl⟩
    · have he : p = 0 := hz.mpr fun ⟨v, hv, hh⟩ => by
        cases hv
        exact hr (of_decide_eq_true hh)
      rw [if_neg hr, if_neg (not_not_intro he)]
      exact ⟨s, rfl, h⟩

/-- A handle that is not the newest is not found. -/
theorem Tracks.unmapViewOfFile_other (h : s.Tracks g)
    (hne : g.fm.head?.map FileMapping.handle ≠ some handle) : s.unmapViewOfFile handle = some (0, s) := by
  unfold Mappings.unmapViewOfFile
  obtain ⟨p, hp, hz, -⟩ := h.fm.findNext fun r => r.handle = handle
  have h0 : p = 0 := hz.mpr fun ⟨v, hv, hh⟩ => hne (by rw [hv, Option.map_some, of_decide_eq_true hh])
  rw [hp, Option.bind_eq_bind, Option.bind_some, if_neg (not_not_intro h0)]
  exact ite_self _

theorem Tracks.openFileMappingA (h : s.Tracks g) (name : Option CString) :
    s.openFileMappingA name = some ((g.openNamed name).1, s) ∧ (g.openNamed name).2 = g := by
  unfold Mappings.openFileMappingA MappingStack.openNamed
  have h0 := newest_eq_zero_iff h.fm
  cases name with
  | none => exact ⟨ite_self _, rfl⟩
  | some name =>
    refine ⟨?_, rfl⟩
    obtain ⟨p, hp, hv, hz⟩ := h.fm.find fun r => r.name = some name
    by_cases hn : s.fm.newest = 0
    · rw [if_pos hn, h0.mp hn]
      rfl
    · rw [if_neg hn]
      dsimp only
      rw [hp, Option.bind_eq_bind, Option.bind_some]
      cases hf : g.fm.find? fun r => r.name = some name with
      | none =>
        rw [if_neg (not_not_intro (hz.mpr hf))]
        rfl
      | some r =>
        have hne : p ≠ 0 := fun e => by rw [hz, hf] at e; cases e
        rw [if_pos hne, hv, hf]
        rfl

theorem Tracks.call (h : s.Tracks g) (c : MappingCall) :
    ∃ s', s.call c = some ((g.call c).1, s') ∧ s'.Tracks (g.call c).2 := by
  cases c with
  | create k hFile dwMaxLow name => exact h.createFileMappingA k hFile dwMaxLow name
  | unmap handle => exact h.unmapViewOfFile handle
  | openNamed name => exact ⟨s, (h.openFileMappingA name).1, (h.openFileMappingA name).2.symm ▸ h⟩

/-- No mapping yet. -/
def start (pages₀ : Nat → Bool) : Mappings := ⟨.empty, pages₀⟩

/-- Calls of which each mapping that is made is unmapped before an older one. -/
inductive Nested : Mappings → Mappings → Prop
  | done (s : Mappings) : Nested s s
  | looked {s s' t : Mappings} {name : Option CString} {handle : BitVec 32} :
      s.openFileMappingA name = some (handle, s') → Nested s' t → Nested s t
  | failed {s s' t : Mappings} {k : Kernel} {hFile : Option (BitVec 32)} {dwMaxLow : BitVec 32}
      {name : Option CString} :
      s.createFileMappingA k hFile dwMaxLow name = some (0, s') → Nested s' t → Nested s t
  | mapped {s s₁ s₂ s₃ t : Mappings} {k : Kernel} {hFile : Option (BitVec 32)} {dwMaxLow : BitVec 32}
      {name : Option CString} {handle result : BitVec 32} :
      s.createFileMappingA k hFile dwMaxLow name = some (handle, s₁) → handle ≠ 0 → Nested s₁ s₂ →
      s₂.unmapViewOfFile handle = some (result, s₃) → Nested s₃ t → Nested s t

/-- What a call that makes a mapping has done. -/
theorem create_cases (g : MappingStack) (k : Kernel) (hFile : Option (BitVec 32)) (dwMaxLow : BitVec 32)
    (name : Option CString) : g.create k hFile dwMaxLow name = (0, g) ∨
      ∃ answer, Fits g.pages answer (hFile.getD dwMaxLow) ∧ g.create k hFile dwMaxLow name =
        (answer, ⟨⟨hFile.getD dwMaxLow, name, answer⟩ :: g.fm, mapPages g.pages answer (hFile.getD dwMaxLow)⟩) := by
  unfold MappingStack.create
  dsimp only
  cases hk : k.mmap g.pages 0 (hFile.getD dwMaxLow) with
  | none => exact .inl rfl
  | some answer => exact .inr ⟨answer, k.fits hk, rfl⟩

theorem Nested.tracks (h : Nested s t) : ∀ {g}, s.Tracks g → t.Tracks g := by
  induction h with
  | done s => exact fun ht => ht
  | looked hl _ ih =>
    intro g ht
    cases (ht.openFileMappingA _).1.symm.trans hl
    exact ih ht
  | @failed _ _ _ k hFile dwMaxLow name hc _ ih =>
    intro g ht
    obtain ⟨s', hc', ht'⟩ := ht.createFileMappingA k hFile dwMaxLow name
    rw [hc', Option.some.injEq, Prod.mk.injEq] at hc
    obtain ⟨h0, rfl⟩ := hc
    rcases create_cases g k hFile dwMaxLow name with hg | ⟨answer, hf, hg⟩ <;> rw [hg] at h0 ht'
    · exact ih ht'
    · exact absurd h0 hf.base_pos
  | @mapped _ _ _ _ _ k hFile dwMaxLow name handle _ hc hne _ hu _ ih ih' =>
    intro g ht
    obtain ⟨s₁, hc', ht₁⟩ := ht.createFileMappingA k hFile dwMaxLow name
    rw [hc', Option.some.injEq, Prod.mk.injEq] at hc
    obtain ⟨h0, rfl⟩ := hc
    rcases create_cases g k hFile dwMaxLow name with hg | ⟨answer, hf, hg⟩ <;> rw [hg] at h0 ht₁
    · exact absurd h0.symm hne
    · obtain rfl : answer = handle := h0
      -- the newest mapping is again the one that was made first
      obtain ⟨s₃, hu', ht₃⟩ := (ih ht₁).unmapViewOfFile answer
      cases hu'.symm.trans hu
      rw [MappingStack.unmap] at ht₃
      dsimp only at ht₃
      rw [if_pos rfl, Fits.munmap_mapPages (r := ⟨hFile.getD dwMaxLow, answer, 0⟩) hf] at ht₃
      exact ih' ht₃

end Mappings

/-- In every state that a run of calls reaches, the mappings are a stack: a handle that is not
the newest stays mapped when it is given to `UnmapViewOfFile`, and calls that are nested leave
the mappings and the pages as they were. -/
theorem mapping_nested (pages₀ : Nat → Bool) (cs : List MappingCall) :
    ∃ rs s g, outputs Mappings.call (.start pages₀) cs = some (rs, s) ∧
      outputs (fun g c => some (MappingStack.call g c)) ⟨[], pages₀⟩ cs = some (rs, g) ∧ s.Tracks g ∧
      (∀ handle, g.fm.head?.map FileMapping.handle ≠ some handle →
        s.unmapViewOfFile handle = some (0, s)) ∧
      ∀ t, s.Nested t → t.Tracks g := by
  obtain ⟨rs, s, g, hs, hg, -, -, ht⟩ := outputs_agree
    (f := Mappings.call) (g := fun g c => some (MappingStack.call g c)) (R := Mappings.Tracks)
    (P := fun _ => True) (Q := fun _ => True)
    (fun s g c ht _ => by
      obtain ⟨s', hc, ht'⟩ := ht.call c
      exact ⟨_, _, _, hc, rfl, trivial, ht'⟩)
    (⟨.nil, rfl⟩ : (Mappings.start pages₀).Tracks ⟨[], pages₀⟩) fun _ _ => trivial
  exact ⟨rs, s, g, hs, hg, ht, fun handle hne => ht.unmapViewOfFile_other hne, fun t hn => hn.tracks ht⟩

end DShow.Loader
