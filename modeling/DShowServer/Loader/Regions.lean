import DShowServer.Loader.Virtual

/-!
# The regions of a process

In every state that a run of `VirtualAlloc` and `VirtualFree` reaches, the regions
are made of whole pages, lie apart from one another, and are all that the calls have
mapped: no page of anything else is unmapped, and none is left behind (`virtual_track`).
A region covers what was asked for unless the request runs into the last page of
the address space (`virtualAlloc_covers`), and it is given back once (`virtualFree_once`).
-/

namespace DShow.Loader

open Simulate

/-! ## Regions -/

/-- The address behind a region. -/
def VirtAlloc.finish (r : VirtAlloc) : Nat := r.address.toNat + r.mappingSize.toNat

/-- A page of a region. -/
def VirtAlloc.has (r : VirtAlloc) (page : Nat) : Bool := inRange r.address r.mappingSize page

structure VirtAlloc.WellFormed (r : VirtAlloc) : Prop where
  size_pos : 0 < r.mappingSize.toNat
  base_pos : 0 < r.address.toNat
  base_aligned : r.address.toNat % 4096 = 0
  size_aligned : r.mappingSize.toNat % 4096 = 0
  below : r.finish < 2 ^ 32

def VirtAlloc.Apart (r r' : VirtAlloc) : Prop := r.finish ≤ r'.address.toNat ∨ r'.finish ≤ r.address.toNat

variable {pages pages₀ : Nat → Bool} {g : Regions} {s s' : Space} {k : Kernel} {r r' : VirtAlloc}
  {address size type base : BitVec 32} {page : Nat}

theorem VirtAlloc.has_iff : r.has page = true ↔ r.address.toNat ≤ page * 4096 ∧ page * 4096 < r.finish := by
  rw [has, inRange, Bool.and_eq_true, decide_eq_true_iff, decide_eq_true_iff]
  rfl

theorem VirtAlloc.Apart.symm (h : r.Apart r') : r'.Apart r := Or.symm h

/-- Regions that are apart have no page in common, and regions with no page in common are apart. -/
theorem VirtAlloc.Apart.not_has (h : r.Apart r') (hp : r.has page = true) : r'.has page = false := by
  rw [← Bool.not_eq_true, has_iff]
  rw [has_iff] at hp
  rintro ⟨h₁, h₂⟩
  rcases h with h | h <;> omega

theorem VirtAlloc.apart_of_pages (h : r.WellFormed) (h' : r'.WellFormed)
    (hp : ∀ page, r.has page = true → r'.has page = false) : r.Apart r' := by
  by_contra hn
  rw [Apart, not_or, Nat.not_le, Nat.not_le] at hn
  have hb := h.base_aligned
  have hb' := h'.base_aligned
  have hs := h.size_pos
  have hs' := h'.size_pos
  -- the page at which the later of the two begins
  let page := max r.address.toNat r'.address.toNat / 4096
  have hpage : page * 4096 = max r.address.toNat r'.address.toNat := by
    rcases Nat.le_total r.address.toNat r'.address.toNat with hle | hle
    · simp only [page, Nat.max_eq_right hle]; omega
    · simp only [page, Nat.max_eq_left hle]; omega
  unfold finish at hn
  have h₁ : r.has page = true := has_iff.mpr (by unfold finish; omega)
  have h₂ : r'.has page = true := has_iff.mpr (by unfold finish; omega)
  rw [hp _ h₁] at h₂
  cases h₂

theorem Fits.free_of_has (h : Fits pages r.address r.mappingSize) (hp : r.has page = true) :
    pages page = false := by
  rw [VirtAlloc.has_iff, VirtAlloc.finish] at hp
  have ha := h.aligned
  have hf := h.free (page - r.address.toNat / 4096) (by omega)
  rwa [show r.address.toNat / 4096 + (page - r.address.toNat / 4096) = page by omega] at hf

theorem Fits.wellFormed (h : Fits pages r.address r.mappingSize) (hs : r.mappingSize.toNat % 4096 = 0) :
    r.WellFormed where
  size_pos := Nat.pos_of_ne_zero fun e => h.size_pos (BitVec.eq_of_toNat_eq e)
  base_pos := Nat.pos_of_ne_zero fun e => h.base_pos (BitVec.eq_of_toNat_eq e)
  base_aligned := h.aligned
  size_aligned := hs
  below := h.below

/-- A mapping that is given back leaves the pages as they were. -/
theorem Fits.munmap_mapPages (h : Fits pages r.address r.mappingSize) :
    munmap (mapPages pages r.address r.mappingSize) r.address r.mappingSize = pages := by
  funext page
  show ((pages page || r.has page) && !r.has page) = pages page
  cases hp : r.has page with
  | false => simp
  | true => rw [h.free_of_has hp]; rfl

/-! ## What every call keeps -/

/-- The regions are of whole pages and apart, and with the pages that were mapped before
they are all that is mapped. -/
structure Regions.Sound (pages₀ : Nat → Bool) (g : Regions) : Prop where
  wellFormed : ∀ r ∈ g.vm, r.WellFormed
  apart : g.vm.Pairwise VirtAlloc.Apart
  pages : ∀ page, g.pages page = (pages₀ page || g.vm.any (·.has page))
  new : ∀ r ∈ g.vm, ∀ page, r.has page = true → pages₀ page = false

namespace Regions

theorem Sound.nil (pages₀ : Nat → Bool) : Sound pages₀ ⟨[], pages₀⟩ where
  wellFormed := List.forall_mem_nil _
  apart := .nil
  pages _ := (Bool.or_false _).symm
  new := List.forall_mem_nil _

/-- A region on pages that are free. -/
theorem Sound.cons (h : g.Sound pages₀) (hf : Fits g.pages r.address r.mappingSize)
    (hs : r.mappingSize.toNat % 4096 = 0) :
    Sound pages₀ ⟨r :: g.vm, mapPages g.pages r.address r.mappingSize⟩ where
  wellFormed := List.forall_mem_cons.mpr ⟨hf.wellFormed hs, h.wellFormed⟩
  apart := by
    refine List.pairwise_cons.mpr ⟨fun r' hr' => ?_, h.apart⟩
    refine VirtAlloc.apart_of_pages (hf.wellFormed hs) (h.wellFormed r' hr') fun page hp => ?_
    have hfree := hf.free_of_has hp
    rw [h.pages, Bool.or_eq_false_iff, List.any_eq_false] at hfree
    simpa using hfree.2 r' hr'
  pages page := by
    show (g.pages page || r.has page) = (pages₀ page || (r.has page || g.vm.any (·.has page)))
    rw [h.pages, Bool.or_assoc, Bool.or_comm (g.vm.any _)]
  new := by
    refine List.forall_mem_cons.mpr ⟨fun page hp => ?_, h.new⟩
    have hfree := hf.free_of_has hp
    rw [h.pages, Bool.or_eq_false_iff] at hfree
    exact hfree.1

theorem Sound.map (h : g.Sound pages₀) (k : Kernel) (hs : size.toNat % 4096 = 0) :
    (g.map k address size type).2.Sound pages₀ := by
  unfold Regions.map
  cases hm : k.mmap g.pages address size with
  | none => exact h
  | some answer =>
    have hf : Fits g.pages answer size := k.fits hm
    dsimp only
    split
    · rw [Fits.munmap_mapPages (r := ⟨size, answer, 0⟩) hf]
      exact h
    · exact h.cons (r := ⟨size, answer, newState type⟩) hf hs

theorem Sound.alloc (h : g.Sound pages₀) (k : Kernel) (address size type : BitVec 32) :
    (g.alloc k address size type).2.Sound pages₀ := by
  unfold Regions.alloc
  split
  · exact h
  · rename_i hty
    obtain ⟨n, hn, -⟩ := rounded_spec address size hty
    have hs : (rounded address size type).2.toNat % 4096 = 0 := hn ▸ toNat_roundedSize_mod n type
    revert hs
    generalize rounded address size type = q
    obtain ⟨a, n⟩ := q
    intro hs
    dsimp only
    cases g.blocking a n with
    | none => exact h.map k hs
    | some r => exact h

/-- A region taken out and its pages unmapped. -/
theorem Sound.erase {vm₁ vm₂ : List VirtAlloc} (h : g.Sound pages₀) (hvm : g.vm = vm₁ ++ r :: vm₂) :
    Sound pages₀ ⟨vm₁ ++ vm₂, munmap g.pages r.address r.mappingSize⟩ := by
  have hsub : (vm₁ ++ vm₂).Sublist g.vm := by
    rw [hvm]
    exact List.Sublist.append_left (List.sublist_cons_self r vm₂) vm₁
  have hr : r ∈ g.vm := by simp [hvm]
  refine ⟨fun r' hr' => h.wellFormed r' (hsub.subset hr'), h.apart.sublist hsub, fun page => ?_,
    fun r' hr' => h.new r' (hsub.subset hr')⟩
  show (g.pages page && !r.has page) = (pages₀ page || (vm₁ ++ vm₂).any (·.has page))
  cases hp : r.has page with
  | false => rw [h.pages, hvm]; simp [hp]
  | true =>
    have hothers : ∀ r' ∈ vm₁ ++ vm₂, r'.has page = false := by
      have hpw := h.apart
      rw [hvm, List.pairwise_append, List.pairwise_cons] at hpw
      intro r' hr'
      rcases List.mem_append.mp hr' with hr' | hr'
      · exact (hpw.2.2 r' hr' r List.mem_cons_self).symm.not_has hp
      · exact (hpw.2.1.1 r' hr').not_has hp
    rw [h.new r hr page hp, Bool.not_true, Bool.and_false, Bool.false_or, eq_comm, List.any_eq_false]
    exact fun r' hr' => by rw [hothers r' hr']; simp

theorem Sound.free (h : g.Sound pages₀) (address : BitVec 32) : (g.free address).2.Sound pages₀ := by
  unfold Regions.free
  cases hf : g.vm.find? fun r => r.address = address with
  | none => exact h
  | some r =>
    obtain ⟨-, vm₁, vm₂, hvm, herase⟩ := Keyed.append_of_lookup hf
    dsimp only
    rw [herase]
    exact h.erase hvm

theorem Sound.call (h : g.Sound pages₀) (c : VirtualCall) : (g.call c).2.Sound pages₀ := by
  cases c with
  | alloc k address size type => exact h.alloc k address size type
  | free address => exact h.free address

end Regions

/-- The process before the first call, with the pages that are mapped already. -/
def Space.start (pages₀ : Nat → Bool) : Space := ⟨.empty, pages₀⟩

theorem Space.start_tracks (pages₀ : Nat → Bool) : (Space.start pages₀).Tracks ⟨[], pages₀⟩ := ⟨.nil, rfl⟩

theorem Space.Tracks.outputs (ht : s.Tracks g) (hs : g.Sound pages₀) (cs : List VirtualCall) :
    ∃ rs s' g', outputs Space.call s cs = some (rs, s') ∧
      outputs (fun g c => some (Regions.call g c)) g cs = some (rs, g') ∧ s'.Tracks g' ∧ g'.Sound pages₀ := by
  obtain ⟨rs, s', g', hs', hg, -, -, ht', hsound⟩ := outputs_agree
    (f := Space.call) (g := fun g c => some (Regions.call g c)) (R := fun s g => s.Tracks g ∧ g.Sound pages₀)
    (P := fun _ => True) (Q := fun _ => True)
    (fun s g c ⟨ht, hsound⟩ _ => by
      obtain ⟨s', hc, ht'⟩ := ht.call c
      exact ⟨_, _, _, hc, rfl, trivial, ht', hsound.call c⟩)
    ⟨ht, hs⟩ fun _ _ => trivial
  exact ⟨rs, s', g', hs', hg, ht', hsound⟩

/-- Every run of calls has its results, and they are those of the list of regions, which is
that in memory and is sound. -/
theorem virtual_track (pages₀ : Nat → Bool) (cs : List VirtualCall) :
    ∃ rs s g, outputs Space.call (.start pages₀) cs = some (rs, s) ∧
      outputs (fun g c => some (Regions.call g c)) ⟨[], pages₀⟩ cs = some (rs, g) ∧
      s.Tracks g ∧ g.Sound pages₀ :=
  (Space.start_tracks pages₀).outputs (.nil pages₀) cs

/-! ## What a call returns -/

theorem granule_cases (type : BitVec 32) :
    type &&& memReserve ≠ 0 ∧ granule type = 65536 ∨ ¬ type &&& memReserve ≠ 0 ∧ granule type = 4096 := by
  unfold granule
  by_cases h : type &&& memReserve ≠ 0
  · exact .inl ⟨h, if_pos h⟩
  · exact .inr ⟨h, if_neg h⟩

theorem le_roundUp (type : BitVec 32) (n : Nat) : n ≤ roundUp type n := by
  unfold roundUp
  split
  · have := Nat.le_max_right 65536 n
    omega
  · omega

/-- A size that is too large to be rounded up becomes 0. -/
theorem le_roundedSize {n type : BitVec 32} (hne : roundedSize n type ≠ 0) : n.toNat ≤ (roundedSize n type).toNat := by
  by_cases hle : n.toNat ≤ 0xfffff000
  · rw [toNat_roundedSize hle]
    exact le_roundUp _ _
  · refine absurd (BitVec.eq_of_toNat_eq ?_) hne
    have hbig : ¬ n < 0x10000 := fun h => by
      rw [BitVec.lt_def] at h
      exact hle (Nat.le_trans (Nat.le_of_lt h) (by decide))
    have hlt := n.isLt
    have hmod : n % pgsz ≠ 0 := fun h => by
      have h0 : n.toNat % 4096 = 0 := congrArg BitVec.toNat h
      omega
    have hsize : (if type &&& memReserve ≠ 0 ∧ n < 0x10000 then 0x10000 else n) = n := if_neg fun h => hbig h.2
    unfold roundedSize
    rw [hsize]
    dsimp only
    rw [if_pos hmod, BitVec.toNat_add,
      BitVec.toNat_sub_of_le (BitVec.le_def.mpr (Nat.le_of_lt (Nat.mod_lt _ (by decide))))]
    show (n.toNat + (4096 - n.toNat % 4096)) % 2 ^ 32 = 0
    omega

/-- From a multiple of the granule on, the rounding does not pass the end of the addresses. -/
theorem add_roundUp_le {a n : Nat} (ha : a % granule type = 0) (h : a + n ≤ 0xfffff000) :
    a + roundUp type n ≤ 2 ^ 32 := by
  unfold roundUp
  rcases granule_cases type with ⟨hr, hg⟩ | ⟨hr, hg⟩ <;> rw [hg] at ha
  · rw [if_pos hr]
    rcases Nat.le_total n 65536 with hn | hn
    · rw [Nat.max_eq_left hn]; omega
    · rw [Nat.max_eq_right hn]; omega
  · rw [if_neg hr]; omega

/-- A region that is committed holds all of the request, rounded as it is. -/
theorem VirtAlloc.commits_covers {a n : BitVec 32} (hw : r.WellFormed) (ho : r.overlaps a n = true)
    (hc : r.commits a n type = true) (hn : a.toNat + n.toNat ≤ 2 ^ 32) :
    r.address.toNat ≤ a.toNat ∧ a.toNat + n.toNat ≤ r.finish := by
  simp only [overlaps, commits, ge_iff_le, BitVec.le_def, decide_not, Bool.and_eq_true, Bool.not_eq_true',
    decide_eq_false_iff_not, decide_eq_true_eq, BitVec.toNat_add] at ho hc
  have hb := hw.below
  unfold finish at hb ⊢
  rw [Nat.mod_eq_of_lt hb] at hc
  omega

/-- What a call that returns an address has done: it commits a region, or maps a new one. -/
theorem Regions.alloc_cases (hp : (g.alloc k address size type).1 ≠ 0) :
    ¬ type &&& (memReserve ||| memCommit) = 0 ∧
    ((∃ r ∈ g.vm, (rounded address size type).1 ≠ 0 ∧
        r.overlaps (rounded address size type).1 (rounded address size type).2 = true ∧
        r.commits (rounded address size type).1 (rounded address size type).2 type = true ∧
        g.alloc k address size type = ((rounded address size type).1, g)) ∨
      ∃ answer, ((rounded address size type).1 ≠ 0 → answer = (rounded address size type).1) ∧
        g.alloc k address size type = (answer,
          ⟨⟨(rounded address size type).2, answer, newState type⟩ :: g.vm,
            mapPages g.pages answer (rounded address size type).2⟩)) := by
  unfold Regions.alloc at hp ⊢
  by_cases hty : type &&& (memReserve ||| memCommit) = 0
  · rw [if_pos hty] at hp
    exact absurd rfl hp
  rw [if_neg hty] at hp ⊢
  refine ⟨hty, ?_⟩
  revert hp
  generalize rounded address size type = q
  obtain ⟨a, n⟩ := q
  dsimp only
  cases hb : g.blocking a n with
  | some r =>
    intro hp
    have hfind : a ≠ 0 ∧ g.vm.find? (VirtAlloc.overlaps a n) = some r := by
      unfold Regions.blocking at hb
      split at hb
      · exact ⟨by assumption, hb⟩
      · cases hb
    by_cases hcom : r.commits a n type = true
    · exact .inl ⟨r, List.mem_of_find?_eq_some hfind.2, hfind.1, List.find?_some hfind.2, hcom,
        congrArg (·, g) (if_pos hcom)⟩
    · exact absurd (if_neg hcom) hp
  | none =>
    dsimp only [Regions.map]
    cases hk : k.mmap g.pages a n with
    | none => exact fun hp => absurd rfl hp
    | some answer =>
      dsimp only
      by_cases hel : a ≠ 0 ∧ answer ≠ a
      · rw [if_pos hel]
        exact fun hp => absurd rfl hp
      · rw [if_neg hel]
        exact fun _ => .inr ⟨answer, fun ha => not_not.mp fun hne => hel ⟨ha, hne⟩, rfl⟩

/-- No region reaches the last page, so none holds a request that does. -/
theorem Regions.Sound.not_last {p : BitVec 32} {off n : Nat} (h : g.Sound pages₀)
    (hc : ∃ r ∈ g.vm, r.address.toNat ≤ p.toNat ∧ p.toNat + off + n ≤ r.finish) :
    p.toNat + off + n ≤ 0xfffff000 := by
  obtain ⟨r, hr, -, hle⟩ := hc
  have hw := h.wellFormed r hr
  have hb := hw.below
  have h₁ := hw.base_aligned
  have h₂ := hw.size_aligned
  unfold VirtAlloc.finish at hb hle
  omega

/-- The region that an address returned lies in, and how far it reaches. -/
theorem Regions.alloc_covers (h : g.Sound pages₀) (hp : (g.alloc k address size type).1 ≠ 0) :
    (granule type ≤ address.toNat →
      (g.alloc k address size type).1.toNat = address.toNat - address.toNat % granule type) ∧
    ((∃ r ∈ (g.alloc k address size type).2.vm, r.address.toNat ≤ (g.alloc k address size type).1.toNat ∧
        (g.alloc k address size type).1.toNat + address.toNat % granule type + size.toNat ≤ r.finish) ↔
      address.toNat + size.toNat ≤ 0xfffff000) := by
  have hsound := h.alloc k address size type
  obtain ⟨hty, hcases⟩ := alloc_cases hp
  obtain ⟨m, hm, ha, hmn⟩ := rounded_spec address size hty
  rw [hm] at hcases
  generalize (rounded address size type).1 = a at ha hcases
  have hg := granule_cases type
  have hsz := size.isLt
  have had := address.isLt
  have hmod := Nat.mod_le address.toNat (granule type)
  have hup := le_roundUp type (size.toNat + address.toNat % granule type)
  -- what is rounded is what was asked for, as long as that does not wrap
  have hsize : address.toNat + size.toNat ≤ 0xfffff000 →
      (roundedSize m type).toNat = roundUp type (size.toNat + address.toNat % granule type) := by
    intro hle
    rw [Nat.mod_eq_of_lt (by omega)] at hmn
    rw [toNat_roundedSize (by omega), hmn]
  have hbase : granule type ≤ address.toNat → a ≠ 0 := by
    intro hle ha0
    have ha0 : a.toNat = 0 := congrArg BitVec.toNat ha0
    have := Nat.mod_lt address.toNat (show 0 < granule type by omega)
    omega
  have hback : (a ≠ 0 → (g.alloc k address size type).1 = a) →
      (g.alloc k address size type).1.toNat + address.toNat % granule type + size.toNat ≤ 0xfffff000 →
      address.toNat + size.toNat ≤ 0xfffff000 := by
    intro hpa hle
    by_cases ha0 : a = 0
    · have ha0 : a.toNat = 0 := congrArg BitVec.toNat ha0
      omega
    · rw [hpa ha0, ha] at hle
      omega
  rcases hcases with ⟨r, hr, ha0, hov, hcom, heq⟩ | ⟨answer, hans, heq⟩
  · refine ⟨fun _ => by rw [heq]; exact ha, fun hc => hback (fun _ => by rw [heq]) (hsound.not_last hc),
      fun hle => ?_⟩
    have hsum : a.toNat + (roundedSize m type).toNat ≤ 2 ^ 32 := by
      rw [hsize hle]
      refine add_roundUp_le ?_ (by omega)
      rw [ha]
      exact Nat.sub_mod_eq_zero_of_mod_eq (Nat.mod_mod _ _).symm
    have hcov := VirtAlloc.commits_covers (h.wellFormed r hr) hov hcom hsum
    rw [hsize hle] at hcov
    rw [heq]
    exact ⟨r, hr, hcov.1, by dsimp only; omega⟩
  · refine ⟨fun hle => by rw [heq, ← ha, ← hans (hbase hle)], fun hc => hback
      (fun ha0 => by rw [heq]; exact hans ha0) (hsound.not_last hc), fun hle => ?_⟩
    rw [heq]
    refine ⟨_, List.mem_cons_self, Nat.le_refl _, ?_⟩
    show _ ≤ answer.toNat + (roundedSize m type).toNat
    rw [hsize hle]
    dsimp only
    omega

theorem Space.tracks_of_outputs {cs : List VirtualCall} {rs : List (BitVec 32)}
    (hr : outputs Space.call (.start pages₀) cs = some (rs, s)) : ∃ g, s.Tracks g ∧ g.Sound pages₀ := by
  obtain ⟨rs', s', g, hs, -, ht, hsound⟩ := (Space.start_tracks pages₀).outputs (.nil pages₀) cs
  cases hs.symm.trans hr
  exact ⟨g, ht, hsound⟩

/-- An address that `VirtualAlloc` returns after any run is the one asked for, rounded down (or
the kernel's own where that is 0), and one region holds all the bytes asked for from there on
exactly as long as the request ends before the last page of the address space. -/
theorem virtualAlloc_covers {cs : List VirtualCall} {rs : List (BitVec 32)} {p : BitVec 32}
    (hr : outputs Space.call (.start pages₀) cs = some (rs, s))
    (hc : s.virtualAlloc k address size type = some (p, s')) (hp : p ≠ 0) :
    (granule type ≤ address.toNat → p.toNat = address.toNat - address.toNat % granule type) ∧
    ∃ g, s'.Tracks g ∧ g.Sound pages₀ ∧
      ((∃ r ∈ g.vm, r.address.toNat ≤ p.toNat ∧
          p.toNat + address.toNat % granule type + size.toNat ≤ r.finish) ↔
        address.toNat + size.toNat ≤ 0xfffff000) := by
  obtain ⟨g, ht, hsound⟩ := Space.tracks_of_outputs hr
  obtain ⟨s'', hc', ht'⟩ := ht.virtualAlloc k address size type
  cases hc'.symm.trans hc
  obtain ⟨h₁, h₂⟩ := Regions.alloc_covers hsound hp
  exact ⟨h₁, _, ht', hsound.alloc k address size type, h₂⟩

/-- A page within a region that was reserved. -/
theorem virtualAlloc_covers_reserved : ∃ rs s s',
    outputs Space.call (.start fun _ => false) [.alloc (.firstFit 0x40000000) 0x10000000 0x8000 0x2000] =
      some (rs, s) ∧
    s.virtualAlloc (.firstFit 0x40000000) 0x10002345 0x1000 0x1000 = some (0x10002000, s') ∧
    ∃ g, s'.Tracks g ∧ ∃ r ∈ g.vm, r.address.toNat ≤ 0x10002000 ∧ 0x10002000 + 0x345 + 0x1000 ≤ r.finish := by
  refine ⟨_, _, _, rfl, rfl, ?_⟩
  obtain ⟨-, g, ht, -, hiff⟩ := virtualAlloc_covers
    (rfl : outputs Space.call (.start fun _ => false) [.alloc (.firstFit 0x40000000) 0x10000000 0x8000 0x2000] =
      some (_, _))
    (rfl : Space.virtualAlloc _ (.firstFit 0x40000000) 0x10002345 0x1000 0x1000 = some (_, _)) (by decide)
  exact ⟨g, ht, hiff.mpr (by decide)⟩

/-! ## Regions given back -/

/-- No region begins at an address. -/
def Regions.NotBase (p : BitVec 32) (g : Regions) : Prop := ∀ r ∈ g.vm, r.address ≠ p

/-- A call of `VirtualAlloc` leaves the regions, or puts one at the address it returns. -/
theorem Regions.alloc_vm (g : Regions) (k : Kernel) (address size type : BitVec 32) :
      (g.alloc k address size type).2.vm = g.vm ∨
      ∃ n st, (g.alloc k address size type).2.vm = ⟨n, (g.alloc k address size type).1, st⟩ :: g.vm := by
  unfold Regions.alloc
  split
  · exact .inl rfl
  · generalize rounded address size type = q
    obtain ⟨a, n⟩ := q
    dsimp only
    split
    · exact .inl rfl
    · unfold Regions.map
      split
      · exact .inl rfl
      · split
        · exact .inl rfl
        · exact .inr ⟨_, _, rfl⟩

theorem Regions.NotBase.call {p : BitVec 32} {c : VirtualCall} (h : g.NotBase p) (hr : (g.call c).1 ≠ p) :
    (g.call c).2.NotBase p := by
  cases c with
  | alloc k address size type =>
    intro r hm
    rcases alloc_vm g k address size type with hvm | ⟨n, st, hvm⟩
    · exact h r (hvm ▸ hm)
    · rcases List.mem_cons.mp (hvm ▸ hm) with rfl | hm
      · exact hr
      · exact h r hm
  | free address =>
    show (g.free address).2.NotBase p
    unfold Regions.free
    split
    · exact fun r hm => h r (List.mem_of_mem_eraseP hm)
    · exact h

theorem Regions.NotBase.free {p : BitVec 32} (h : g.NotBase p) : g.free p = (-1, g) := by
  unfold Regions.free
  rw [List.find?_eq_none.mpr fun r hr => by simpa using h r hr]

/-- What a call of `VirtualFree` that succeeds has done: the one region at the address is gone. -/
theorem Regions.Sound.free_eq_zero {p : BitVec 32} (h : g.Sound pages₀) (hf : (g.free p).1 = 0) :
    ∃ r ∈ g.vm, r.address = p ∧ (g.free p).2.pages = munmap g.pages r.address r.mappingSize ∧
      (g.free p).2.NotBase p := by
  unfold Regions.free at hf ⊢
  cases hr : g.vm.find? fun r => r.address = p with
  | none =>
    rw [hr] at hf
    exact absurd (show (-1 : BitVec 32) = 0 from hf) (by decide)
  | some r =>
    obtain ⟨hrp, vm₁, vm₂, hvm, herase⟩ := Keyed.append_of_lookup hr
    refine ⟨r, List.mem_of_find?_eq_some hr, hrp, rfl, fun r' hm => ?_⟩
    dsimp only at hm
    rw [herase] at hm
    have hpw := h.apart
    have hsz := fun r hr => (h.wellFormed r hr).size_pos
    rw [hvm, List.pairwise_append, List.pairwise_cons] at hpw
    rw [hvm] at hsz
    rintro rfl
    have hr₀ := hsz r (by simp)
    have hr₁ := hsz r' (by rcases List.mem_append.mp hm with hm | hm <;> simp [hm])
    -- two regions of the same address would overlap
    have hap : r'.Apart r := by
      rcases List.mem_append.mp hm with hm | hm
      · exact hpw.2.2 r' hm r List.mem_cons_self
      · exact (hpw.2.1.1 r' hm).symm
    unfold VirtAlloc.Apart VirtAlloc.finish at hap
    rw [hrp] at hap
    omega

/-- A region is given back once: when `VirtualFree` succeeds after any run, it unmaps the pages
of the region at its address and no others, and it fails for that address after every further
run of calls of which none returns the address again. -/
theorem virtualFree_once {cs : List VirtualCall} {rs : List (BitVec 32)} {p : BitVec 32}
    (hr : outputs Space.call (.start pages₀) cs = some (rs, s)) (hf : s.virtualFree p = some (0, s'))
    (later : List VirtualCall) :
    (∃ g, s.Tracks g ∧ ∃ r ∈ g.vm, r.address = p ∧
      ∀ page, s'.pages page = if r.has page then false else s.pages page) ∧
    ∃ rs' t, outputs Space.call s' later = some (rs', t) ∧
      ((∀ q ∈ rs', q ≠ p) → ∃ u, t.virtualFree p = some (-1, u)) := by
  obtain ⟨g, ht, hsound⟩ := Space.tracks_of_outputs hr
  obtain ⟨s'', hc, ht'⟩ := ht.virtualFree p
  obtain ⟨h0, rfl⟩ : (g.free p).1 = 0 ∧ s'' = s' := by
    have he := hc.symm.trans hf
    rw [Option.some.injEq, Prod.mk.injEq] at he
    exact he
  obtain ⟨r, hm, hrp, hpages, hnot⟩ := hsound.free_eq_zero h0
  refine ⟨⟨g, ht, r, hm, hrp, fun page => ?_⟩, ?_⟩
  · rw [ht'.pages, hpages, ht.pages]
    show (g.pages page && !r.has page) = _
    cases r.has page <;> simp
  · obtain ⟨rs', t, g', hs, hg, htg, -⟩ := ht'.outputs (hsound.free p) later
    refine ⟨rs', t, hs, fun hne => ?_⟩
    have hnot' : g'.NotBase p := outputs_inv (I := Regions.NotBase p)
      (fun g c q g' h he hq => by
        have hn := h.call (c := c) (by rw [Option.some.inj he]; exact hq)
        rwa [Option.some.inj he] at hn) hnot hg hne
    obtain ⟨u, hu, -⟩ := htg.virtualFree p
    rw [hnot'.free] at hu
    exact ⟨u, hu⟩

/-- A region in the middle of the list, and another call before it is freed again. -/
theorem virtualFree_once_twice : ∃ rs s s',
    outputs Space.call (.start fun _ => false) [.alloc (.firstFit 0x40000000) 0x10000000 0x8000 0x3000,
      .alloc (.firstFit 0x40000000) 0 0x1000 0x1000] = some (rs, s) ∧
    s.virtualFree 0x10000000 = some (0, s') ∧
    ∃ rs' t, outputs Space.call s' [.alloc (.firstFit 0x50000000) 0 0x1000 0x1000] = some (rs', t) ∧
      ∃ u, t.virtualFree 0x10000000 = some (-1, u) := by
  refine ⟨_, _, _, rfl, rfl, ?_⟩
  obtain ⟨-, rs', t, ht, hu⟩ := virtualFree_once
    (rfl : outputs Space.call (.start fun _ => false) [.alloc (.firstFit 0x40000000) 0x10000000 0x8000 0x3000,
      .alloc (.firstFit 0x40000000) 0 0x1000 0x1000] = some (_, _))
    (rfl : Space.virtualFree _ 0x10000000 = some (0, _)) [.alloc (.firstFit 0x50000000) 0 0x1000 0x1000]
  refine ⟨rs', t, ht, hu ?_⟩
  have hrs : [0x50000000] = rs' := congrArg (fun o => (Option.map Prod.fst o).getD []) ht
  intro q hq
  obtain rfl := List.mem_singleton.mp (hrs ▸ hq)
  decide

end DShow.Loader
