import DShowServer.Alloc.Model
import DShowServer.Framework.Run

/-!
# The life of a sample

A sample is created by `Commit` and destroyed, its block given back, by
`Decommit`; nothing else destroys one, `MemAllocator_Destroy` included. Over
the life of an allocator every sample is destroyed once, without references,
exactly if the run is `Tidy`: no `Commit` creates a sample behind the first,
`Decommit` finds no sample that is referenced, and the last `Release` finds the
lists empty (`settled_iff`).

The steps are taken apart once, in `Inv.step`, by what they do to the samples
created, destroyed and within reach (`Effect`).
-/

namespace DShow.Alloc

open Pool Run

/-- An allocator with the samples it created and destroyed; `ended` once it is
destroyed itself. -/
structure Life where
  alloc : AllocState
  mem : MemStruct
  created : List Nat
  destroyed : List Destroyed
  ended : Bool

/-- The calls on an allocator and on its samples. `heap` is as for `commit`. -/
inductive LifeEvent
  | setProperties (request : Option (Int × Int))
  | commit (heap : List Nat)
  | getBuffer
  | sampleAddRef (p : Nat)
  | sampleRelease (p : Nat)
  | decommit
  | addRef
  | release

namespace Life

/-- After `MemAllocatorCreate`. -/
def start (m : MemStruct) : Life := ⟨⟨.empty, .empty, memAllocatorCreate⟩, m, [], [], false⟩

/-- One call. `AddRef` and `Release` of a sample are made by callers that hold
a reference to it. -/
def call (s : Life) : LifeEvent → Option Life
  | .setProperties request =>
    some { s with alloc := { s.alloc with me := (setProperties s.alloc.me request).2 } }
  | .commit heap =>
    (commit s.alloc s.mem heap).map fun (_, a, m) =>
      { s with
        alloc := a, mem := m
        created := s.created ++
          List.range' s.alloc.samples.top (a.samples.top - s.alloc.samples.top) }
  | .getBuffer => (getBuffer s.alloc).map fun (_, a) => { s with alloc := a }
  | .sampleAddRef p =>
    if IsHeld s.alloc p then (sampleAddRef s.alloc p).map fun a => { s with alloc := a } else none
  | .sampleRelease p =>
    if IsHeld s.alloc p then (sampleRelease s.alloc p).map fun a => { s with alloc := a } else none
  | .decommit =>
    (decommit s.alloc s.mem).map fun (ds, a, m) =>
      { s with alloc := a, mem := m, destroyed := s.destroyed ++ ds }
  | .addRef =>
    some { s with alloc.me.refcount := s.alloc.me.refcount + 1 }
  | .release =>
    -- `MemAllocator_Destroy` frees the allocator and nothing else
    some { s with
      alloc.me.refcount := s.alloc.me.refcount - 1
      ended := s.alloc.me.refcount - 1 = 0 }

/-- There are no calls on an allocator that is destroyed. -/
def step (s : Life) (e : LifeEvent) : Option Life := if s.ended then none else s.call e

/-- Every sample was destroyed once, and none that was referenced. -/
structure Settled (s : Life) : Prop where
  once : (s.destroyed.map Destroyed.sample).Perm s.created
  distinct : s.created.Nodup
  unreferenced : ∀ d ∈ s.destroyed, d.refcount ≤ 0

/-- The condition on a step. -/
def Tidy (s : Life) : LifeEvent → Prop
  | .commit heap => s.alloc.me.used_list = 0 → s.alloc.me.free_list = 0 →
    min s.alloc.me.cBuffers.toNat heap.length ≤ 1
  | .decommit => ∀ p, ¬ IsHeld s.alloc p
  | .release => s.alloc.me.refcount = 1 →
    s.alloc.me.used_list = 0 ∧ s.alloc.me.free_list = 0
  | _ => True

/-- Nothing went wrong so far: no sample was destroyed that was referenced, and
those not destroyed are within reach of an allocator that is there. -/
structure Sound (s : Life) : Prop where
  unreferenced : ∀ d ∈ s.destroyed, d.refcount ≤ 0
  reached : ∀ p ∈ s.created, p ∉ s.destroyed.map Destroyed.sample →
    s.ended = false ∧ p ∈ s.alloc.within

/-- The invariant of a life. -/
structure Inv (s : Life) : Prop where
  place : ∃ pl, At s.alloc pl ∧ Held s.alloc pl
  cbBuffer : 0 ≤ s.alloc.me.cbBuffer
  exists_iff : ∀ p, (∃ c, s.alloc.samples.read p = some c) ↔
    p ∈ s.created ∧ p ∉ s.destroyed.map Destroyed.sample
  created_lt : ∀ p ∈ s.created, p < s.alloc.samples.top
  created_nodup : s.created.Nodup
  destroyed_nodup : (s.destroyed.map Destroyed.sample).Nodup
  destroyed_sub : ∀ p ∈ s.destroyed.map Destroyed.sample, p ∈ s.created

/-- What a step does to the samples created, destroyed and within reach. -/
inductive Effect (s s' : Life) (e : LifeEvent) : Prop
  | same (hc : s'.created = s.created) (hd : s'.destroyed = s.destroyed) (ho : s'.ended = false)
      (hw : s'.alloc.within = s.alloc.within) (ht : Tidy s e)
  | create (k : Nat) (hc : s'.created = s.created ++ List.range' s.alloc.samples.top k)
      (hd : s'.destroyed = s.destroyed) (ho : s'.ended = false) (he : s.alloc.within = [])
      (hw : s'.alloc.within = if k = 0 then [] else [s.alloc.samples.top]) (ht : Tidy s e ↔ k ≤ 1)
  | destroy (ds : List Destroyed) (hc : s'.created = s.created)
      (hd : s'.destroyed = s.destroyed ++ ds) (ho : s'.ended = false)
      (he : ds.map Destroyed.sample = s.alloc.within) (hw : s'.alloc.within = [])
      (ht : Tidy s e ↔ ∀ d ∈ ds, d.refcount ≤ 0)
  | last (hc : s'.created = s.created) (hd : s'.destroyed = s.destroyed) (ho : s'.ended = true)
      (hw : s'.alloc.within = s.alloc.within) (ht : Tidy s e ↔ s.alloc.within = [])

variable {s s' : Life}

theorem start_inv (m : MemStruct) : (start m).Inv where
  place := ⟨.empty, ⟨⟨rfl, rfl⟩, rfl, rfl⟩,
    fun _ h => absurd h List.not_mem_nil, fun _ _ h => by cases h⟩
  cbBuffer := show (0 : Int) ≤ 65536 by decide
  exists_iff := fun p => ⟨fun ⟨_, h⟩ => (by cases h), fun h => absurd h.1 List.not_mem_nil⟩
  created_lt := fun _ h => absurd h List.not_mem_nil
  created_nodup := .nil
  destroyed_nodup := .nil
  destroyed_sub := fun _ h => absurd h List.not_mem_nil

theorem start_sound (m : MemStruct) : (start m).Sound :=
  ⟨fun _ h => absurd h List.not_mem_nil, fun _ h => absurd h List.not_mem_nil⟩

/-- A step that creates and destroys nothing. -/
theorem Inv.same (h : s.Inv) {a : AllocState} {pl : Place} (hat : At a pl) (hheld : Held a pl)
    (htop : a.samples.top = s.alloc.samples.top) (hcb : 0 ≤ a.me.cbBuffer)
    (hdom : ∀ p, (∃ c, a.samples.read p = some c) ↔ ∃ c, s.alloc.samples.read p = some c)
    (ended : Bool) : Inv { s with alloc := a, ended := ended } where
  place := ⟨pl, hat, hheld⟩
  cbBuffer := hcb
  exists_iff := fun p => (hdom p).trans (h.exists_iff p)
  created_lt := fun p hp => htop ▸ h.created_lt p hp
  created_nodup := h.created_nodup
  destroyed_nodup := h.destroyed_nodup
  destroyed_sub := h.destroyed_sub

/-- A step on the allocator's own counts and properties. -/
theorem Inv.of_me (h : s.Inv) (me : MemAllocator) (ended : Bool)
    (hu : me.used_list = s.alloc.me.used_list) (hf : me.free_list = s.alloc.me.free_list)
    (hnp : me.new_pointer = s.alloc.me.new_pointer)
    (hmod : me.modified_sample = s.alloc.me.modified_sample) (hcb : 0 ≤ me.cbBuffer) :
    Inv { s with alloc := { s.alloc with me := me }, ended := ended } ∧
      AllocState.within { s.alloc with me := me } = s.alloc.within := by
  obtain ⟨pl, hat, hheld⟩ := h.place
  have hat' : At { s.alloc with me := me } pl := by
    refine ⟨?_, hnp.trans hat.new_pointer, hmod.trans hat.modified⟩
    cases pl <;> simp only [hu, hf] <;> exact hat.lists
  exact ⟨h.same hat' ⟨hheld.there, hheld.counts⟩ rfl hcb (fun _ => Iff.rfl) ended,
    hat'.within_eq.trans hat.within_eq.symm⟩

/-! ## The steps -/

/-- A step that writes the sample within reach and may move it. -/
theorem Inv.writes (h : s.Inv) (ho : s.ended = false) {a : AllocState} {pl pl' : Place} {p : Nat}
    {c c' : CMediaSample} {e : LifeEvent} (hat : At s.alloc pl) (hp : pl.toList = [p])
    (hp' : pl'.toList = [p]) (hw : Writes s.alloc a p c c') (hat' : At a pl') (hh' : Held a pl')
    (ht : Tidy s e) : Inv { s with alloc := a } ∧ Effect s { s with alloc := a } e := by
  refine ⟨h.same hat' hh' hw.top_eq (hw.cbBuffer_eq ▸ h.cbBuffer) (fun q => ?_) s.ended,
    .same rfl rfl ho ?_ ht⟩
  · rw [hw.read_eq]
    split
    · rename_i hq
      exact iff_of_true ⟨c', rfl⟩ ⟨c, hq ▸ hw.was⟩
    · rfl
  · show a.within = _
    rw [hat'.within_eq, hat.within_eq, hp, hp']

theorem Inv.getBuffer (h : s.Inv) (ho : s.ended = false)
    (hs : Life.call s .getBuffer = some s') : s'.Inv ∧ Effect s s' .getBuffer := by
  simp only [Life.call, Option.map_eq_some_iff] at hs
  obtain ⟨⟨r, a⟩, hg, rfl⟩ := hs
  obtain ⟨pl, hat, hheld⟩ := h.place
  rcases getBuffer_cases hat hheld hg with ⟨p, c, rfl, -, hw, hat', hh'⟩ | ⟨-, -, rfl⟩
  · exact h.writes ho hat rfl rfl hw hat' hh' trivial
  · exact ⟨h, .same rfl rfl ho rfl trivial⟩

theorem Inv.sampleAddRef (h : s.Inv) (ho : s.ended = false) {p : Nat}
    (hs : Life.call s (.sampleAddRef p) = some s') : s'.Inv ∧ Effect s s' (.sampleAddRef p) := by
  simp only [Life.call] at hs
  split at hs <;> [rename_i hp; cases hs]
  simp only [Option.map_eq_some_iff] at hs
  obtain ⟨a, ha, rfl⟩ := hs
  obtain ⟨pl, hat, hheld⟩ := h.place
  obtain ⟨c, rfl, hw, hat', hh'⟩ := sampleAddRef_cases hat hheld hp ha
  exact h.writes ho hat rfl rfl hw hat' hh' trivial

theorem Inv.sampleRelease (h : s.Inv) (ho : s.ended = false) {p : Nat}
    (hs : Life.call s (.sampleRelease p) = some s') : s'.Inv ∧ Effect s s' (.sampleRelease p) := by
  simp only [Life.call] at hs
  split at hs <;> [rename_i hp; cases hs]
  simp only [Option.map_eq_some_iff] at hs
  obtain ⟨a, ha, rfl⟩ := hs
  obtain ⟨pl, hat, hheld⟩ := h.place
  obtain ⟨c, rfl, hw, hat', hh'⟩ := sampleRelease_cases hat hheld hp ha
  exact h.writes ho hat rfl (by split <;> rfl) hw hat' hh' trivial

/-- Whether the lists are empty, by what is within reach. -/
theorem lists_empty_iff {a : AllocState} {pl : Place} (hat : At a pl) :
    (a.me.used_list = 0 ∧ a.me.free_list = 0) ↔ a.within = [] := by
  rw [hat.within_eq]
  cases pl with
  | empty => exact iff_of_true ⟨hat.lists.2, hat.lists.1⟩ rfl
  | free p => exact iff_of_false (fun h => hat.lists.1.ne_zero h.2) (by simp [Place.toList])
  | used p => exact iff_of_false (fun h => hat.lists.2.ne_zero h.1) (by simp [Place.toList])

/-- New samples in a heap whose lists are empty. -/
theorem Inv.create (h : s.Inv) (hheld : Held s.alloc .empty) {a : AllocState}
    {m : MemStruct} {k : Nat} (hat' : At a (if k = 0 then .empty else .free s.alloc.samples.top))
    (hg : Grown s.alloc.samples a.samples k) (hcb : 0 ≤ a.me.cbBuffer) :
    Inv { s with
      alloc := a, mem := m, created := s.created ++ List.range' s.alloc.samples.top k } := by
  have hread : ∀ p c, a.samples.read p = some c →
      c.refcount = 0 ∧ p < s.alloc.samples.top + k ∧
        (s.alloc.samples.top ≤ p ∨ ∃ c, s.alloc.samples.read p = some c) := by
    intro p c hc
    rcases Nat.lt_or_ge p s.alloc.samples.top with hlt | hge
    · rw [hg.old p hlt] at hc
      have := hheld.counts p c hc
      exact ⟨by simpa using this, by omega, .inr ⟨c, hc⟩⟩
    · have hlt : p < s.alloc.samples.top + k := by
        by_contra hn
        rw [Store.read, a.samples.cells_eq_none p (.inr (by rw [hg.top_eq]; omega))] at hc
        cases hc
      obtain ⟨d, hd, h0⟩ := hg.new p hge hlt
      cases hd.symm.trans hc
      exact ⟨h0, hlt, .inl hge⟩
  refine ⟨⟨_, hat', fun p hp => ?_, fun p c hc => ?_⟩, hcb, fun p => ?_, fun p hp => ?_, ?_,
    h.destroyed_nodup, fun p hp => List.mem_append_left _ (h.destroyed_sub p hp)⟩
  · split at hp
    · cases hp
    · rw [List.mem_singleton.mp hp]
      obtain ⟨c, hc, -⟩ := hg.new _ (Nat.le_refl _) (show s.alloc.samples.top < _ + k by omega)
      exact ⟨c, hc⟩
  · rw [if_neg (by split <;> simp)]
    exact (hread p c hc).1
  · simp only [List.mem_append, List.mem_range'_1]
    constructor
    · rintro ⟨c, hc⟩
      obtain ⟨-, hlt, hge | ⟨d, hd⟩⟩ := hread p c hc
      · refine ⟨.inr ⟨hge, hlt⟩, fun hd => ?_⟩
        exact absurd (h.created_lt p (h.destroyed_sub p hd)) (Nat.not_lt.mpr hge)
      · exact ((h.exists_iff p).mp ⟨d, hd⟩).imp .inl id
    · rintro ⟨hp | hp, hd⟩
      · obtain ⟨c, hc⟩ := (h.exists_iff p).mpr ⟨hp, hd⟩
        exact ⟨c, (hg.old p (h.created_lt p hp)).trans hc⟩
      · obtain ⟨c, hc, -⟩ := hg.new p hp.1 hp.2
        exact ⟨c, hc⟩
  · show p < a.samples.top
    rw [hg.top_eq]
    rcases List.mem_append.mp hp with hp | hp
    · have := h.created_lt p hp; omega
    · exact (List.mem_range'_1.mp hp).2
  · refine List.nodup_append.mpr ⟨h.created_nodup, List.nodup_range', fun p hp q hq => ?_⟩
    have := h.created_lt p hp
    have := (List.mem_range'_1.mp hq).1
    omega

theorem Inv.commit (h : s.Inv) (ho : s.ended = false) {heap : List Nat}
    (hs : Life.call s (.commit heap) = some s') : s'.Inv ∧ Effect s s' (.commit heap) := by
  simp only [Life.call, Option.map_eq_some_iff] at hs
  obtain ⟨⟨r, a, m⟩, hc, rfl⟩ := hs
  obtain ⟨pl, hat, hheld⟩ := h.place
  rcases commit_cases hat hc with ⟨hwhy, -, rfl⟩ | ⟨rfl, k, rfl, hat', hg, hme, -⟩
  · have hcr : s.created ++ List.range' s.alloc.samples.top
        (s.alloc.samples.top - s.alloc.samples.top) = s.created := by simp
    refine ⟨?_, .same hcr rfl ho rfl fun hu hf => ?_⟩
    · show Inv { s with mem := m, created := _ }
      rw [hcr]
      exact ⟨h.place, h.cbBuffer, h.exists_iff, h.created_lt, h.created_nodup, h.destroyed_nodup,
        h.destroyed_sub⟩
    · rcases hwhy with hcb | hpl
      · exact absurd h.cbBuffer (Int.not_le.mpr hcb)
      · have hw := (lists_empty_iff hat).mp ⟨hu, hf⟩
        rw [hat.within_eq] at hw
        cases pl with
        | empty => exact absurd rfl hpl
        | _ => cases hw
  · have htop : a.samples.top - s.alloc.samples.top = min s.alloc.me.cBuffers.toNat heap.length := by
      rw [hg.top_eq, Nat.add_sub_cancel_left]
    have hcb : 0 ≤ a.me.cbBuffer := by rw [hme]; exact h.cbBuffer
    simp only [htop]
    refine ⟨h.create hheld hat' hg hcb, .create _ rfl rfl ho ?_ ?_ ?_⟩
    · rw [hat.within_eq]; rfl
    · rw [hat'.within_eq]; split <;> rfl
    · exact ⟨fun ht => ht hat.lists.2 hat.lists.1, fun hk _ _ => hk⟩

/-- The one sample on the lists is deleted, whatever its count. -/
theorem Inv.destroy (h : s.Inv) {pl : Place} (hheld : Held s.alloc pl) {a : AllocState}
    {m : MemStruct} {p : Nat} {c : CMediaSample} (hp : pl.toList = [p])
    (hc : s.alloc.samples.read p = some c) (hat' : At a .empty) (hcb : 0 ≤ a.me.cbBuffer)
    (htop : a.samples.top = s.alloc.samples.top)
    (hr : ∀ b, a.samples.read b = if b = p then none else s.alloc.samples.read b) :
    Inv { s with
      alloc := a, mem := m, destroyed := s.destroyed ++ [⟨p, c.refcount, c.own_block⟩] } := by
  obtain ⟨hpc, hpd⟩ := (h.exists_iff p).mp ⟨c, hc⟩
  refine ⟨⟨.empty, hat', fun q hq => absurd hq List.not_mem_nil, fun b d hb => ?_⟩, hcb, fun q => ?_,
    fun q hq => ?_, h.created_nodup, ?_, fun q hq => ?_⟩
  · -- what is left was never on the used list, so its count is zero
    rw [hr] at hb
    split at hb <;> [cases hb; rename_i hbp]
    have hcount := hheld.counts b d hb
    rw [if_neg] at hcount
    · simpa using hcount
    · rintro rfl
      exact hbp (List.singleton_inj.mp hp)
  · simp only [List.map_append, List.mem_append, List.map_cons, List.map_nil, List.mem_singleton,
      not_or, hr]
    split
    · rename_i hq
      exact iff_of_false (fun ⟨_, h⟩ => by cases h) fun h => h.2.2 hq
    · rename_i hq
      rw [h.exists_iff q]
      exact and_congr_right fun _ => (and_iff_left hq).symm
  · exact htop ▸ h.created_lt q hq
  · rw [List.map_append]
    refine List.nodup_append.mpr ⟨h.destroyed_nodup, by simp, fun x hx y hy => ?_⟩
    rw [List.map_cons, List.map_nil, List.mem_singleton] at hy
    rintro rfl
    subst hy
    exact hpd hx
  · rw [List.map_append] at hq
    rcases List.mem_append.mp hq with hq | hq
    · exact h.destroyed_sub q hq
    · rw [List.map_cons, List.map_nil, List.mem_singleton] at hq
      exact hq ▸ hpc

theorem Inv.decommit (h : s.Inv) (ho : s.ended = false)
    (hs : Life.call s .decommit = some s') : s'.Inv ∧ Effect s s' .decommit := by
  simp only [Life.call, Option.map_eq_some_iff] at hs
  obtain ⟨⟨ds, a, m⟩, hd, rfl⟩ := hs
  obtain ⟨pl, hat, hheld⟩ := h.place
  obtain ⟨hat', hme, hpl⟩ := decommit_cases hat hd
  have hcb : 0 ≤ a.me.cbBuffer := by rw [hme]; exact h.cbBuffer
  have hw' : a.within = [] := by rw [hat'.within_eq]; rfl
  have hnone : (∀ p, pl ≠ .used p) → Tidy s .decommit := fun hu p hp => hu p (hheld.used hp)
  cases pl with
  | empty =>
    obtain ⟨rfl, hsm⟩ := hpl
    refine ⟨?_, .destroy [] rfl rfl ho hat.within_eq.symm hw'
      (iff_of_true (hnone fun _ h => by cases h) fun _ h => absurd h List.not_mem_nil)⟩
    rw [List.append_nil]
    refine ⟨⟨.empty, hat', fun q hq => absurd hq List.not_mem_nil, fun b d hb => ?_⟩, hcb,
      fun q => hsm ▸ h.exists_iff q, fun q hq => hsm ▸ h.created_lt q hq, h.created_nodup,
      h.destroyed_nodup, h.destroyed_sub⟩
    exact hheld.counts b d (hsm ▸ hb)
  | free p =>
    obtain ⟨c, hc, rfl, htop, hr⟩ := hpl
    have h0 : c.refcount = 0 := by simpa using hheld.counts p c hc
    refine ⟨h.destroy hheld rfl hc hat' hcb htop hr, .destroy _ rfl rfl ho hat.within_eq.symm hw'
      (iff_of_true (hnone fun _ h => by cases h) fun d hd => ?_)⟩
    rw [List.mem_singleton.mp hd]
    exact Int.le_of_eq h0
  | used p =>
    obtain ⟨c, hc, rfl, htop, hr⟩ := hpl
    have hpos : 0 < c.refcount := by simpa using hheld.counts p c hc
    refine ⟨h.destroy hheld rfl hc hat' hcb htop hr, .destroy _ rfl rfl ho hat.within_eq.symm hw'
      (iff_of_false (fun ht => ht p ⟨c, hc, hpos⟩) fun hall => ?_)⟩
    exact absurd (hall _ List.mem_cons_self) (Int.not_le.mpr hpos)

/-- A step keeps the invariant and has one of the effects. -/
theorem Inv.step (h : s.Inv) {e : LifeEvent} (hs : Life.step s e = some s') :
    s'.Inv ∧ Effect s s' e := by
  simp only [Life.step] at hs
  split at hs <;> [cases hs; rename_i ho]
  rw [Bool.not_eq_true] at ho
  cases e with
  | setProperties request =>
    cases hs
    have hme : ∃ n cb, 0 ≤ cb ∧ (setProperties s.alloc.me request).2 =
        { s.alloc.me with cBuffers := n, cbBuffer := cb } := by
      cases request with
      | none => exact ⟨_, _, h.cbBuffer, rfl⟩
      | some r =>
        obtain ⟨n, cb⟩ := r
        simp only [setProperties]
        split
        · exact ⟨_, _, h.cbBuffer, rfl⟩
        split
        · exact ⟨_, _, h.cbBuffer, rfl⟩
        · exact ⟨n, _, by split <;> omega, rfl⟩
    obtain ⟨n, cb, hcb, e⟩ := hme
    rw [e]
    obtain ⟨hi, hw⟩ := h.of_me { s.alloc.me with cBuffers := n, cbBuffer := cb } s.ended
      rfl rfl rfl rfl hcb
    exact ⟨hi, .same rfl rfl ho hw trivial⟩
  | commit => exact h.commit ho hs
  | getBuffer => exact h.getBuffer ho hs
  | sampleAddRef => exact h.sampleAddRef ho hs
  | sampleRelease => exact h.sampleRelease ho hs
  | decommit => exact h.decommit ho hs
  | addRef =>
    cases hs
    obtain ⟨hi, hw⟩ := h.of_me { s.alloc.me with refcount := s.alloc.me.refcount + 1 } s.ended
      rfl rfl rfl rfl h.cbBuffer
    exact ⟨hi, .same rfl rfl ho hw trivial⟩
  | release =>
    cases hs
    obtain ⟨hi, hw⟩ := h.of_me { s.alloc.me with refcount := s.alloc.me.refcount - 1 }
      (decide (s.alloc.me.refcount - 1 = 0)) rfl rfl rfl rfl h.cbBuffer
    refine ⟨hi, ?_⟩
    obtain ⟨pl, hat, -⟩ := h.place
    by_cases h1 : s.alloc.me.refcount = 1
    · refine .last rfl rfl (decide_eq_true (by omega)) hw ?_
      rw [← lists_empty_iff hat]
      exact ⟨fun ht => ht h1, fun hl _ => hl⟩
    · exact .same rfl rfl (decide_eq_false (by omega)) hw fun h => absurd h h1

/-! ## Complete lives -/

/-- A step keeps what went right so far exactly under its condition. -/
theorem Effect.sound_iff {e : LifeEvent} (he : Effect s s' e) (h : s.Inv) (hs : s.Sound) :
    s'.Sound ↔ s.Tidy e := by
  cases he with
  | same hc hd ho hw ht =>
    refine iff_of_true ⟨hd ▸ hs.unreferenced, fun p hp hn => ⟨ho, ?_⟩⟩ ht
    rw [hw]
    exact (hs.reached p (hc ▸ hp) (hd ▸ hn)).2
  | create k hc hd ho he hw ht =>
    rw [ht]
    constructor
    · intro hs'
      by_contra hk
      -- the second sample is not within reach
      have hmem : s.alloc.samples.top + 1 ∈ s'.created := by
        rw [hc]; exact List.mem_append_right _ (List.mem_range'_1.mpr (by omega))
      have hnd : s.alloc.samples.top + 1 ∉ s'.destroyed.map Destroyed.sample := by
        rw [hd]
        intro hm
        have := h.created_lt _ (h.destroyed_sub _ hm)
        omega
      have := (hs'.reached _ hmem hnd).2
      rw [hw, if_neg (by omega), List.mem_singleton] at this
      omega
    · intro hk
      refine ⟨hd ▸ hs.unreferenced, fun p hp hn => ⟨ho, ?_⟩⟩
      rcases List.mem_append.mp (hc ▸ hp) with hp | hp
      · have := (hs.reached p hp (hd ▸ hn)).2
        rw [he] at this; cases this
      · have := List.mem_range'_1.mp hp
        rw [hw, if_neg (by omega), List.mem_singleton]
        omega
  | destroy ds hc hd ho he hw ht =>
    rw [ht]
    constructor
    · exact fun hs' d hm => hs'.unreferenced d (hd ▸ List.mem_append_right _ hm)
    · intro hds
      refine ⟨fun d hm => ?_, fun p hp hn => ?_⟩
      · rcases List.mem_append.mp (hd ▸ hm) with hm | hm
        · exact hs.unreferenced d hm
        · exact hds d hm
      · rw [hd, List.map_append, List.mem_append, not_or] at hn
        have := (hs.reached p (hc ▸ hp) hn.1).2
        exact absurd (he ▸ this) hn.2
  | last hc hd ho hw ht =>
    rw [ht]
    constructor
    · intro hs'
      obtain ⟨pl, hat, hheld⟩ := h.place
      refine List.eq_nil_iff_forall_not_mem.mpr fun p hp => ?_
      rw [hat.within_eq] at hp
      obtain ⟨hpc, hpd⟩ := (h.exists_iff p).mp (hheld.there p hp)
      have := (hs'.reached p (hc ▸ hpc) (hd ▸ hpd)).1
      rw [ho] at this; cases this
    · intro hw0
      refine ⟨hd ▸ hs.unreferenced, fun p hp hn => ?_⟩
      have := (hs.reached p (hc ▸ hp) (hd ▸ hn)).2
      rw [hw0] at this; cases this

/-- What went wrong stays wrong. -/
theorem Effect.sound_back {e : LifeEvent} (he : Effect s s' e) (h : s.Inv) (hended : s.ended = false)
    (hs' : s'.Sound) : s.Sound := by
  refine ⟨fun d hm => hs'.unreferenced d ?_, fun p hp hn => ⟨hended, ?_⟩⟩
  · cases he with
    | same hc hd => exact hd ▸ hm
    | create k hc hd => exact hd ▸ hm
    | destroy ds hc hd => exact hd ▸ List.mem_append_left _ hm
    | last hc hd => exact hd ▸ hm
  · cases he with
    | same hc hd ho hw => exact hw ▸ (hs'.reached p (hc ▸ hp) (hd ▸ hn)).2
    | create k hc hd ho he hw =>
      have := (hs'.reached p (hc ▸ List.mem_append_left _ hp) (hd ▸ hn)).2
      have hlt := h.created_lt p hp
      rw [hw] at this
      split at this
      · cases this
      · rw [List.mem_singleton] at this; omega
    | destroy ds hc hd ho he hw =>
      by_contra hnw
      have := (hs'.reached p (hc ▸ hp) (by
        rw [hd, List.map_append, List.mem_append, he]
        exact fun h => h.elim hn hnw)).2
      rw [hw] at this; cases this
    | last hc hd ho =>
      have := (hs'.reached p (hc ▸ hp) (hd ▸ hn)).1
      rw [ho] at this; cases this

/-- For an allocator that is destroyed this is what is asked of it. -/
theorem Inv.settled_iff_sound (h : s.Inv) (ho : s.ended = true) : s.Settled ↔ s.Sound := by
  constructor
  · rintro ⟨hp, -, hu⟩
    exact ⟨hu, fun p hc hn => absurd (hp.mem_iff.mpr hc) hn⟩
  · rintro ⟨hu, hr⟩
    refine ⟨(List.perm_ext_iff_of_nodup h.destroyed_nodup h.created_nodup).mpr fun p =>
      ⟨h.destroyed_sub p, fun hp => ?_⟩, h.created_nodup, hu⟩
    by_contra hn
    have := (hr p hp hn).1
    rw [ho] at this; cases this

/-- **The life of the samples.** In a run that ends with the allocator
destroyed, each sample it created was destroyed exactly once, none while it was
referenced, exactly if every step was tidy. -/
theorem settled_iff {m : MemStruct} {es : List LifeEvent} {t : Life}
    (hr : exec step (start m) es = some t) (ho : t.ended = true) :
    t.Settled ↔ Meets step Tidy (start m) es := by
  have hI : ∀ s e s', Inv s → step s e = some s' → Inv s' := fun _ _ _ h hs => (h.step hs).1
  rw [(exec_inv' hI (start_inv m) hr).settled_iff_sound ho]
  refine (meets_iff_end (I := Inv) (M := Sound) hI (fun _ _ _ h hm hs => ?_)
    (fun _ _ _ h hs hm => ?_) (start_inv m) (start_sound m) hr).symm
  · exact (h.step hs).2.sound_iff h hm
  · refine (h.step hs).2.sound_back h ?_ hm
    by_contra hov
    rw [step, if_pos (by simpa using hov)] at hs
    cases hs

/-- How a run ends, as far as samples are created and destroyed. -/
theorem exec_ends {m : MemStruct} {es : List LifeEvent} {created : List Nat} {ds : List Destroyed}
    (h : (exec step (start m) es).map (fun t => (t.ended, t.created, t.destroyed)) =
      some (true, created, ds)) :
    ∃ t, exec step (start m) es = some t ∧ t.ended = true ∧ t.created = created ∧
      t.destroyed = ds := by
  simpa only [Option.map_eq_some_iff, Prod.mk.injEq] using h

/-- A sample that is never decommitted, one that is decommitted while it is
lent, and one behind the head of the free list. -/
theorem not_settled :
    (∃ t, exec step (start (setMemstruct 0 0 0)) [.commit [5000], .release] = some t ∧
      t.ended = true ∧ t.created = [1] ∧ t.destroyed = [] ∧ ¬ t.Settled) ∧
    (∃ t, exec step (start (setMemstruct 0 0 0))
        [.commit [5000], .getBuffer, .decommit, .release] = some t ∧
      t.ended = true ∧ t.destroyed = [⟨1, 1, 5000⟩] ∧ ¬ t.Settled) ∧
    ∃ t, exec step (start (setMemstruct 0 0 0))
        [.setProperties (some (2, 100)), .commit [5000, 8000], .decommit, .release] = some t ∧
      t.ended = true ∧ t.created = [1, 2] ∧ t.destroyed = [⟨1, 0, 5000⟩] ∧ ¬ t.Settled := by
  have h₁ := @exec_ends (setMemstruct 0 0 0) [.commit [5000], .release] [1] [] (by decide +kernel)
  have h₂ := @exec_ends (setMemstruct 0 0 0) [.commit [5000], .getBuffer, .decommit, .release]
    [1] [⟨1, 1, 5000⟩] (by decide +kernel)
  have h₃ := @exec_ends (setMemstruct 0 0 0)
    [.setProperties (some (2, 100)), .commit [5000, 8000], .decommit, .release]
    [1, 2] [⟨1, 0, 5000⟩] (by decide +kernel)
  refine ⟨?_, ?_, ?_⟩
  · obtain ⟨t, hr, ho, hc, hd⟩ := h₁
    refine ⟨t, hr, ho, hc, hd, fun h => ?_⟩
    have := h.once.length_eq
    rw [hc, hd] at this
    cases this
  · obtain ⟨t, hr, ho, -, hd⟩ := h₂
    refine ⟨t, hr, ho, hd, fun h => ?_⟩
    exact absurd (h.unreferenced ⟨1, 1, 5000⟩ (by rw [hd]; exact List.mem_cons_self)) (by decide)
  · obtain ⟨t, hr, ho, hc, hd⟩ := h₃
    refine ⟨t, hr, ho, hc, hd, fun h => ?_⟩
    have := h.once.length_eq
    rw [hc, hd] at this
    cases this

/-- One sample committed, lent and taken back, and decommitted. -/
theorem settled_iff_one :
    let es := [.commit [5000], .getBuffer, .sampleRelease 1, .decommit, .release]
    ∃ t, exec step (start (setMemstruct 0 0 0)) es = some t ∧ t.Settled ∧
      Meets step Tidy (start (setMemstruct 0 0 0)) es := by
  intro es
  obtain ⟨t, ht, ho, hc, hd⟩ : ∃ t, exec step (start (setMemstruct 0 0 0)) es = some t ∧
      t.ended = true ∧ t.created = [1] ∧ t.destroyed = [⟨1, 0, 5000⟩] :=
    exec_ends (by decide +kernel)
  have hs : t.Settled := by
    refine ⟨by rw [hc, hd]; exact .refl _, by rw [hc]; decide, fun d hm => ?_⟩
    rw [hd, List.mem_singleton] at hm
    rw [hm]
  exact ⟨t, ht, hs, (settled_iff ht ho).mp hs⟩

end Life

end DShow.Alloc
