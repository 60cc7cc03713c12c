import DShowServer.Alloc.List
import DShowServer.Pool.MemStruct

/-!
# The sample allocator (`MemAllocator`, `CMediaSample`)

`Commit` creates `cBuffers` samples in the free list, `GetBuffer` moves the
first free sample to the used list, the last `Release` of a sample moves it
back through `ReleaseBuffer`, and `Decommit` destroys what is in the lists. As
the lists lose all but their head (`One`), at most one sample is ever within
reach: the functions are described by where it is (`Place`).
-/

namespace DShow.Alloc

open Pool

/-- The results of the allocator's methods: `S_OK`, `E_FAIL`, `E_INVALIDARG`,
`E_OUTOFMEMORY`. -/
inductive HResult
  | ok
  | fail
  | invalidArg
  | outOfMemory
deriving DecidableEq

/-- `CMediaSample`, as far as the allocator goes. -/
structure CMediaSample where
  own_block : Nat
  block : Nat
  size : Int
  refcount : Int

/-- `MemAllocator`, with the two properties it reads. -/
structure MemAllocator where
  refcount : Int
  cBuffers : Int
  cbBuffer : Int
  used_list : Nat
  free_list : Nat
  new_pointer : Nat
  modified_sample : Nat

/-- An allocator and the objects it reaches. -/
structure AllocState where
  nodes : Store AvmList
  samples : Store CMediaSample
  me : MemAllocator

/-- `MemAllocatorCreate`. -/
def memAllocatorCreate : MemAllocator where
  refcount := 1
  cBuffers := 1
  cbBuffer := 65536
  used_list := 0
  free_list := 0
  new_pointer := 0
  modified_sample := 0

/-- `MemAllocator_SetProperties`; `none` stands for a `NULL` argument. -/
def setProperties (me : MemAllocator) : Option (Int × Int) → HResult × MemAllocator
  | none => (.invalidArg, me)
  | some (cBuffers, cbBuffer) =>
    if cBuffers ≤ 0 ∨ cbBuffer ≤ 0 then (.fail, me)
    else if me.used_list ≠ 0 ∨ me.free_list ≠ 0 then (.fail, me)
    else (.ok, { me with
      cBuffers := cBuffers, cbBuffer := if cbBuffer = 2 then 10240 else cbBuffer })

/-- `SAFETY_ACEL`. -/
def safetyAcel : Int := 1024

/-- `CMediaSampleCreate` once its own object is allocated. Without a block it
goes on to read the `type_valid` nobody has set (`none`). -/
def cMediaSampleCreate (m : MemStruct) (size : Int) (heap : Nat) :
    Option (CMediaSample × MemStruct) := do
  let (own_block, m) ← m.malloc (wrap32 (wrap32 size + safetyAcel)) heap
  if own_block = 0 then none
  else pure (⟨own_block, own_block, size, 0⟩, m)

/-- The loop of `MemAllocator_Commit`, with `n` samples to go. `heap` lists what
`malloc` returns to the samples that get no page; where it ends there is no
memory for another sample. -/
def commitFrom : Nat → List Nat → AllocState → MemStruct → Option (HResult × AllocState × MemStruct)
  | 0, _, a, m => some (.ok, a, m)
  | _ + 1, [], a, m => some (.outOfMemory, a, m)
  | n + 1, heap :: rest, a, m => do
    let (sample, m) ← cMediaSampleCreate m a.me.cbBuffer heap
    let (p, samples) := a.samples.alloc sample
    let (free_list, nodes) ← avmListAddTail a.nodes a.me.free_list p
    commitFrom n rest ⟨nodes, samples, { a.me with free_list := free_list }⟩ m

/-- `MemAllocator_Commit`. -/
def commit (a : AllocState) (m : MemStruct) (heap : List Nat) :
    Option (HResult × AllocState × MemStruct) :=
  if a.me.cbBuffer < 0 then some (.fail, a, m)
  else if a.me.used_list ≠ 0 ∨ a.me.free_list ≠ 0 then some (.invalidArg, a, m)
  else commitFrom a.me.cBuffers.toNat heap a m

/-- `CMediaSample_ResetPointer`. -/
def resetPointer (c : CMediaSample) : CMediaSample := { c with block := c.own_block }

/-- `MemAllocator_GetBuffer`: the sample, or `none` with `E_FAIL`. -/
def getBuffer (a : AllocState) : Option (Option Nat × AllocState) :=
  if a.me.free_list = 0 then some (none, a)
  else do
    let node ← a.nodes.read a.me.free_list
    let sample := node.member
    let (free_list, nodes) ← avmListDelHead a.nodes a.me.free_list
    let (used_list, nodes) ← avmListAddTail nodes a.me.used_list sample
    let samples ← a.samples.modify sample fun c => { c with refcount := c.refcount + 1 }
    let me := { a.me with free_list := free_list, used_list := used_list }
    if me.new_pointer ≠ 0 then
      let samples ← if me.modified_sample ≠ 0 then samples.modify me.modified_sample resetPointer
        else pure samples
      let samples ← samples.modify sample fun c => { c with block := me.new_pointer }
      pure (some sample, ⟨nodes, samples, { me with modified_sample := sample, new_pointer := 0 }⟩)
    else pure (some sample, ⟨nodes, samples, me⟩)

/-- `MemAllocator_ReleaseBuffer`. -/
def releaseBuffer (a : AllocState) (pBuffer : Nat) : Option (HResult × AllocState) := do
  let l ← avmListFind a.nodes a.me.used_list pBuffer
  if l = 0 then pure (.fail, a)
  else
    let node ← a.nodes.read l
    let sample := node.member
    let (samples, me) ← if a.me.modified_sample = sample then do
        let samples ← a.samples.modify a.me.modified_sample resetPointer
        pure (samples, { a.me with modified_sample := 0 })
      else pure (a.samples, a.me)
    let (used_list, nodes) ← avmListDelHead a.nodes me.used_list
    let (free_list, nodes) ← avmListAddHead nodes me.free_list sample
    pure (.ok, ⟨nodes, samples, { me with used_list := used_list, free_list := free_list }⟩)

/-- `CMediaSample_AddRef`. -/
def sampleAddRef (a : AllocState) (p : Nat) : Option AllocState :=
  (a.samples.modify p fun c => { c with refcount := c.refcount + 1 }).map fun samples =>
    { a with samples := samples }

/-- `CMediaSample_Release`. -/
def sampleRelease (a : AllocState) (p : Nat) : Option AllocState := do
  let c ← a.samples.read p
  let samples ← a.samples.modify p fun c => { c with refcount := c.refcount - 1 }
  let a := { a with samples := samples }
  if c.refcount - 1 = 0 then
    let (_, a) ← releaseBuffer a p
    pure a
  else pure a

/-- A sample destroyed, with its count of references and its block at that time. -/
structure Destroyed where
  sample : Nat
  refcount : Int
  own_block : Nat
deriving DecidableEq

/-- `CMediaSample_Destroy`. -/
def cMediaSampleDestroy (samples : Store CMediaSample) (m : MemStruct) (p : Nat) :
    Option (Destroyed × Store CMediaSample × MemStruct) := do
  let c ← samples.read p
  let m ← m.free c.own_block
  let samples ← samples.free p
  pure (⟨p, c.refcount, c.own_block⟩, samples, m)

/-- The first loop of `MemAllocator_Decommit`: the used list moves to the free
list. Each turn frees a node, so that there are at most `top` turns. -/
def drainUsed : Nat → AllocState → Option AllocState
  | 0, _ => none
  | room + 1, a =>
    if a.me.used_list = 0 then some a
    else do
      let node ← a.nodes.read a.me.used_list
      let (free_list, nodes) ← avmListAddTail a.nodes a.me.free_list node.member
      let (used_list, nodes) ← avmListDelHead nodes a.me.used_list
      drainUsed room
        { a with nodes := nodes, me := { a.me with free_list := free_list, used_list := used_list } }

/-- The second loop: the samples of the free list are destroyed. -/
def drainFree : Nat → AllocState → MemStruct → Option (List Destroyed × AllocState × MemStruct)
  | 0, _, _ => none
  | room + 1, a, m =>
    if a.me.free_list = 0 then some ([], a, m)
    else do
      let node ← a.nodes.read a.me.free_list
      let (d, samples, m) ← cMediaSampleDestroy a.samples m node.member
      let (free_list, nodes) ← avmListDelHead a.nodes a.me.free_list
      let (ds, a, m) ← drainFree room ⟨nodes, samples, { a.me with free_list := free_list }⟩ m
      pure (d :: ds, a, m)

/-- `MemAllocator_Decommit`: the samples it destroyed as well. -/
def decommit (a : AllocState) (m : MemStruct) : Option (List Destroyed × AllocState × MemStruct) := do
  let a ← drainUsed (a.nodes.top + 1) a
  drainFree (a.nodes.top + 1) a m

/-! ## Where the sample within reach is -/

/-- No sample, or one in the free or in the used list. -/
inductive Place
  | empty
  | free (p : Nat)
  | used (p : Nat)
deriving DecidableEq

/-- Where it is once the used list is moved to the free list. -/
def Place.drained : Place → Place
  | .used p => .free p
  | pl => pl

/-- The lists of the allocator, and no pointer set by `SetPointer`. -/
structure At (a : AllocState) (pl : Place) : Prop where
  lists : match pl with
    | .empty => a.me.free_list = 0 ∧ a.me.used_list = 0
    | .free p => One a.nodes a.me.free_list p ∧ a.me.used_list = 0
    | .used p => a.me.free_list = 0 ∧ One a.nodes a.me.used_list p
  new_pointer : a.me.new_pointer = 0
  modified : a.me.modified_sample = 0

/-- The sample within reach, if there is one. -/
def Place.toList : Place → List Nat
  | .empty => []
  | .free p | .used p => [p]

/-- The samples in the two lists, along `next`. -/
def AllocState.within (a : AllocState) : List Nat :=
  (avmListMembers a.nodes a.me.free_list).getD [] ++ (avmListMembers a.nodes a.me.used_list).getD []

variable {a a' : AllocState} {m m' : MemStruct} {p : Nat}

theorem At.within_eq {pl : Place} (h : At a pl) : a.within = pl.toList := by
  cases pl with
  | empty =>
    simp only [AllocState.within, avmListMembers, h.lists.1, h.lists.2, if_true]
    rfl
  | free p =>
    simp only [AllocState.within, members_one h.lists.1, h.lists.2]
    rfl
  | used p =>
    simp only [AllocState.within, members_one h.lists.2, h.lists.1]
    rfl

/-- `k` new samples in the heap, above those there are. -/
structure Grown (s s' : Store CMediaSample) (k : Nat) : Prop where
  top_eq : s'.top = s.top + k
  old : ∀ b < s.top, s'.read b = s.read b
  new : ∀ b, s.top ≤ b → b < s.top + k → ∃ c, s'.read b = some c ∧ c.refcount = 0

theorem Grown.refl (s : Store CMediaSample) : Grown s s 0 :=
  ⟨rfl, fun _ _ => rfl, fun _ h₁ h₂ => absurd h₂ (Nat.not_lt.mpr h₁)⟩

theorem Grown.cons {s s' : Store CMediaSample} {k : Nat} {c : CMediaSample} (hc : c.refcount = 0)
    (h : Grown (s.alloc c).2 s' k) : Grown s s' (k + 1) where
  top_eq := by rw [h.top_eq]; exact Nat.add_right_comm ..
  old := fun b hb => by
    rw [h.old b (Nat.lt_succ_of_lt hb), Store.read_alloc, if_neg (Nat.ne_of_lt hb)]
  new := fun b h₁ h₂ => by
    rcases Nat.eq_or_lt_of_le h₁ with rfl | h₁
    · refine ⟨c, ?_, hc⟩
      rw [h.old _ (Nat.lt_succ_self _), Store.read_alloc, if_pos rfl]
    · exact h.new b h₁ (by show b < s.top + 1 + k; omega)

/-- A new sample has no references. -/
theorem refcount_create {size : Int} {heap : Nat} {c : CMediaSample}
    (h : cMediaSampleCreate m size heap = some (c, m')) : c.refcount = 0 := by
  simp only [cMediaSampleCreate, Option.bind_eq_bind, Option.bind_eq_some_iff] at h
  obtain ⟨_, -, h⟩ := h
  split at h <;> cases h
  rfl

/-- With a sample in the free list, `Commit` creates the others out of reach. -/
theorem commitFrom_free {q : Nat} {n : Nat} {heap : List Nat} {hr : HResult} (h : At a (.free q))
    (hc : commitFrom n heap a m = some (hr, a', m')) :
    At a' (.free q) ∧ Grown a.samples a'.samples (min n heap.length) ∧
      a'.me = { a.me with free_list := a'.me.free_list } ∧ (hr = .ok → n ≤ heap.length) := by
  induction n generalizing a m heap with
  | zero =>
    cases hc
    rw [Nat.zero_min]
    exact ⟨h, .refl _, rfl, fun _ => Nat.zero_le _⟩
  | succ n ih =>
    cases heap with
    | nil => cases hc; exact ⟨h, .refl _, rfl, fun h => by cases h⟩
    | cons x heap =>
      simp only [commitFrom, Option.bind_eq_bind, Option.bind_eq_some_iff] at hc
      obtain ⟨⟨c, m₁⟩, hcr, ⟨f, nodes⟩, hadd, hc⟩ := hc
      obtain ⟨hone, hu⟩ := h.lists
      obtain ⟨nodes', e, hone', -⟩ := addTail_one hone a.samples.top
      cases e.symm.trans hadd
      have h₁ : At ⟨nodes, (a.samples.alloc c).2, a.me⟩ (.free q) :=
        ⟨⟨hone', hu⟩, h.new_pointer, h.modified⟩
      obtain ⟨h₂, hg, hme, hok⟩ := ih h₁ hc
      refine ⟨h₂, ?_, hme, fun h => Nat.succ_le_succ (hok h)⟩
      rw [List.length_cons, Nat.succ_min_succ]
      exact hg.cons (refcount_create hcr)

/-- What `Commit` does: nothing unless the lists are empty, and with empty
lists `min n heap.length` new samples, of which the first is within reach. -/
theorem commit_cases {pl : Place} {heap : List Nat} {hr : HResult} (h : At a pl)
    (hc : commit a m heap = some (hr, a', m')) :
    ((a.me.cbBuffer < 0 ∨ pl ≠ .empty) ∧ hr ≠ .ok ∧ a' = a) ∨
    (pl = .empty ∧ ∃ k, k = min a.me.cBuffers.toNat heap.length ∧
      At a' (if k = 0 then .empty else .free a.samples.top) ∧ Grown a.samples a'.samples k ∧
      a'.me = { a.me with free_list := a'.me.free_list } ∧
      (hr = .ok → k = a.me.cBuffers.toNat)) := by
  simp only [commit] at hc
  split at hc
  · rename_i hcb; cases hc; exact .inl ⟨.inl hcb, by decide, rfl⟩
  split at hc
  · rename_i hl
    cases hc
    refine .inl ⟨.inr ?_, by decide, rfl⟩
    rintro rfl
    exact hl.elim (absurd h.lists.2) (absurd h.lists.1)
  rename_i hl
  push Not at hl
  obtain rfl : pl = .empty := by
    cases pl with
    | empty => rfl
    | free => exact absurd hl.2 h.lists.1.ne_zero
    | used => exact absurd hl.1 h.lists.2.ne_zero
  refine .inr ⟨rfl, _, rfl, ?_⟩
  generalize a.me.cBuffers.toNat = n at hc ⊢
  cases n with
  | zero =>
    cases hc
    rw [Nat.zero_min]
    exact ⟨h, .refl _, rfl, fun _ => rfl⟩
  | succ n =>
    cases heap with
    | nil => cases hc; exact ⟨h, .refl _, rfl, fun h => by cases h⟩
    | cons x heap =>
      simp only [commitFrom, Option.bind_eq_bind, Option.bind_eq_some_iff] at hc
      obtain ⟨⟨c, m₁⟩, hcr, ⟨f, nodes⟩, hadd, hc⟩ := hc
      obtain ⟨nodes', e, hone, -⟩ := addTail_null a.nodes a.samples.top
      rw [hl.2] at hadd
      cases e.symm.trans hadd
      have h₁ : At ⟨nodes, (a.samples.alloc c).2, { a.me with free_list := a.nodes.top }⟩
          (.free a.samples.top) := ⟨⟨hone, hl.1⟩, h.new_pointer, h.modified⟩
      obtain ⟨h₂, hg, hme, hok⟩ := commitFrom_free h₁ hc
      rw [List.length_cons, Nat.succ_min_succ]
      refine ⟨h₂, hg.cons (refcount_create hcr), hme, fun h => ?_⟩
      have := hok h
      omega

/-- `GetBuffer` with a sample in the free list hands it out with one more
reference. -/
theorem getBuffer_free {c : CMediaSample} (h : At a (.free p)) (hc : a.samples.read p = some c) :
    ∃ a', getBuffer a = some (some p, a') ∧ At a' (.used p) ∧ a'.samples.top = a.samples.top ∧
      (∀ b, a'.samples.read b =
        if b = p then some { c with refcount := c.refcount + 1 } else a.samples.read b) ∧
      a'.me = { a.me with free_list := 0, used_list := a'.me.used_list } := by
  obtain ⟨⟨hone, hu⟩, hnp, hmod⟩ := h
  obtain ⟨prev, hr⟩ := id hone
  obtain ⟨n₁, e₁, -⟩ := delHead_one hone
  obtain ⟨n₂, e₂, hone₂, -⟩ := addTail_null n₁ p
  obtain ⟨s₁, e₃, ht, hs₁⟩ := Store.exists_modify hc fun c => { c with refcount := c.refcount + 1 }
  refine ⟨⟨n₂, s₁, { a.me with free_list := 0, used_list := n₁.top }⟩, ?_,
    ⟨⟨rfl, hone₂⟩, hnp, hmod⟩, ht, hs₁, rfl⟩
  simp only [getBuffer, hone.ne_zero, if_false, hr, e₁, hu, e₂, e₃, hnp, Option.bind_eq_bind,
    Option.bind_some, Option.pure_def, ne_eq, not_true]

/-- Without one it fails. -/
theorem getBuffer_fail {pl : Place} (h : At a pl) (hp : ∀ p, pl ≠ .free p) :
    getBuffer a = some (none, a) := by
  refine if_pos ?_
  cases pl with
  | empty => exact h.lists.1
  | free p => exact absurd rfl (hp p)
  | used p => exact h.lists.1

/-- `ReleaseBuffer` of the used sample moves it to the free list. -/
theorem releaseBuffer_used (h : At a (.used p)) (hp : p ≠ 0) :
    ∃ a', releaseBuffer a p = some (.ok, a') ∧ At a' (.free p) ∧ a'.samples = a.samples ∧
      a'.me = { a.me with used_list := 0, free_list := a'.me.free_list } := by
  obtain ⟨⟨hf, hone⟩, hnp, hmod⟩ := h
  obtain ⟨prev, hr⟩ := id hone
  obtain ⟨n₁, e₁, -⟩ := delHead_one hone
  obtain ⟨n₂, e₂, hone₂, -⟩ := addHead_null n₁ p
  refine ⟨⟨n₂, a.samples, { a.me with used_list := 0, free_list := n₁.top }⟩, ?_,
    ⟨⟨hone₂, rfl⟩, hnp, hmod⟩, rfl, rfl⟩
  simp only [releaseBuffer, find_one hone, if_true, hone.ne_zero, if_false, hr, hmod, Ne.symm hp, e₁,
    hf, e₂, Option.bind_eq_bind, Option.bind_some, Option.pure_def]

/-- The first loop of `Decommit`. -/
theorem drainUsed_eq {pl : Place} (h : At a pl) : ∃ a', drainUsed (a.nodes.top + 1) a = some a' ∧
    At a' pl.drained ∧
    a'.samples = a.samples ∧
    a'.me = { a.me with used_list := 0, free_list := a'.me.free_list } := by
  cases pl with
  | empty =>
    obtain ⟨⟨hf, hu⟩, hnp, hmod⟩ := h
    exact ⟨a, if_pos hu, ⟨⟨hf, hu⟩, hnp, hmod⟩, rfl, by rw [← hu]⟩
  | free p =>
    obtain ⟨⟨hone, hu⟩, hnp, hmod⟩ := h
    exact ⟨a, if_pos hu, ⟨⟨hone, hu⟩, hnp, hmod⟩, rfl, by rw [← hu]⟩
  | used p =>
    obtain ⟨⟨hf, hone⟩, hnp, hmod⟩ := h
    obtain ⟨prev, hr⟩ := id hone
    obtain ⟨n₁, e₁, hone₁, hfr₁⟩ := addTail_null a.nodes p
    have hone' : One n₁ a.me.used_list p := hone.of_read (hfr₁ _ hone.ne_top)
    obtain ⟨n₂, e₂, hfr₂⟩ := delHead_one hone'
    have hone₂ : One n₂ a.nodes.top p := hone₁.of_read (hfr₂ _ (Ne.symm hone.ne_top))
    obtain ⟨n, hn⟩ := Nat.exists_eq_succ_of_ne_zero (Store.top_ne_zero (s := a.nodes))
    refine ⟨⟨n₂, a.samples, { a.me with used_list := 0, free_list := a.nodes.top }⟩, ?_,
      ⟨⟨hone₂, rfl⟩, hnp, hmod⟩, rfl, rfl⟩
    rw [drainUsed, if_neg hone.ne_zero]
    simp only [hr, hf, e₁, e₂, Option.bind_eq_bind, Option.bind_some]
    rw [hn, drainUsed]
    rfl

/-- `Decommit` destroys the sample within reach, wherever it is. -/
theorem decommit_cases {pl : Place} {ds : List Destroyed} (h : At a pl)
    (hd : decommit a m = some (ds, a', m')) :
    At a' .empty ∧ a'.me = { a.me with used_list := 0, free_list := 0 } ∧
      match pl with
      | .empty => ds = [] ∧ a'.samples = a.samples
      | .free p | .used p => ∃ c, a.samples.read p = some c ∧ ds = [⟨p, c.refcount, c.own_block⟩] ∧
          a'.samples.top = a.samples.top ∧
          ∀ b, a'.samples.read b = if b = p then none else a.samples.read b := by
  simp only [decommit, Option.bind_eq_bind, Option.bind_eq_some_iff] at hd
  obtain ⟨a₁, h₁, hd⟩ := hd
  obtain ⟨a₂, e, hat, hs, hme⟩ := drainUsed_eq h
  cases e.symm.trans h₁
  have key : ∀ q, At a₁ (.free q) → At a' .empty ∧
      a'.me = { a.me with used_list := 0, free_list := 0 } ∧
      ∃ c, a.samples.read q = some c ∧ ds = [⟨q, c.refcount, c.own_block⟩] ∧
        a'.samples.top = a.samples.top ∧
        ∀ b, a'.samples.read b = if b = q then none else a.samples.read b := by
    rintro q ⟨⟨hone, hu⟩, hnp, hmod⟩
    obtain ⟨prev, hr⟩ := id hone
    obtain ⟨n₁, e₁, -⟩ := delHead_one hone
    obtain ⟨n, hn⟩ := Nat.exists_eq_succ_of_ne_zero (Store.top_ne_zero (s := a₁.nodes))
    rw [drainFree, if_neg hone.ne_zero] at hd
    simp only [hr, e₁, cMediaSampleDestroy, hs, Option.bind_eq_bind, Option.bind_some,
      Option.bind_eq_some_iff, Option.pure_def, Option.some.injEq, Prod.mk.injEq] at hd
    obtain ⟨_, ⟨c, hc, m₁, -, s₁, hfree, rfl⟩, ⟨ds', a₃, m₃⟩, hd, rfl, rfl, rfl⟩ := hd
    rw [hn, drainFree, if_pos rfl] at hd
    cases hd
    obtain ⟨-, ht, hsr⟩ := Store.free_eq_some.mp hfree
    refine ⟨⟨⟨rfl, hu⟩, hnp, hmod⟩, ?_, c, hc, rfl, ht, hsr⟩
    rw [hme]
  cases pl with
  | empty =>
    rw [drainFree, if_pos hat.lists.1] at hd
    cases hd
    refine ⟨hat, ?_, rfl, hs⟩
    rw [hme, hat.lists.1]
  | free p => exact key p hat
  | used p => exact key p hat

/-! ## References -/

/-- A caller holds a reference to the sample. -/
def IsHeld (a : AllocState) (p : Nat) : Prop := ∃ c, a.samples.read p = some c ∧ 0 < c.refcount

instance (a : AllocState) (p : Nat) : Decidable (IsHeld a p) :=
  match h : a.samples.read p with
  | none => isFalse fun ⟨_, hc, _⟩ => by rw [h] at hc; cases hc
  | some c => decidable_of_iff (0 < c.refcount)
      ⟨fun hc => ⟨c, h, hc⟩, fun ⟨_, hd, hc⟩ => by rw [h] at hd; cases hd; exact hc⟩

/-- The references of the samples: only the used one has any. -/
structure Held (a : AllocState) (pl : Place) : Prop where
  there : ∀ p ∈ pl.toList, ∃ c, a.samples.read p = some c
  counts : ∀ p c, a.samples.read p = some c → if pl = .used p then 0 < c.refcount else c.refcount = 0

/-- One sample is written, and the properties stay. -/
structure Writes (a a' : AllocState) (p : Nat) (c c' : CMediaSample) : Prop where
  was : a.samples.read p = some c
  top_eq : a'.samples.top = a.samples.top
  read_eq : ∀ b, a'.samples.read b = if b = p then some c' else a.samples.read b
  cbBuffer_eq : a'.me.cbBuffer = a.me.cbBuffer

/-- A sample that is held is the used one. -/
theorem Held.used {pl : Place} (h : Held a pl) (hp : IsHeld a p) : pl = .used p := by
  obtain ⟨c, hc, hpos⟩ := hp
  have := h.counts p c hc
  split at this
  · assumption
  · omega

/-- The one sample within reach moved or counted anew. -/
theorem Held.writes {pl pl' : Place} {c c' : CMediaSample} (h : Held a pl) (hp : pl.toList = [p])
    (hp' : pl'.toList = [p]) (hw : Writes a a' p c c')
    (hc : if pl' = .used p then 0 < c'.refcount else c'.refcount = 0) : Held a' pl' := by
  have hused : ∀ {q : Place} {b : Nat}, q.toList = [p] → q = .used b → b = p := by
    rintro q b hq rfl
    exact List.singleton_inj.mp hq
  refine ⟨fun q hq => ?_, fun b d hd => ?_⟩
  · rw [hp', List.mem_singleton] at hq
    exact ⟨c', by rw [hw.read_eq, if_pos hq]⟩
  · rw [hw.read_eq] at hd
    by_cases hb : b = p
    · rw [if_pos hb, Option.some.injEq] at hd
      subst hb hd
      exact hc
    · rw [if_neg hb] at hd
      have := h.counts b d hd
      rw [if_neg fun he => hb (hused hp he)] at this
      rwa [if_neg fun he => hb (hused hp' he)]

/-- `GetBuffer` takes the free sample, if there is one. -/
theorem getBuffer_cases {pl : Place} {r : Option Nat} (hat : At a pl) (hh : Held a pl)
    (hg : getBuffer a = some (r, a')) :
    (∃ p c, pl = .free p ∧ r = some p ∧ Writes a a' p c { c with refcount := c.refcount + 1 } ∧
      At a' (.used p) ∧ Held a' (.used p)) ∨
    ((∀ p, pl ≠ .free p) ∧ r = none ∧ a' = a) := by
  cases pl with
  | free p =>
    obtain ⟨c, hc⟩ := hh.there p List.mem_cons_self
    obtain ⟨_, e, hat', htop, hr, hme⟩ := getBuffer_free hat hc
    cases e.symm.trans hg
    have hw : Writes a a' p c { c with refcount := c.refcount + 1 } := ⟨hc, htop, hr, by rw [hme]⟩
    have h0 : c.refcount = 0 := by simpa using hh.counts p c hc
    refine .inl ⟨p, c, rfl, rfl, hw, hat', hh.writes rfl rfl hw ?_⟩
    rw [if_pos rfl]; show 0 < c.refcount + 1; omega
  | _ =>
    cases (getBuffer_fail hat fun _ h => by cases h).symm.trans hg
    exact .inr ⟨fun _ => nofun, rfl, rfl⟩

theorem sampleAddRef_cases {pl : Place} (hat : At a pl) (hh : Held a pl) (hp : IsHeld a p)
    (hs : sampleAddRef a p = some a') :
    ∃ c, pl = .used p ∧ Writes a a' p c { c with refcount := c.refcount + 1 } ∧ At a' (.used p) ∧
      Held a' (.used p) := by
  obtain rfl := hh.used hp
  simp only [sampleAddRef, Option.map_eq_some_iff] at hs
  obtain ⟨samples, hm, rfl⟩ := hs
  obtain ⟨c, hc, htop, hr⟩ := Store.modify_eq_some.mp hm
  have hw : Writes a { a with samples := samples } p c { c with refcount := c.refcount + 1 } :=
    ⟨hc, htop, hr, rfl⟩
  have hpos : 0 < c.refcount := by simpa using hh.counts p c hc
  refine ⟨c, rfl, hw, ⟨hat.lists, hat.new_pointer, hat.modified⟩, hh.writes rfl rfl hw ?_⟩
  rw [if_pos rfl]; show 0 < c.refcount + 1; omega

/-- The last `Release` of a sample puts it into the free list. -/
theorem sampleRelease_cases {pl : Place} (hat : At a pl) (hh : Held a pl) (hp : IsHeld a p)
    (hs : sampleRelease a p = some a') :
    ∃ c, pl = .used p ∧ Writes a a' p c { c with refcount := c.refcount - 1 } ∧
      At a' (if c.refcount = 1 then .free p else .used p) ∧
      Held a' (if c.refcount = 1 then .free p else .used p) := by
  obtain rfl := hh.used hp
  simp only [sampleRelease, Option.bind_eq_bind, Option.bind_eq_some_iff] at hs
  obtain ⟨c, hc, samples, hm, hrel⟩ := hs
  obtain ⟨c', hc', htop, hr⟩ := Store.modify_eq_some.mp hm
  cases hc.symm.trans hc'
  have hpos : 0 < c.refcount := by simpa using hh.counts p c hc
  have hat' : At { a with samples := samples } (.used p) := ⟨hat.lists, hat.new_pointer, hat.modified⟩
  refine ⟨c, rfl, ?_⟩
  split at hrel
  · rename_i h0
    obtain ⟨b, e, hat₂, hsm, hme⟩ := releaseBuffer_used hat' (Store.ne_zero_of_read hc)
    simp only [e, Option.bind_some, Option.pure_def, Option.some.injEq] at hrel
    obtain rfl : b = a' := hrel
    change b.samples = samples at hsm
    have hw : Writes a b p c { c with refcount := c.refcount - 1 } :=
      ⟨hc, hsm ▸ htop, hsm ▸ hr, by rw [hme]⟩
    rw [if_pos (show c.refcount = 1 by omega)]
    exact ⟨hw, hat₂, hh.writes rfl rfl hw (by rw [if_neg (by simp)]; exact h0)⟩
  · rename_i h0
    simp only [Option.pure_def, Option.some.injEq] at hrel
    subst hrel
    have hw : Writes a { a with samples := samples } p c { c with refcount := c.refcount - 1 } :=
      ⟨hc, htop, hr, rfl⟩
    rw [if_neg (show c.refcount ≠ 1 by omega)]
    refine ⟨hw, hat', hh.writes rfl rfl hw ?_⟩
    rw [if_pos rfl]; show 0 < c.refcount - 1; omega

end DShow.Alloc
