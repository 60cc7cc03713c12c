import DShowServer.Decoder.Format
import DShowServer.Framework.Store

/-!
# Copies of media types

`mediatype.c`: a media type holds a reference to an interface and a block of the
heap with its format. `CopyMediaType` gives the copy a reference and a block of its
own, and `FreeMediaType` gives both back. A type without a format block is copied
before the reference is taken, so that its copy gives back the source's
(`copyBalanced_iff`, `createBalanced_iff`).
-/

namespace DShow.Decoder

/-- `AM_MEDIA_TYPE`, with its pointers. -/
structure MediaType where
  majortype : Guid
  subtype : Guid
  bFixedSizeSamples : Int
  bTemporalCompression : Int
  lSampleSize : Nat
  formattype : Guid
  pUnk : Nat
  cbFormat : Nat
  pbFormat : Nat
deriving DecidableEq

/-- The media types and the format blocks that there are, and how often each interface is referred
to. -/
structure Heap where
  types : Store MediaType
  blocks : Store (List UInt8)
  refs : Nat → Int

namespace Heap

variable (h : Heap)

/-- `pUnk->vt->AddRef(pUnk)`. -/
def addRef (pUnk : Nat) : Heap := { h with refs := Function.update h.refs pUnk (h.refs pUnk + 1) }

/-- `pUnk->vt->Release(pUnk)`. -/
def release (pUnk : Nat) : Heap := { h with refs := Function.update h.refs pUnk (h.refs pUnk - 1) }

@[simp] theorem addRef_refs_self (pUnk : Nat) : (h.addRef pUnk).refs pUnk = h.refs pUnk + 1 :=
  Function.update_self ..

@[simp] theorem release_refs_self (pUnk : Nat) : (h.release pUnk).refs pUnk = h.refs pUnk - 1 :=
  Function.update_self ..

/-- The media type at an address changed. -/
def modifyType (p : Nat) (f : MediaType → MediaType) : Option Heap := do
  let types ← h.types.modify p f
  pure { h with types }

end Heap

def sOk : BitVec 32 := 0
def sFalse : BitVec 32 := 1
def ePointer : BitVec 32 := 0x80004003
def eOutOfMemory : BitVec 32 := 0x8007000E
def eInvalidArg : BitVec 32 := 0x80070057

/-- `FAILED`. -/
def failed (hr : BitVec 32) : Bool := hr.toInt < 0

/-! ## The functions -/

/-- `CopyMediaType`, where `mem` says whether there is memory for the format block; `none` where a
pointer leads nowhere. -/
def copyMediaType (mem : Bool) (h : Heap) (pDest pSrc : Nat) : Option (BitVec 32 × Heap) :=
  if pSrc = 0 ∨ pDest = 0 then some (ePointer, h)
  else if pSrc = pDest then some (eInvalidArg, h)
  else do
    let src ← h.types.read pSrc
    if src.pbFormat = 0 ∧ src.cbFormat ≠ 0 then pure (ePointer, h)
    else
      let h ← h.modifyType pDest fun _ => src
      -- the reference is not taken here, though `pUnk` is copied
      if src.pbFormat = 0 then pure (sOk, h)
      else if ¬ mem then
        let h ← h.modifyType pDest ({ · with pbFormat := 0 })
        pure (eOutOfMemory, h)
      else
        let format ← h.blocks.read src.pbFormat
        if format.length < src.cbFormat then none
        else
          let (pbFormat, blocks) := h.blocks.alloc (format.take src.cbFormat)
          let h ← { h with blocks }.modifyType pDest ({ · with pbFormat })
          pure (sOk, if src.pUnk = 0 then h else h.addRef src.pUnk)

/-- `CoTaskMemFree` of a format block, if there is one. -/
def Heap.freeFormat (h : Heap) (pbFormat : Nat) : Option Heap :=
  if pbFormat = 0 then some h
  else do
    let blocks ← h.blocks.free pbFormat
    pure { h with blocks }

/-- `FreeMediaType`. -/
def freeMediaType (h : Heap) (pMediaType : Nat) : Option Heap :=
  if pMediaType = 0 then some h
  else do
    let t ← h.types.read pMediaType
    let h ← h.freeFormat t.pbFormat
    let h ← h.modifyType pMediaType ({ · with pbFormat := 0, pUnk := 0 })
    pure (if t.pUnk = 0 then h else h.release t.pUnk)

/-- `CreateMediaType`, where `memType` says whether there is memory for the structure, and `init` what
is in it. -/
def createMediaType (memType mem : Bool) (init : MediaType) (h : Heap) (pSrc : Nat) :
    Option (Nat × Heap) :=
  if pSrc = 0 then some (0, h)
  else if ¬ memType then some (0, h)
  else do
    let (pDest, types) := h.types.alloc init
    let (hr, h) ← copyMediaType mem { h with types } pDest pSrc
    if failed hr then
      let types ← h.types.free pDest
      pure (0, { h with types })
    else pure (pDest, h)

/-! ## What a copy owns -/

/-- A media type that is there, with its format block if it has one. -/
structure Heap.Holds (h : Heap) (p : Nat) (t : MediaType) : Prop where
  type : h.types.read p = some t
  format : t.pbFormat ≠ 0 → ∃ bytes, h.blocks.read t.pbFormat = some bytes ∧ t.cbFormat ≤ bytes.length

/-- A copy with a reference and a format block of its own, of equal bytes. -/
structure Owns (h h' : Heap) (src copy : MediaType) : Prop where
  fields : copy = { src with pbFormat := copy.pbFormat }
  ref : src.pUnk ≠ 0 → h'.refs src.pUnk = h.refs src.pUnk + 1
  no_format : src.pbFormat = 0 → copy.pbFormat = 0
  format : src.pbFormat ≠ 0 → h.blocks.read copy.pbFormat = none ∧ ∃ bytes,
    h.blocks.read src.pbFormat = some bytes ∧ h'.blocks.read src.pbFormat = some bytes ∧
    h'.blocks.read copy.pbFormat = some (bytes.take src.cbFormat)

/-- As often as before. -/
def SameRefs (h h' : Heap) (src : MediaType) : Prop := src.pUnk ≠ 0 → h'.refs src.pUnk = h.refs src.pUnk

/-- What a successful copy owns, it gives back when it is freed. -/
def Frees (h h' : Heap) (src : MediaType) (pDest : Nat) : Prop :=
  ∃ copy h'', h'.types.read pDest = some copy ∧ Owns h h' src copy ∧
    freeMediaType h' pDest = some h'' ∧ SameRefs h h'' src

def CopyBalanced (mem : Bool) (h : Heap) (pDest pSrc : Nat) (src : MediaType) : Prop :=
  ∃ hr h', copyMediaType mem h pDest pSrc = some (hr, h') ∧
    if failed hr then SameRefs h h' src else Frees h h' src pDest

def CreateBalanced (memType mem : Bool) (init : MediaType) (h : Heap) (pSrc : Nat) (src : MediaType) : Prop :=
  ∃ pDest h', createMediaType memType mem init h pSrc = some (pDest, h') ∧
    if pDest = 0 then SameRefs h h' src else Frees h h' src pDest

/-- With a format block, or without one but with bytes counted for it, or without an interface. -/
def MediaType.Sound (t : MediaType) : Prop := t.pbFormat ≠ 0 ∨ t.cbFormat ≠ 0 ∨ t.pUnk = 0

instance (t : MediaType) : Decidable t.Sound := inferInstanceAs (Decidable (_ ∨ _ ∨ _))

variable {h h' : Heap} {src : MediaType} {pSrc pDest : Nat} {mem : Bool}

theorem exists_modifyType {p : Nat} {t : MediaType} (ht : h.types.read p = some t) (f : MediaType → MediaType) :
    ∃ h', h.modifyType p f = some h' ∧ h'.types.read p = some (f t) ∧
      (∀ q, q ≠ p → h'.types.read q = h.types.read q) ∧ h'.blocks = h.blocks ∧ h'.refs = h.refs := by
  obtain ⟨types, hmod, -, hread⟩ := Store.exists_modify ht f
  refine ⟨{ h with types }, ?_, ?_, fun q hq => ?_, rfl, rfl⟩
  · simp [Heap.modifyType, hmod]
  · rw [hread, if_pos rfl]
  · rw [hread, if_neg hq]

/-- The ways in which a copy into another structure ends. -/
inductive CopyEnd (mem : Bool) (h : Heap) (src : MediaType) (pDest : Nat) : BitVec 32 → Heap → Prop
  | refused (hf : src.pbFormat = 0) (hc : src.cbFormat ≠ 0) : CopyEnd mem h src pDest ePointer h
  | plain {h' : Heap} (hf : src.pbFormat = 0) (hc : src.cbFormat = 0) (ht : h'.types.read pDest = some src)
      (hb : h'.blocks = h.blocks) (hr : h'.refs = h.refs) : CopyEnd mem h src pDest sOk h'
  | noMemory {h' : Heap} (hf : src.pbFormat ≠ 0) (hm : mem = false)
      (ht : h'.types.read pDest = some { src with pbFormat := 0 }) (hb : h'.blocks = h.blocks)
      (hr : h'.refs = h.refs) : CopyEnd mem h src pDest eOutOfMemory h'
  | format {h' : Heap} {bytes : List UInt8} (hf : src.pbFormat ≠ 0) (hm : mem = true)
      (hs : h.blocks.read src.pbFormat = some bytes)
      (ht : h'.types.read pDest = some { src with pbFormat := h.blocks.top })
      (hb : h'.blocks = (h.blocks.alloc (bytes.take src.cbFormat)).2)
      (hr : h'.refs = if src.pUnk = 0 then h.refs else (h.addRef src.pUnk).refs) :
      CopyEnd mem h src pDest sOk h'

theorem copy_ends (mem : Bool) (hsrc : h.Holds pSrc src) {d : MediaType} (hdest : h.types.read pDest = some d)
    (hne : pSrc ≠ pDest) : ∃ hr h', copyMediaType mem h pDest pSrc = some (hr, h') ∧
      CopyEnd mem h src pDest hr h' := by
  have hsrc0 := Store.ne_zero_of_read hsrc.type
  have hdest0 := Store.ne_zero_of_read hdest
  obtain ⟨h₁, hmod, ht₁, -, hb₁, hr₁⟩ := exists_modifyType hdest fun _ => src
  rw [copyMediaType, if_neg (by simp [hsrc0, hdest0]), if_neg hne, hsrc.type]
  simp only [Option.pure_def, Option.bind_eq_bind, Option.bind_some]
  by_cases hf : src.pbFormat = 0
  · by_cases hc : src.cbFormat = 0
    · rw [if_neg (by simp [hc]), hmod]
      simp only [Option.bind_some, if_pos hf]
      exact ⟨_, _, rfl, .plain hf hc ht₁ hb₁ hr₁⟩
    · rw [if_pos ⟨hf, hc⟩]
      exact ⟨_, _, rfl, .refused hf hc⟩
  · obtain ⟨bytes, hs, hlen⟩ := hsrc.format hf
    rw [if_neg (by simp [hf]), hmod]
    simp only [Option.bind_some, if_neg hf]
    cases mem with
    | false =>
      obtain ⟨h₂, hmod₂, ht₂, -, hb₂, hr₂⟩ := exists_modifyType ht₁ ({ · with pbFormat := 0 })
      simp only [Bool.false_eq_true, not_false_eq_true, if_true, hmod₂, Option.bind_some]
      exact ⟨_, _, rfl, .noMemory hf rfl ht₂ (hb₂.trans hb₁) (hr₂.trans hr₁)⟩
    | true =>
      obtain ⟨h₂, hmod₂, ht₂, -, hb₂, hr₂⟩ :=
        exists_modifyType (h := { h₁ with blocks := (h.blocks.alloc (bytes.take src.cbFormat)).2 })
          ht₁ ({ · with pbFormat := h.blocks.top })
      simp only [not_true, if_false, hb₁, hs, Option.bind_some, if_neg (Nat.not_lt.mpr hlen),
        Store.alloc_fst, hmod₂]
      refine ⟨_, _, rfl, .format hf rfl hs ?_ ?_ ?_⟩
      · split <;> exact ht₂
      · split <;> exact hb₂
      · have hrefs : h₂.refs = h.refs := hr₂.trans hr₁
        split
        · exact hrefs
        · simp only [Heap.addRef, hrefs]

/-- A media type that holds nothing it does not own is freed, and its reference given back. -/
theorem exists_free {copy : MediaType} (ht : h.types.read pDest = some copy)
    (hf : copy.pbFormat ≠ 0 → ∃ bytes, h.blocks.read copy.pbFormat = some bytes) :
    ∃ h', freeMediaType h pDest = some h' ∧
      h'.refs = if copy.pUnk = 0 then h.refs else (h.release copy.pUnk).refs := by
  obtain ⟨h₁, hfree, ht₁, hr₁⟩ : ∃ h₁, h.freeFormat copy.pbFormat = some h₁ ∧
      h₁.types.read pDest = some copy ∧ h₁.refs = h.refs := by
    by_cases hp : copy.pbFormat = 0
    · exact ⟨h, if_pos hp, ht, rfl⟩
    · obtain ⟨bytes, hbytes⟩ := hf hp
      obtain ⟨blocks, hblocks, -⟩ := Store.exists_free hbytes
      refine ⟨{ h with blocks }, ?_, ht, rfl⟩
      simp [Heap.freeFormat, hp, hblocks]
  obtain ⟨h₂, hmod, -, -, -, hr₂⟩ := exists_modifyType ht₁ ({ · with pbFormat := 0, pUnk := 0 })
  have hrefs : h₂.refs = h.refs := hr₂.trans hr₁
  rw [freeMediaType, if_neg (Store.ne_zero_of_read ht), ht]
  simp only [Option.pure_def, Option.bind_eq_bind, Option.bind_some, hfree, hmod]
  refine ⟨_, rfl, ?_⟩
  split
  · exact hrefs
  · simp only [Heap.release, hrefs]

/-- A copy into another structure, and its end. -/
theorem CopyEnd.balanced_iff {hr : BitVec 32} (hend : CopyEnd mem h src pDest hr h') :
    (if failed hr then SameRefs h h' src else Frees h h' src pDest) ↔ src.Sound := by
  cases hend with
  | refused hf hc =>
    rw [if_pos (by decide)]
    exact iff_of_true (fun _ => rfl) (.inr (.inl hc))
  | noMemory hf hm ht hb hr =>
    rw [if_pos (by decide)]
    exact iff_of_true (fun _ => by rw [hr]) (.inl hf)
  | plain hf hc ht hb hr =>
    rw [if_neg (by decide)]
    constructor
    · rintro ⟨copy, h'', hcopy, hown, -⟩
      refine .inr (.inr ?_)
      by_contra hp
      have := hown.ref hp
      rw [hr] at this
      omega
    · rintro (hp | hp | hp)
      · exact absurd hf hp
      · exact absurd hc hp
      · obtain ⟨h'', hfree, hr'⟩ := exists_free (h := h') ht fun hp => absurd hf hp
        exact ⟨src, h'', ht, ⟨rfl, fun h => absurd hp h, fun _ => hf, fun h => absurd hf h⟩, hfree,
          fun h => absurd hp h⟩
  | @format _ bytes hf hm hs ht hb hr =>
    rw [if_neg (by decide)]
    refine iff_of_true ?_ (.inl hf)
    have hnew : ∀ q, h'.blocks.read q =
        if q = h.blocks.top then some (bytes.take src.cbFormat) else h.blocks.read q := fun q => by
      rw [hb, Store.read_alloc]
    obtain ⟨h'', hfree, hr'⟩ := exists_free (h := h') ht fun _ => ⟨_, by rw [hnew, if_pos rfl]⟩
    refine ⟨_, h'', ht, ⟨rfl, fun hp => ?_, fun hp => absurd hp hf, fun _ => ?_⟩, hfree, fun hp => ?_⟩
    · rw [hr, if_neg hp, Heap.addRef_refs_self]
    · refine ⟨Store.read_top, bytes, hs, ?_, by rw [hnew, if_pos rfl]⟩
      rw [hnew, if_neg (Store.ne_top_of_read hs), hs]
    · rw [hr', if_neg hp, Heap.release_refs_self, hr, if_neg hp, Heap.addRef_refs_self, Int.add_sub_cancel]

/-- What holds of some result holds of the one there is. -/
theorem exists_eq_some_iff {α β : Type*} {o : Option (α × β)} {x : α} {y : β} (ho : o = some (x, y))
    {P : α → β → Prop} : (∃ a b, o = some (a, b) ∧ P a b) ↔ P x y := by
  subst ho
  constructor
  · rintro ⟨a, b, e, hp⟩
    cases e
    exact hp
  · exact fun hp => ⟨x, y, rfl, hp⟩

/-- A copy takes what its release gives back, unless it is one of a type without a format block
that has an interface. -/
theorem copyBalanced_iff (mem : Bool) (hsrc : h.Holds pSrc src)
    (hdest : pDest = 0 ∨ ∃ d, h.types.read pDest = some d) :
    CopyBalanced mem h pDest pSrc src ↔ src.Sound ∨ pDest = 0 ∨ pDest = pSrc := by
  have hrefuse : ∀ hr, failed hr → copyMediaType mem h pDest pSrc = some (hr, h) →
      CopyBalanced mem h pDest pSrc src := fun hr hf hcopy =>
    ⟨hr, h, hcopy, by rw [if_pos hf]; exact fun _ => rfl⟩
  by_cases h0 : pDest = 0
  · refine iff_of_true (hrefuse ePointer (by decide) ?_) (.inr (.inl h0))
    rw [copyMediaType, if_pos (.inr h0)]
  obtain ⟨d, hd⟩ := hdest.resolve_left h0
  by_cases hsame : pSrc = pDest
  · refine iff_of_true (hrefuse eInvalidArg (by decide) ?_) (.inr (.inr hsame.symm))
    rw [copyMediaType, if_neg (not_or.mpr ⟨Store.ne_zero_of_read hsrc.type, h0⟩), if_pos hsame]
  obtain ⟨hr, h', hcopy, hend⟩ := copy_ends mem hsrc hd hsame
  rw [or_iff_left (not_or.mpr ⟨h0, Ne.symm hsame⟩), ← hend.balanced_iff]
  exact exists_eq_some_iff hcopy

/-- The structure of a copy that failed is there to be freed. -/
theorem CopyEnd.type {hr : BitVec 32} (hend : CopyEnd mem h src pDest hr h') {d : MediaType}
    (hd : h.types.read pDest = some d) : ∃ t, h'.types.read pDest = some t := by
  cases hend with
  | refused => exact ⟨d, hd⟩
  | plain _ _ ht | noMemory _ _ ht | format _ _ _ ht => exact ⟨_, ht⟩

/-- `CreateMediaType` with memory for the structure ends as the copy into it does. -/
theorem create_ends (mem : Bool) (init : MediaType) (hsrc : h.Holds pSrc src) : ∃ hr h' p h'',
    CopyEnd mem { h with types := (h.types.alloc init).2 } src h.types.top hr h' ∧
      createMediaType true mem init h pSrc = some (p, h'') ∧
      if failed hr then p = 0 ∧ h''.refs = h'.refs else p = h.types.top ∧ h'' = h' := by
  have hdest : (h.types.alloc init).2.read h.types.top = some init := by
    rw [Store.read_alloc, if_pos rfl]
  have hne := Store.ne_top_of_read hsrc.type
  have hsrc₀ : { h with types := (h.types.alloc init).2 }.Holds pSrc src :=
    ⟨by rw [Store.read_alloc, if_neg hne, hsrc.type], hsrc.format⟩
  obtain ⟨hr, h', hcopy, hend⟩ := copy_ends mem hsrc₀ hdest hne
  rw [createMediaType, if_neg (Store.ne_zero_of_read hsrc.type), if_neg (by decide)]
  simp only [Option.pure_def, Option.bind_eq_bind, Store.alloc_fst, hcopy, Option.bind_some]
  by_cases hf : failed hr
  · obtain ⟨t, ht⟩ := hend.type hdest
    obtain ⟨types, hfree, -⟩ := Store.exists_free ht
    refine ⟨hr, h', 0, { h' with types }, hend, ?_, ?_⟩
    · rw [if_pos hf, hfree, Option.bind_some]
    · rw [if_pos hf]
      exact ⟨rfl, rfl⟩
  · refine ⟨hr, h', h.types.top, h', hend, if_neg hf, ?_⟩
    rw [if_neg hf]
    exact ⟨rfl, rfl⟩

/-- What a copy owns does not depend on the other structures. -/
theorem frees_types (types : Store MediaType) : Frees { h with types } h' src pDest ↔ Frees h h' src pDest :=
  ⟨fun ⟨copy, h'', ht, ⟨hs, hr, hn, hf⟩, hrest⟩ => ⟨copy, h'', ht, ⟨hs, hr, hn, hf⟩, hrest⟩,
    fun ⟨copy, h'', ht, ⟨hs, hr, hn, hf⟩, hrest⟩ => ⟨copy, h'', ht, ⟨hs, hr, hn, hf⟩, hrest⟩⟩

/-- So it is with a copy into a structure that `CreateMediaType` allocates. -/
theorem createBalanced_iff (memType mem : Bool) (init : MediaType) (hsrc : h.Holds pSrc src) :
    CreateBalanced memType mem init h pSrc src ↔ src.Sound ∨ memType = false := by
  cases memType with
  | false =>
    refine iff_of_true ⟨0, h, ?_, ?_⟩ (.inr rfl)
    · rw [createMediaType, if_neg (Store.ne_zero_of_read hsrc.type), if_pos (by decide)]
    · rw [if_pos rfl]
      exact fun _ => rfl
  | true =>
    obtain ⟨hr, h', p, h'', hend, hcreate, hp⟩ := create_ends mem init hsrc
    have hbal : (if p = 0 then SameRefs h h'' src else Frees h h'' src p) ↔ src.Sound := by
      rw [← hend.balanced_iff]
      by_cases hf : failed hr
      · rw [if_pos hf] at hp ⊢
        obtain ⟨rfl, hrefs⟩ := hp
        rw [if_pos rfl, SameRefs, SameRefs, hrefs]
      · rw [if_neg hf] at hp ⊢
        obtain ⟨rfl, rfl⟩ := hp
        rw [if_neg Store.top_ne_zero]
        exact (frees_types _).symm
    rw [or_iff_left (by decide), ← hbal]
    exact exists_eq_some_iff hcreate

/-- Both ways to copy are balanced unless the source has an interface and no format block. -/
theorem mediaType_balanced_iff (memType mem : Bool) (init : MediaType) (hsrc : h.Holds pSrc src)
    (hdest : pDest = 0 ∨ ∃ d, h.types.read pDest = some d) :
    (CopyBalanced mem h pDest pSrc src ↔ src.Sound ∨ pDest = 0 ∨ pDest = pSrc) ∧
      (CreateBalanced memType mem init h pSrc src ↔ src.Sound ∨ memType = false) :=
  ⟨copyBalanced_iff mem hsrc hdest, createBalanced_iff memType mem init hsrc⟩

/-- A type of a video, with as much of the rest as is given. -/
def videoType (pUnk cbFormat pbFormat : Nat) : MediaType where
  majortype := mediatypeVideo
  subtype := subtypeYuy2
  bFixedSizeSamples := 1
  bTemporalCompression := 0
  lSampleSize := 1
  formattype := formatVideoInfo2
  pUnk := pUnk
  cbFormat := cbFormat
  pbFormat := pbFormat

/-- A source at 1 and a destination at 2, with a block of two bytes and one reference to each
interface. -/
def twoTypes (src : MediaType) : Heap where
  types := ((Store.empty.alloc src).2.alloc (videoType 0 0 0)).2
  blocks := (Store.empty.alloc [0x28, 0x00]).2
  refs := fun _ => 1

theorem twoTypes_holds (pUnk : Nat) : (twoTypes (videoType pUnk 2 1)).Holds 1 (videoType pUnk 2 1) :=
  ⟨rfl, fun _ => ⟨[0x28, 0x00], rfl, Nat.le_refl 2⟩⟩

theorem mediaType_balanced_block : CopyBalanced true (twoTypes (videoType 1 2 1)) 2 1 (videoType 1 2 1) ∧
    CreateBalanced true true (videoType 0 0 0) (twoTypes (videoType 1 2 1)) 1 (videoType 1 2 1) := by
  obtain ⟨hcopy, hcreate⟩ := mediaType_balanced_iff true true (videoType 0 0 0) (twoTypes_holds 1)
    (.inr ⟨_, rfl⟩ : 2 = 0 ∨ ∃ dst, (twoTypes (videoType 1 2 1)).types.read 2 = some dst)
  exact ⟨hcopy.mpr (.inl (by decide)), hcreate.mpr (.inl (by decide))⟩

/-- An interface and no format block: the one reference to it is given back with the copy. -/
theorem not_mediaType_balanced : ¬ CopyBalanced true (twoTypes (videoType 1 0 0)) 2 1 (videoType 1 0 0) ∧
    ¬ CreateBalanced true true (videoType 0 0 0) (twoTypes (videoType 1 0 0)) 1 (videoType 1 0 0) := by
  have hsrc : (twoTypes (videoType 1 0 0)).Holds 1 (videoType 1 0 0) := ⟨rfl, fun h => absurd rfl h⟩
  rw [copyBalanced_iff true hsrc (.inr ⟨_, rfl⟩), createBalanced_iff true true _ hsrc]
  decide

example : ((copyMediaType true (twoTypes (videoType 1 0 0)) 2 1).bind fun r =>
    (freeMediaType r.2 2).map (·.refs 1)) = some 0 := by decide +kernel

end DShow.Decoder
