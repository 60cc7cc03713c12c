import DShowServer.Framework.Cyclic
import DShowServer.Pool.Blocks

/-!
# The ring of finished frames (`sampleProcData`)

The codec hands its pictures to `DS_Filter_CopySample`, which notes them in a
ring of `PD_MAX_FRAMES` slots; each decode command answers the slot at
`lastFrame`, and the next one frees it. What the functions do to the slots is
stated on the list of the occupied slots, oldest first:

* `copySample_cases`: a delivery adds its frame at the end, dropping the last one
  if all slots are occupied;
* `decodeInternal_cases`: a decode command marks the first frame sent;
* `freeFrame_cases`: `DS_VideoDecoder_FreeFrame` removes it.
-/

namespace DShow.Ring

open Pool Cyclic

/-- The `state` of a slot: 0, `PD_SET` (0x01) or `PD_SENT` (0x02). -/
inductive FrameState
  | free
  | set
  | sent
deriving DecidableEq

/-- `SampleProcUserFrame`. -/
structure SampleProcUserFrame where
  frame_pointer : Nat
  frame_size : Int
  state : FrameState
  interlace : Nat
  pts_nsec : Nat
deriving DecidableEq

/-- `PD_MAX_FRAMES`. -/
def pdMaxFrames : Nat := 10

/-- `SampleProcUserData`. -/
structure SampleProcUserData where
  lastFrame : Nat
  frame : Nat → SampleProcUserFrame

/-- What the methods of a media sample answer: the interlace flags of its media
type if `GetMediaType` returns a `VideoInfo2` one, the pointer if `GetPointer`
succeeds, the two lengths and the start time. -/
structure MediaSample where
  interlaceFlags : Option Nat
  pointer : Option Nat
  actualDataLength : Int
  size : Int
  timeStart : Nat

namespace SampleProcUserData

/-- `memset(&sampleProcData, 0, sizeof(sampleProcData))`. -/
def zero : SampleProcUserData := ⟨0, fun _ => ⟨0, 0, .free, 0, 0⟩⟩

/-- The search of `DS_Filter_CopySample` for a slot, from slot `i` on. -/
def findSlotFrom (r : SampleProcUserData) : Nat → Nat → Option Nat
  | 0, _ => none
  | room + 1, i =>
    if (r.frame i).state = .free then some i
    else if (i + 1) % pdMaxFrames = r.lastFrame then some i
    else findSlotFrom r room ((i + 1) % pdMaxFrames)

def findSlot (r : SampleProcUserData) : Option Nat := r.findSlotFrom pdMaxFrames r.lastFrame

def setFrame (r : SampleProcUserData) (i : Nat) (f : SampleProcUserFrame) : SampleProcUserData :=
  { r with frame := Function.update r.frame i f }

/-- The slot at `lastFrame`. -/
def last (r : SampleProcUserData) : SampleProcUserFrame := r.frame r.lastFrame

end SampleProcUserData

open SampleProcUserData

/-- What a client is told of a frame: where it lies, how long it is and its
time. -/
structure Picture where
  pointer : Nat
  size : Int
  pts : Nat
deriving DecidableEq

def SampleProcUserFrame.picture (f : SampleProcUserFrame) : Picture :=
  ⟨f.frame_pointer, f.frame_size, f.pts_nsec⟩

/-- What `DS_Filter_CopySample` reads of the media type, before it asks for
the pointer. -/
def SampleProcUserFrame.setInterlace (f : SampleProcUserFrame) (s : MediaSample) :
    SampleProcUserFrame :=
  match s.interlaceFlags with
  | some flags => { f with interlace := flags }
  | none => f

/-- The length a frame is noted with. -/
def MediaSample.len (s : MediaSample) : Int :=
  if s.actualDataLength = 0 then s.size else s.actualDataLength

/-- The picture of a sample whose pointer is known. -/
def MediaSample.picture (s : MediaSample) (pointer : Nat) : Picture := ⟨pointer, s.len, s.timeStart⟩

/-- `DS_Filter_CopySample`: the HRESULT, the ring and the pool after it. -/
def copySample (r : SampleProcUserData) (m : MemStruct) (s : MediaSample) :
    Option (Nat × SampleProcUserData × MemStruct) :=
  r.findSlot.bind fun i =>
    let f := (r.frame i).setInterlace s
    match s.pointer with
    | none => some (1, r.setFrame i f, m)
    | some pointer =>
      (m.memstructSetlock pointer 1).map fun m' =>
        (0, r.setFrame i { f with
          pts_nsec := s.timeStart, frame_pointer := pointer, frame_size := s.len, state := .set }, m')

/-- `DS_VideoDecoder_GetPTS`. -/
def getPTS (r : SampleProcUserData) : Nat := r.last.pts_nsec

/-- `DS_VideoDecoder_FreeFrame`. -/
def freeFrame (r : SampleProcUserData) (m : MemStruct) : Option (SampleProcUserData × MemStruct) :=
  if r.last.state = .sent then
    (m.memstructSetlock r.last.frame_pointer 0).map fun m' =>
      ({ r.setFrame r.lastFrame { r.last with state := .free } with
          lastFrame := (r.lastFrame + 1) % pdMaxFrames }, m')
  else some (r, m)

/-- `DS_VideoDecoder_DecodeInternal`, with what `Receive` delivered already in
the ring: the reply word and the ring. `input` is whether the input allocator
gave a sample. Without a page number the picture is copied from
`frame_pointer` to the picture area. -/
def decodeInternal (input : Bool) (r : SampleProcUserData) (m : MemStruct) :
    Option (BitVec 32 × SampleProcUserData) :=
  if input = false then some (-1, r)
  else if r.last.state = .set then
    (m.getMemstructPagenum r.last.frame_pointer).map fun page =>
      let ret : BitVec 32 := if page ≠ -1 then 0x02 ||| (BitVec.ofInt 32 page <<< 8) else 0
      let ret := ret ||| 0x01
      (if r.last.interlace ≠ 0 then ret ||| 0x10 else ret,
        r.setFrame r.lastFrame { r.last with state := .sent })
  else some (0, r)

/-! ## The occupied slots -/

/-- A slot as deliveries and commands see it; the interlace flags are only
passed on. -/
def SampleProcUserFrame.core (f : SampleProcUserFrame) : FrameState × Picture := (f.state, f.picture)

namespace SampleProcUserData

variable {r : SampleProcUserData}

/-- The slots, from `lastFrame` on. -/
def slots (r : SampleProcUserData) : List (FrameState × Picture) :=
  window pdMaxFrames (fun i => (r.frame i).core) r.lastFrame

/-- The slots whose frame was delivered and not freed yet, from `lastFrame` on. -/
def occupied (r : SampleProcUserData) : List (FrameState × Picture) :=
  r.slots.filter fun f => f.1 ≠ .free

/-- The occupied slots are one cyclic segment that starts at `lastFrame`, and
only its first slot can have been sent. -/
structure WF (r : SampleProcUserData) : Prop where
  lastFrame_lt : r.lastFrame < pdMaxFrames
  segment : ∃ rest, r.slots = r.occupied ++ rest ∧ ∀ f ∈ rest, f.1 = .free
  queued : ∀ f ∈ r.occupied.tail, f.1 = .set

theorem mem_occupied {f : FrameState × Picture} :
    f ∈ r.occupied ↔ ∃ i < pdMaxFrames, (r.frame i).core = f ∧ f.1 ≠ .free := by
  simp only [occupied, List.mem_filter, decide_eq_true_eq, slots,
    mem_window (N := pdMaxFrames) (by decide)]
  constructor
  · rintro ⟨⟨i, hi, rfl⟩, hs⟩; exact ⟨i, hi, rfl, hs⟩
  · rintro ⟨i, hi, rfl, hs⟩; exact ⟨⟨i, hi, rfl⟩, hs⟩

theorem length_slots (r : SampleProcUserData) : r.slots.length = pdMaxFrames := length_window

/-- A ring whose slots are a segment of occupied ones and a rest of free ones. -/
theorem WF.of_slots {occ rest : List (FrameState × Picture)} (hl : r.lastFrame < pdMaxFrames)
    (h : r.slots = occ ++ rest) (ho : ∀ f ∈ occ, f.1 ≠ .free) (hr : ∀ f ∈ rest, f.1 = .free)
    (hq : ∀ f ∈ occ.tail, f.1 = .set) : r.WF ∧ r.occupied = occ := by
  have e : r.occupied = occ := by
    rw [occupied, h, List.filter_append, List.filter_eq_self.mpr (by simpa using ho),
      List.filter_eq_nil_iff.mpr (by simpa using hr), List.append_nil]
  exact ⟨⟨hl, ⟨rest, e ▸ h, hr⟩, e ▸ hq⟩, e⟩

theorem zero_wf : zero.WF ∧ zero.occupied = [] :=
  WF.of_slots (by decide) (List.nil_append _).symm (by simp) (by decide) (by simp)

theorem WF.ne_free {f : FrameState × Picture} (hf : f ∈ r.occupied) : f.1 ≠ .free :=
  (mem_occupied.mp hf).elim fun _ h => h.2.2

/-- The slot at distance `e` is free if it lies past the occupied ones. -/
theorem WF.state_eq_free_iff (h : r.WF) {e : Nat} (he : e < pdMaxFrames) :
    (r.frame ((r.lastFrame + e) % pdMaxFrames)).state = .free ↔ r.occupied.length ≤ e := by
  obtain ⟨rest, hs, hr⟩ := h.segment
  have hlen : e < (r.occupied ++ rest).length := by rw [← hs, length_slots]; exact he
  have hget : (r.frame ((r.lastFrame + e) % pdMaxFrames)).core = (r.occupied ++ rest)[e] := by
    simp only [← hs, slots, getElem_window]
  show (SampleProcUserFrame.core _).1 = _ ↔ _
  rw [hget]
  rcases Nat.lt_or_ge e r.occupied.length with hlt | hge
  · rw [List.getElem_append_left hlt]
    exact ⟨fun h => absurd h (WF.ne_free (List.getElem_mem hlt)),
      fun h => absurd hlt (Nat.not_lt.mpr h)⟩
  · rw [List.getElem_append_right hge]
    exact ⟨fun _ => hge, fun _ => hr _ (List.getElem_mem _)⟩

theorem WF.slots_zero (h : r.WF) : r.slots[0]? = some r.last.core := by
  rw [List.getElem?_eq_getElem (by rw [length_slots]; decide)]
  simp only [slots, getElem_window, Nat.add_zero, Nat.mod_eq_of_lt h.lastFrame_lt, last]

/-- The first of the occupied slots is the one at `lastFrame`. -/
theorem WF.last_core (h : r.WF) {f : FrameState × Picture} {rest : List (FrameState × Picture)}
    (ho : r.occupied = f :: rest) : r.last.core = f := by
  obtain ⟨fre, he, -⟩ := h.segment
  have h0 := h.slots_zero
  rw [he, ho] at h0
  simpa using h0.symm

/-- The slot at `lastFrame` is the first of the occupied ones, unless all are
free. -/
theorem WF.occupied_eq_cons (h : r.WF) (hs : r.last.state ≠ .free) :
    ∃ rest, r.occupied = r.last.core :: rest := by
  have h0 := h.slots_zero
  obtain ⟨fre, he, hr⟩ := h.segment
  rw [he] at h0
  cases hocc : r.occupied with
  | nil =>
    rw [hocc, List.nil_append] at h0
    exact absurd (hr _ (List.mem_of_getElem? h0)) hs
  | cons f rest =>
    rw [hocc] at h0
    exact ⟨rest, by simpa using h0⟩

/-! ## The search for a slot -/

theorem findSlotFrom_eq (h : r.WF) {room d : Nat} (hd : d + room = pdMaxFrames)
    (hle : d ≤ min r.occupied.length (pdMaxFrames - 1)) :
    r.findSlotFrom room ((r.lastFrame + d) % pdMaxFrames) =
      some ((r.lastFrame + min r.occupied.length (pdMaxFrames - 1)) % pdMaxFrames) := by
  induction room generalizing d with
  | zero => simp only [pdMaxFrames] at *; omega
  | succ room ih =>
    have hfree := h.state_eq_free_iff (e := d) (by omega)
    have hlast := h.lastFrame_lt
    simp only [findSlotFrom, Nat.mod_add_mod, Nat.add_assoc]
    split
    · rename_i hf
      have := hfree.mp hf
      rw [show d = min r.occupied.length (pdMaxFrames - 1) by omega]
    rename_i hf
    have hlt : d < r.occupied.length := Nat.lt_of_not_le (mt hfree.mpr hf)
    split
    · rename_i hw
      have : d = min r.occupied.length (pdMaxFrames - 1) := by simp only [pdMaxFrames] at *; omega
      rw [← this]
    · rename_i hw
      exact ih (by omega) (by simp only [pdMaxFrames] at *; omega)

/-- The search of `DS_Filter_CopySample` ends at the first free slot, or at the
last slot if all are occupied. -/
theorem WF.findSlot_eq (h : r.WF) : r.findSlot =
    some ((r.lastFrame + min r.occupied.length (pdMaxFrames - 1)) % pdMaxFrames) := by
  have := findSlotFrom_eq h (Nat.zero_add pdMaxFrames) (Nat.zero_le _)
  rwa [Nat.add_zero, Nat.mod_eq_of_lt h.lastFrame_lt] at this

/-! ## Writing a slot -/

/-- The slot at distance `d` written. -/
theorem slots_setFrame {d : Nat} (hd : d < pdMaxFrames) (f : SampleProcUserFrame) :
    (r.setFrame ((r.lastFrame + d) % pdMaxFrames) f).slots = r.slots.set d f.core := by
  rw [slots, slots, ← window_update hd, setFrame]
  congr 1
  exact Function.comp_update SampleProcUserFrame.core r.frame _ f

/-- Other interlace flags change nothing else. -/
theorem WF.setFrame_core (h : r.WF) {i : Nat} {f : SampleProcUserFrame}
    (hf : f.core = (r.frame i).core) :
    (r.setFrame i f).WF ∧ (r.setFrame i f).occupied = r.occupied := by
  have e : (r.setFrame i f).slots = r.slots := by
    simp only [slots, setFrame]
    congr 1
    funext j
    by_cases hj : j = i
    · subst hj; simpa using hf
    · rw [Function.update_of_ne hj]
  obtain ⟨rest, hs, hr⟩ := h.segment
  exact WF.of_slots h.lastFrame_lt (e.trans hs) (fun _ => WF.ne_free) hr h.queued

/-- A frame delivered into the slot the search ends at: it comes last, and
takes the place of the last one if all slots are occupied. -/
theorem WF.push (h : r.WF) {f : SampleProcUserFrame} (hf : f.state = .set) :
    let r' := r.setFrame
      ((r.lastFrame + min r.occupied.length (pdMaxFrames - 1)) % pdMaxFrames) f
    r'.WF ∧ r'.occupied = r.occupied.take (pdMaxFrames - 1) ++ [f.core] := by
  intro r'
  obtain ⟨rest, hs, hr⟩ := h.segment
  have hlen : (r.occupied ++ rest).length = pdMaxFrames - 1 + 1 := by rw [← hs, length_slots]; rfl
  have hsl : r'.slots = (r.occupied.take (pdMaxFrames - 1) ++ [f.core]) ++ rest.tail := by
    rw [slots_setFrame (lt_of_le_of_lt (Nat.min_le_right _ _) (by decide)), hs,
      set_min_append hlen, List.append_assoc]
    rfl
  refine WF.of_slots h.lastFrame_lt hsl ?_ (fun g hg => hr g (List.mem_of_mem_tail hg)) ?_
  · intro g hg
    rcases List.mem_append.mp hg with hg | hg
    · exact WF.ne_free (List.mem_of_mem_take hg)
    · rw [List.mem_singleton.mp hg]
      show f.state ≠ _
      rw [hf]; decide
  · intro g hg
    cases hocc : r.occupied with
    | nil => rw [hocc] at hg; cases hg
    | cons a l =>
      rw [hocc] at hg
      rcases List.mem_append.mp (show g ∈ l.take 8 ++ [f.core] from hg) with hg | hg
      · exact h.queued g (by rw [hocc]; exact List.mem_of_mem_take hg)
      · rw [List.mem_singleton.mp hg]; exact hf

/-- The first frame marked sent. -/
theorem WF.send (h : r.WF) {rest : List (FrameState × Picture)}
    (ho : r.occupied = r.last.core :: rest) :
    let r' := r.setFrame r.lastFrame { r.last with state := .sent }
    r'.WF ∧ r'.occupied = (.sent, r.last.picture) :: rest := by
  intro r'
  obtain ⟨fre, he, hr⟩ := h.segment
  have h0 : (r.lastFrame + 0) % pdMaxFrames = r.lastFrame := Nat.mod_eq_of_lt h.lastFrame_lt
  have hsl : r'.slots = ((.sent, r.last.picture) :: rest) ++ fre := by
    have := slots_setFrame (r := r) (d := 0) (by decide) { r.last with state := .sent }
    rw [h0, he, ho] at this
    exact this
  refine WF.of_slots h.lastFrame_lt hsl ?_ hr fun g hg => h.queued g (by rw [ho]; exact hg)
  intro g hg
  rcases List.mem_cons.mp hg with rfl | hg
  · exact fun h => nomatch h
  · exact WF.ne_free (by rw [ho]; exact List.mem_cons_of_mem _ hg)

/-- The first frame freed and `lastFrame` moved on. -/
theorem WF.pop (h : r.WF) {rest : List (FrameState × Picture)} (ho : r.occupied = r.last.core :: rest) :
    let r' : SampleProcUserData := { r.setFrame r.lastFrame { r.last with state := .free } with
      lastFrame := (r.lastFrame + 1) % pdMaxFrames }
    r'.WF ∧ r'.occupied = rest := by
  intro r'
  obtain ⟨fre, he, hr⟩ := h.segment
  have h0 : (r.lastFrame + 0) % pdMaxFrames = r.lastFrame := Nat.mod_eq_of_lt h.lastFrame_lt
  have hsl : r'.slots = rest ++ (fre ++ [(.free, r.last.picture)]) := by
    have := slots_setFrame (r := r) (d := 0) (by decide) { r.last with state := .free }
    rw [h0, he, ho] at this
    rw [show r'.slots = (r.setFrame r.lastFrame { r.last with state := .free }).slots.rotate 1
      from window_succ, this]
    show ((.free, r.last.picture) :: (rest ++ fre)).rotate 1 = _
    rw [List.rotate_cons_succ, List.rotate_zero, List.append_assoc]
  refine WF.of_slots (Nat.mod_lt _ (by decide)) hsl ?_ ?_ fun g hg => ?_
  · exact fun g hg => WF.ne_free (by rw [ho]; exact List.mem_cons_of_mem _ hg)
  · intro g hg
    rcases List.mem_append.mp hg with hg | hg
    · exact hr g hg
    · rw [List.mem_singleton.mp hg]
  · exact h.queued g (by rw [ho]; exact List.mem_of_mem_tail hg)

end SampleProcUserData

/-! ## What the functions do -/

variable {r r' : SampleProcUserData} {m m' : MemStruct}

@[simp] theorem setInterlace_core (f : SampleProcUserFrame) (s : MediaSample) :
    (f.setInterlace s).core = f.core := by
  cases h : s.interlaceFlags <;>
    simp [SampleProcUserFrame.setInterlace, SampleProcUserFrame.core, SampleProcUserFrame.picture, h]

/-- A delivery: without a pointer nothing but interlace flags change; with one
its page is locked and its frame is the newest, the one before taken out if
all slots are occupied. -/
theorem copySample_cases (h : r.WF) {s : MediaSample} {hr : Nat}
    (hc : copySample r m s = some (hr, r', m')) :
    (s.pointer = none ∧ hr = 1 ∧ m' = m ∧ r'.WF ∧ r'.occupied = r.occupied) ∨
    ∃ pointer, s.pointer = some pointer ∧ hr = 0 ∧ m.memstructSetlock pointer 1 = some m' ∧
      r'.WF ∧ r'.occupied =
        r.occupied.take (pdMaxFrames - 1) ++ [(.set, s.picture pointer)] := by
  simp only [copySample, h.findSlot_eq, Option.bind_some] at hc
  cases hp : s.pointer with
  | none =>
    simp only [hp, Option.some.injEq, Prod.mk.injEq] at hc
    obtain ⟨rfl, rfl, rfl⟩ := hc
    obtain ⟨h₁, h₂⟩ := h.setFrame_core (setInterlace_core _ s)
    exact .inl ⟨rfl, rfl, rfl, h₁, h₂⟩
  | some pointer =>
    simp only [hp, Option.map_eq_some_iff, Prod.mk.injEq] at hc
    obtain ⟨m₁, hm, rfl, rfl, rfl⟩ := hc
    obtain ⟨h₁, h₂⟩ := h.push (f := { (r.frame _).setInterlace s with
      pts_nsec := s.timeStart, frame_pointer := pointer, frame_size := s.len, state := .set }) rfl
    exact .inr ⟨pointer, rfl, rfl, hm, h₁, h₂⟩

/-- `FreeFrame` unlocks and removes the first frame if it was sent. -/
theorem freeFrame_cases (h : r.WF) (hc : freeFrame r m = some (r', m')) :
    (r.last.state = .sent ∧ m.memstructSetlock r.last.frame_pointer 0 = some m' ∧ r'.WF ∧
      r.occupied = r.last.core :: r'.occupied) ∨
    (r.last.state ≠ .sent ∧ r' = r ∧ m' = m) := by
  simp only [freeFrame] at hc
  split at hc
  · rename_i hs
    simp only [Option.map_eq_some_iff, Prod.mk.injEq] at hc
    obtain ⟨m₁, hm, rfl, rfl⟩ := hc
    obtain ⟨rest, ho⟩ := h.occupied_eq_cons (by rw [hs]; decide)
    obtain ⟨h₁, h₂⟩ := h.pop ho
    exact .inl ⟨hs, hm, h₁, h₂ ▸ ho⟩
  · rename_i hs
    simp only [Option.some.injEq, Prod.mk.injEq] at hc
    exact .inr ⟨hs, hc.1.symm, hc.2.symm⟩

/-- The reply word for a frame in page `page`, or outside the pool for −1. -/
def replyWord (page : Int) (interlace : Nat) : BitVec 32 :=
  let ret : BitVec 32 := if page ≠ -1 then 0x02 ||| (BitVec.ofInt 32 page <<< 8) else 0
  if interlace ≠ 0 then ret ||| 0x01 ||| 0x10 else ret ||| 0x01

/-- `DecodeInternal` answers the first frame if it was not sent yet. -/
theorem decodeInternal_cases (h : r.WF) {ret : BitVec 32}
    (hc : decodeInternal true r m = some (ret, r')) :
    (r.last.state = .set ∧ r'.WF ∧
      (∃ page, m.getMemstructPagenum r.last.frame_pointer = some page ∧
        ret = replyWord page r.last.interlace) ∧
      ∃ rest, r.occupied = (.set, r.last.picture) :: rest ∧
        r'.occupied = (.sent, r.last.picture) :: rest) ∨
    (r.last.state ≠ .set ∧ ret = 0 ∧ r' = r) := by
  simp only [decodeInternal, Bool.true_eq_false, if_false] at hc
  split at hc
  · rename_i hs
    simp only [Option.map_eq_some_iff, Prod.mk.injEq] at hc
    obtain ⟨page, hp, rfl, rfl⟩ := hc
    obtain ⟨rest, ho⟩ := h.occupied_eq_cons (by rw [hs]; decide)
    obtain ⟨h₁, h₂⟩ := h.send ho
    refine .inl ⟨hs, h₁, ⟨page, hp, rfl⟩, rest, ?_, h₂⟩
    rw [ho, SampleProcUserFrame.core, hs]
  · rename_i hs
    simp only [Option.some.injEq, Prod.mk.injEq] at hc
    exact .inr ⟨hs, hc.1.symm, hc.2.symm⟩

/-- The 0x01 bit of a reply word: there is a frame. -/
def hasFrame (ret : BitVec 32) : Bool := ret &&& 0x01 != 0

@[simp] theorem hasFrame_zero : hasFrame 0#32 = false := rfl

@[simp] theorem hasFrame_replyWord (page : Int) (interlace : Nat) :
    hasFrame (replyWord page interlace) = true := by
  refine bne_iff_ne.mpr fun h => ?_
  have := congrArg (fun x => x.getLsbD 0) h
  simp only [replyWord] at this
  split at this <;> simp at this

end DShow.Ring
