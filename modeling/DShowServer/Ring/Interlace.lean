import DShowServer.Ring.Order
import Mathlib.Data.List.Infix

/-!
# The interlace flag of a frame

A sample carries a media type only where it differs from the last one, so that
the flag in force is a matter of the stream. `DS_Filter_CopySample` keeps it in
the slot it found, and a sample without a type leaves there what was there ten
frames before. Without overflow or seek the frames go to the slots in turn, so
that the samples of a slot can be told from the stream alone (`inSlot`); the
replies carry the flags of these (`Turn.line`), and `interlace_iff` compares
them with those of the stream.
-/

namespace DShow.Ring

open Pool Run Cyclic SampleProcUserData

/-! ## The stream -/

/-- The interlace flags of the last type among the samples, 0 if there is none. -/
def lastFlags (xs : List MediaSample) : Nat := (xs.filterMap MediaSample.interlaceFlags).getLast?.getD 0

def MediaSample.isFrame (x : MediaSample) : Bool := x.pointer.isSome

/-- For every frame the samples up to it. -/
def frames (xs : List MediaSample) : List (List MediaSample) :=
  xs.inits.filter fun ys => ys.getLast?.any MediaSample.isFrame

/-- The picture of the last of the samples. -/
def framePicture (ys : List MediaSample) : Option Picture :=
  ys.getLast?.bind fun x => x.pointer.map x.picture

/-- The samples that go to slot `j`, with `n` frames before them. -/
def inSlot (j : Nat) : Nat → List MediaSample → List MediaSample
  | _, [] => []
  | n, x :: xs =>
    (if n % pdMaxFrames = j then [x] else []) ++ inSlot j (if x.isFrame then n + 1 else n) xs

/-- The samples of the slot that the last frame went to. -/
def slotMates (ys : List MediaSample) : List MediaSample :=
  inSlot ((ys.countP MediaSample.isFrame - 1) % pdMaxFrames) 0 ys

theorem lastFlags_append (xs : List MediaSample) (x : MediaSample) :
    lastFlags (xs ++ [x]) = x.interlaceFlags.getD (lastFlags xs) := by
  rw [lastFlags, lastFlags, List.filterMap_append]
  cases h : x.interlaceFlags <;> simp [h]

theorem frames_append (xs : List MediaSample) (x : MediaSample) :
    frames (xs ++ [x]) = frames xs ++ if x.isFrame then [xs ++ [x]] else [] := by
  rw [frames, frames, List.inits_append]
  simp [List.filter_append, List.filter_cons]

theorem inSlot_append (j n : Nat) (xs : List MediaSample) (x : MediaSample) :
    inSlot j n (xs ++ [x]) = inSlot j n xs ++
      if (n + xs.countP MediaSample.isFrame) % pdMaxFrames = j then [x] else [] := by
  induction xs generalizing n with
  | nil => simp [inSlot]
  | cons y ys ih =>
    rw [List.cons_append, inSlot, inSlot, ih, List.append_assoc]
    cases hy : y.isFrame with
    | true => simp [hy, Nat.add_assoc, Nat.add_comm 1]
    | false => simp [hy]

/-- The last frame is one of its slot. -/
theorem lastFlags_slotMates (xs : List MediaSample) {x : MediaSample} (hx : x.isFrame = true) :
    lastFlags (slotMates (xs ++ [x])) =
      x.interlaceFlags.getD (lastFlags (inSlot (xs.countP MediaSample.isFrame % pdMaxFrames) 0 xs)) := by
  have hcount : (xs ++ [x]).countP MediaSample.isFrame - 1 = xs.countP MediaSample.isFrame := by
    simp [List.countP_append, hx]
  rw [slotMates, hcount, inSlot_append, Nat.zero_add, if_pos rfl, lastFlags_append]

/-! ## The flags in the slots -/

namespace SampleProcUserData

variable {r r' : SampleProcUserData} {m m' : MemStruct}

def interlaces (r : SampleProcUserData) : Nat → Nat := fun i => (r.frame i).interlace

/-- The flags of the occupied slots, from `lastFrame` on. -/
def flags (r : SampleProcUserData) : List Nat :=
  (window pdMaxFrames r.interlaces r.lastFrame).take r.occupied.length

theorem WF.length_occupied (h : r.WF) : r.occupied.length ≤ pdMaxFrames := by
  obtain ⟨rest, hs, -⟩ := h.segment
  rw [← length_slots r, hs, List.length_append]
  exact Nat.le_add_right ..

theorem length_flags (h : r.WF) : r.flags.length = r.occupied.length := by
  rw [flags, List.length_take, length_window]
  exact Nat.min_eq_left h.length_occupied

/-- The flags of a slot written. -/
theorem interlaces_setFrame (i : Nat) (f : SampleProcUserFrame) :
    (r.setFrame i f).interlaces = Function.update r.interlaces i f.interlace :=
  Function.comp_update SampleProcUserFrame.interlace r.frame i f

theorem interlaces_setFrame_self (i : Nat) (f : SampleProcUserFrame)
    (hf : f.interlace = (r.frame i).interlace) : (r.setFrame i f).interlaces = r.interlaces := by
  rw [interlaces_setFrame, hf]
  exact Function.update_eq_self i r.interlaces

theorem setInterlace_interlace (f : SampleProcUserFrame) (x : MediaSample) :
    (f.setInterlace x).interlace = x.interlaceFlags.getD f.interlace := by
  simp only [SampleProcUserFrame.setInterlace]
  cases x.interlaceFlags <;> rfl

/-- A delivery writes the flags of the first free slot. -/
theorem copySample_interlaces (h : r.WF) (hlt : r.occupied.length < pdMaxFrames) {x : MediaSample}
    {hr : Nat} (hc : copySample r m x = some (hr, r', m')) :
    let i := (r.lastFrame + r.occupied.length) % pdMaxFrames
    r'.lastFrame = r.lastFrame ∧
      r'.interlaces = Function.update r.interlaces i (x.interlaceFlags.getD (r.interlaces i)) := by
  intro i
  have hslot : r.findSlot = some i := by
    rw [h.findSlot_eq, Nat.min_eq_left (Nat.le_sub_one_of_lt hlt)]
  simp only [copySample, hslot, Option.bind_some] at hc
  cases hp : x.pointer with
  | none =>
    simp only [hp, Option.some.injEq, Prod.mk.injEq] at hc
    obtain ⟨-, rfl, -⟩ := hc
    rw [interlaces_setFrame, setInterlace_interlace]
    exact ⟨rfl, rfl⟩
  | some pointer =>
    simp only [hp, Option.map_eq_some_iff, Prod.mk.injEq] at hc
    obtain ⟨m₁, -, -, rfl, -⟩ := hc
    rw [interlaces_setFrame, setInterlace_interlace]
    exact ⟨rfl, rfl⟩

theorem freeFrame_interlaces (hc : freeFrame r m = some (r', m')) : r'.interlaces = r.interlaces ∧
    r'.lastFrame = if r.last.state = .sent then (r.lastFrame + 1) % pdMaxFrames else r.lastFrame := by
  simp only [freeFrame] at hc
  split at hc
  · rename_i hs
    simp only [Option.map_eq_some_iff, Prod.mk.injEq] at hc
    obtain ⟨m₁, -, rfl, -⟩ := hc
    exact ⟨interlaces_setFrame_self r.lastFrame _ rfl, (if_pos hs).symm⟩
  · rename_i hs
    cases hc
    exact ⟨rfl, (if_neg hs).symm⟩

theorem decodeInternal_interlaces {input : Bool} {ret : BitVec 32}
    (hc : decodeInternal input r m = some (ret, r')) :
    r'.interlaces = r.interlaces ∧ r'.lastFrame = r.lastFrame := by
  simp only [decodeInternal] at hc
  split at hc
  · cases hc
    exact ⟨rfl, rfl⟩
  split at hc
  · simp only [Option.map_eq_some_iff, Prod.mk.injEq] at hc
    obtain ⟨page, -, -, rfl⟩ := hc
    exact ⟨interlaces_setFrame_self r.lastFrame _ rfl, rfl⟩
  · cases hc
    exact ⟨rfl, rfl⟩

/-- The flags after a delivery into the first free slot. -/
theorem flags_push {v : Nat} (hlt : r.occupied.length < pdMaxFrames) (hl : r'.lastFrame = r.lastFrame)
    (hi : r'.interlaces =
      Function.update r.interlaces ((r.lastFrame + r.occupied.length) % pdMaxFrames) v) :
    (r'.occupied.length = r.occupied.length → r'.flags = r.flags) ∧
      (r'.occupied.length = r.occupied.length + 1 → r'.flags = r.flags ++ [v]) := by
  have hlen : r.occupied.length < (window pdMaxFrames r.interlaces r.lastFrame).length := by
    rwa [length_window]
  simp only [flags, hl, hi, window_update hlt]
  refine ⟨fun h => ?_, fun h => ?_⟩
  · rw [h, List.take_set_of_le (Nat.le_refl _)]
  · rw [h, List.take_add_one, List.take_set_of_le (Nat.le_refl _), List.getElem?_set_self hlen]
    rfl

/-- The flags after the first slot is freed. -/
theorem flags_pop (hlt : 0 < r.occupied.length) (hlen : r.occupied.length ≤ pdMaxFrames)
    (hi : r'.interlaces = r.interlaces)
    (hl : r'.lastFrame = (r.lastFrame + 1) % pdMaxFrames)
    (ho : r'.occupied.length = r.occupied.length - 1) : r'.flags = r.flags.tail := by
  simp only [flags, hl, hi, window_succ, ho]
  have hw : (window pdMaxFrames r.interlaces r.lastFrame).length = pdMaxFrames := length_window
  cases hc : window pdMaxFrames r.interlaces r.lastFrame with
  | nil =>
    rw [hc] at hw
    cases hw
  | cons a l =>
    rw [hc, List.length_cons] at hw
    rw [List.rotate_cons_succ, List.rotate_zero, List.take_append_of_le_length (by omega)]
    obtain ⟨n, hn⟩ := Nat.exists_eq_add_of_lt hlt
    rw [hn]
    simp

/-- `FreeFrame` takes the flags of the first slot out, if its frame was sent. -/
theorem freeFrame_flags (h : r.WF) (hc : freeFrame r m = some (r', m')) :
    (r'.lastFrame + r'.occupied.length) % pdMaxFrames = (r.lastFrame + r.occupied.length) % pdMaxFrames ∧
      r'.flags = if r.last.state = .sent then r.flags.tail else r.flags := by
  obtain ⟨hi, hl⟩ := freeFrame_interlaces hc
  obtain ⟨hsent, -, -, ho⟩ | ⟨hns, rfl, -⟩ := freeFrame_cases h hc
  · rw [if_pos hsent] at hl ⊢
    have hlen : r.occupied.length = r'.occupied.length + 1 := by rw [ho]; rfl
    refine ⟨?_, flags_pop (by omega) h.length_occupied hi hl (by omega)⟩
    rw [hl, hlen, Nat.mod_add_mod, Nat.add_assoc, Nat.add_comm 1]
  · exact ⟨rfl, (if_neg hns).symm⟩

/-- The first of the flags is that of the slot at `lastFrame`. -/
theorem flags_eq_cons (h : r.WF) {f : FrameState × Picture} {rest : List (FrameState × Picture)}
    (ho : r.occupied = f :: rest) : r.flags = r.last.interlace :: r.flags.tail := by
  have hlen : 0 < r.flags.length := by
    rw [length_flags h, ho]
    exact Nat.zero_lt_succ _
  obtain ⟨a, l, hl⟩ := List.exists_cons_of_length_pos hlen
  have ha : a = r.flags[0] := by simp [hl]
  have hget : r.flags[0] = r.last.interlace := by
    simp only [flags, List.getElem_take, getElem_window, Nat.add_zero, Nat.mod_eq_of_lt h.lastFrame_lt]
    rfl
  rw [← hget, ← ha, hl]
  rfl

end SampleProcUserData

def Event.isSeek : Event → Bool
  | .seek => true
  | _ => false

/-- The 0x10 bit of a reply word: the frame is interlaced. -/
def interlaced (ret : BitVec 32) : Bool := ret &&& 0x10 != 0

theorem interlaced_eq (ret : BitVec 32) : interlaced ret = ret.getLsbD 4 := by
  have h : ret &&& 0x10 = if ret.getLsbD 4 then 0x10 else 0 := BitVec.and_twoPow ret 4
  rw [interlaced, h]
  cases ret.getLsbD 4 <;> rfl

@[simp] theorem interlaced_replyWord (page : Int) (interlace : Nat) :
    interlaced (replyWord page interlace) = (interlace != 0) := by
  rw [interlaced_eq, replyWord]
  by_cases h : interlace = 0 <;> by_cases hp : page = -1 <;> simp [h, hp]

namespace Session

variable {s s' : Session}

/-! ## The bits of the replies -/

/-- The bits of the replies that carry a frame. -/
def answeredBits (s : Session) : List Bool :=
  (s.answers.filter fun a => hasFrame a.ret).map fun a => interlaced a.ret

/-- The bit of a reply that `GetPTS` has not completed yet. -/
def pendingBits (s : Session) : List Bool :=
  match s.phase with
  | .answered ret _ _ => if hasFrame ret then [interlaced ret] else []
  | _ => []

/-- The bits of the frames not answered yet. -/
def waitingBits (r : SampleProcUserData) : List Bool :=
  (if r.last.state = .sent then r.flags.tail else r.flags).map fun f => f != 0

def bitLine (s : Session) : List Bool := s.answeredBits ++ (s.pendingBits ++ waitingBits s.ring)

/-- What a call of the server does to the flags in the slots. -/
theorem step_flags (h : s.Inv) {e : Event} (he : ∀ x, e ≠ .deliver x) (hne : e ≠ .seek)
    (hs : step s e = some s') : s'.ring.interlaces = s.ring.interlaces ∧
      (s'.ring.lastFrame + s'.ring.occupied.length) % pdMaxFrames =
        (s.ring.lastFrame + s.ring.occupied.length) % pdMaxFrames ∧
      s'.ring.flags = remain s e s.ring.flags := by
  have hlen : s'.ring.occupied.length = (remain s e (pointers s)).length := by
    rw [← pointers_step h he hs, pointers, List.length_map]
  cases e with
  | deliver x => exact absurd rfl (he x)
  | seek => exact absurd rfl hne
  | freeFrame =>
    simp only [step] at hs
    split at hs <;> [rename_i hph; cases hs]
    obtain ⟨⟨r, m⟩, hc, rfl⟩ := Option.map_eq_some_iff.mp hs
    exact ⟨(freeFrame_interlaces hc).1, freeFrame_flags h.wf hc⟩
  | decode keep =>
    simp only [step] at hs
    split at hs <;> [rename_i hph; cases hs]
    obtain ⟨⟨ret, r⟩, hc, rfl⟩ := Option.map_eq_some_iff.mp hs
    obtain ⟨hi, hl⟩ := decodeInternal_interlaces hc
    simp only [remain, pointers, List.length_map] at hlen ⊢
    exact ⟨hi, by rw [hl, hlen], by rw [flags, flags, hi, hl, hlen]⟩
  | pool c =>
    have hr : s'.ring = s.ring := by cases h.effect hs; rfl
    simp only [hr, remain, and_self]
  | inputRelease | setPTS | getPTS =>
    have hr : s'.ring = s.ring := by cases h.effect hs; rfl
    simp only [hr, remain, and_self]

/-- A call of the server keeps the line of the bits. -/
theorem step_bitLine (h : s.Inv) {e : Event} (he : ∀ x, e ≠ .deliver x) (hne : e ≠ .seek)
    (hs : step s e = some s') : s'.bitLine = s.bitLine := by
  obtain ⟨-, -, hflags⟩ := step_flags h he hne hs
  have hp' := (h.step hs).atPhase
  cases h.effect hs with
  | undelivered | delivered => exact absurd rfl (he _)
  | seek => exact absurd rfl hne
  | pool | inputRelease => rfl
  | freed hph hsent hlock hw ho =>
    have hns : _ ≠ FrameState.sent := hp'
    simp only [remain, if_pos hsent] at hflags
    simp only [bitLine, waitingBits, pendingBits, answeredBits, hph, if_pos hsent, if_neg hns, hflags]
  | notSent hph | timed hph => simp only [bitLine, waitingBits, pendingBits, answeredBits, hph]
  | @answered keep r page rest hph hpage hw ho ho' =>
    have hset : s.ring.last.state = .set := congrArg Prod.fst (h.wf.last_core ho)
    have hsent : r.last.state = .sent := congrArg Prod.fst (hw.last_core ho')
    simp only [remain] at hflags
    simp only [bitLine, waitingBits, pendingBits, answeredBits, hph, hsent, hset, hflags, if_true,
      hasFrame_replyWord, interlaced_replyWord, reduceCtorEq, if_false, List.nil_append]
    conv_rhs => rw [flags_eq_cons h.wf ho]
    rfl
  | noFrame hph => simp [bitLine, waitingBits, pendingBits, answeredBits, hph]
  | @getPTS ret pointer size hph =>
    have hnp : ∀ s : Session, s.phase = (if ret = -1 then .exited else .idle) → s.pendingBits = [] := by
      intro s hs
      simp only [pendingBits, hs]
      split
      · rename_i hq
        exact (completed_ne_answered _ _ _ _ hq).elim
      · rfl
    have ha : ((s.answers ++ [(⟨ret, pointer, size, Ring.getPTS s.ring⟩ : Answer)]).filter
        fun a => hasFrame a.ret).map (fun a => interlaced a.ret) = s.answeredBits ++ s.pendingBits := by
      cases hb : hasFrame ret <;> simp [answeredBits, pendingBits, hph, hb]
    show _ ++ (pendingBits _ ++ waitingBits s.ring) = _
    rw [hnp _ rfl, List.nil_append, bitLine, ← List.append_assoc]
    exact congrArg (· ++ waitingBits s.ring) ha

/-- Whether the first frame was sent, with a ring that keeps the first frame. -/
theorem sent_iff {r r' : SampleProcUserData} (h : r.WF) (h' : r'.WF)
    (hs : r.last.state ≠ .sent → r'.last.state ≠ .sent)
    (hf : ∀ f rest, r.occupied = f :: rest → ∃ rest', r'.occupied = f :: rest') :
    r'.last.state = .sent ↔ r.last.state = .sent := by
  refine ⟨fun hs' => by_contra fun hn => hs hn hs', fun hs => ?_⟩
  obtain ⟨rest, ho⟩ := h.occupied_eq_cons (by rw [hs]; decide)
  obtain ⟨rest', ho'⟩ := hf _ _ ho
  exact (congrArg Prod.fst (h'.last_core ho')).trans hs

/-- A delivery appends the bit of its frame. -/
theorem deliver_bitLine (h : s.Inv) {x : MediaSample} (hlt : s.ring.occupied.length < pdMaxFrames)
    (hs : step s (.deliver x) = some s') :
    let i := (s.ring.lastFrame + s.ring.occupied.length) % pdMaxFrames
    let v := x.interlaceFlags.getD (s.ring.interlaces i)
    s'.ring.lastFrame = s.ring.lastFrame ∧ s'.ring.interlaces = Function.update s.ring.interlaces i v ∧
      s'.ring.occupied.length = s.ring.occupied.length + (if x.isFrame then 1 else 0) ∧
      s'.bitLine = s.bitLine ++ if x.isFrame then [v != 0] else [] := by
  intro i v
  have hcopy := hs
  simp only [step, Option.map_eq_some_iff] at hcopy
  obtain ⟨⟨hr, r, m⟩, hc, hs'⟩ := hcopy
  obtain ⟨hl, hi⟩ := copySample_interlaces h.wf hlt hc
  obtain ⟨hkeep, hpush⟩ := flags_push (v := v) hlt hl hi
  obtain rfl : s'.ring = r := by rw [← hs']
  cases h.effect hs with
  | @undelivered _ r hx hw ho =>
    have hx' : x.isFrame = false := by rw [MediaSample.isFrame, hx]; rfl
    have hsent := sent_iff h.wf hw (last_sent_of_occupied h.wf hw ho) fun _ rest hf => ⟨rest, ho.trans hf⟩
    refine ⟨hl, hi, by rw [ho, hx']; rfl, ?_⟩
    have hwait : waitingBits r = waitingBits s.ring := by
      simp only [waitingBits, hkeep (by rw [ho]), hsent]
    rw [hx', if_neg Bool.false_ne_true, List.append_nil, bitLine, hwait]
    rfl
  | @delivered _ p r m hx hlock hw ho =>
    have hx' : x.isFrame = true := by rw [MediaSample.isFrame, hx]; rfl
    have hlen := congrArg List.length ho
    rw [List.take_of_length_le (Nat.le_sub_one_of_lt hlt), List.length_append] at hlen
    refine ⟨hl, hi, by rw [hlen, hx']; rfl, ?_⟩
    obtain ⟨hns, hfirst⟩ := first_of_deliver h.wf hw ho
    have hsent := sent_iff h.wf hw hns hfirst
    have hwait : waitingBits r = waitingBits s.ring ++ [v != 0] := by
      simp only [waitingBits, hpush hlen, hsent]
      split
      · rename_i hs
        obtain ⟨rest, ho⟩ := h.wf.occupied_eq_cons (by rw [hs]; decide)
        rw [flags_eq_cons h.wf ho]
        simp
      · simp
    rw [hx', if_pos rfl, bitLine, hwait, bitLine, ← List.append_assoc, ← List.append_assoc,
      ← List.append_assoc]
    rfl

/-! ## The frames in turn -/

/-- The samples that are delivered. -/
def samples (es : List Event) : List MediaSample :=
  es.filterMap fun e => match e with
    | .deliver x => some x
    | _ => none

/-- The ring after the samples `xs`, all of which found a free slot: the next frame goes to the
slot of its number, each slot has the flags of its samples, and so have the replies. -/
structure Turn (xs : List MediaSample) (s : Session) : Prop where
  inv : s.Inv
  delivered : s.delivered.map some = (frames xs).map framePicture
  place : (s.ring.lastFrame + s.ring.occupied.length) % pdMaxFrames =
    xs.countP MediaSample.isFrame % pdMaxFrames
  slots : ∀ j < pdMaxFrames, s.ring.interlaces j = lastFlags (inSlot j 0 xs)
  line : s.bitLine = (frames xs).map fun ys => lastFlags (slotMates ys) != 0

theorem fresh_turn (pool : PoolState) (input : Bool) : Turn [] (fresh pool input) where
  inv := fresh_inv pool input
  delivered := rfl
  place := by rw [fresh, zero_wf.2]; rfl
  slots := fun j _ => rfl
  line := by
    simp [bitLine, answeredBits, pendingBits, waitingBits, flags, fresh, zero_wf.2, frames]

theorem Turn.deliver {xs : List MediaSample} (h : Turn xs s) {x : MediaSample}
    (hlt : s.ring.occupied.length < pdMaxFrames) (hs : step s (.deliver x) = some s') :
    Turn (xs ++ [x]) s' := by
  obtain ⟨hinv, hdel, hplace, hslots, hline⟩ := h
  obtain ⟨hl, hi, hocc, hbits⟩ := deliver_bitLine hinv hlt hs
  have hslot : xs.countP MediaSample.isFrame % pdMaxFrames < pdMaxFrames := Nat.mod_lt _ (by decide)
  rw [hplace, hslots _ hslot] at hi hbits
  refine ⟨hinv.step hs, ?_, ?_, fun j hj => ?_, ?_⟩
  · have hd := hinv.effect hs
    rw [frames_append, List.map_append, ← hdel]
    cases hd with
    | undelivered hx => simp [MediaSample.isFrame, hx]
    | delivered hx => simp [MediaSample.isFrame, hx, framePicture]
  · rw [hl, hocc, ← Nat.add_assoc, Nat.add_mod, hplace, ← Nat.add_mod, List.countP_append,
      List.countP_singleton]
  · rw [hi, inSlot_append, Nat.zero_add]
    by_cases hj' : xs.countP MediaSample.isFrame % pdMaxFrames = j
    · subst hj'
      rw [Function.update_self, if_pos rfl, lastFlags_append]
    · rw [Function.update_of_ne (Ne.symm hj'), if_neg hj', List.append_nil]
      exact hslots j hj
  · rw [hbits, hline, frames_append, List.map_append]
    cases hx : x.isFrame with
    | true => simp [lastFlags_slotMates xs hx]
    | false => simp

theorem Turn.call {xs : List MediaSample} (h : Turn xs s) {e : Event} (he : ∀ x, e ≠ .deliver x)
    (hne : e ≠ .seek) (hs : step s e = some s') : Turn xs s' := by
  obtain ⟨hinv, hdel, hplace, hslots, hline⟩ := h
  obtain ⟨hi, hl, -⟩ := step_flags hinv he hne hs
  refine ⟨hinv.step hs, ?_, hl.trans hplace, fun j hj => by rw [hi]; exact hslots j hj,
    (step_bitLine hinv he hne hs).trans hline⟩
  rw [← hdel]
  cases hinv.effect hs with
  | undelivered | delivered => exact absurd rfl (he _)
  | seek => exact absurd rfl hne
  | _ => rfl

/-- A delivery that finds a free slot, or a call of the server other than a seek. -/
def InTurn (s : Session) (e : Event) : Prop := FindsFree s e ∧ e.isSeek = false

instance (s : Session) : (e : Event) → Decidable (FindsFree s e)
  | .deliver _ => inferInstanceAs (Decidable (_ < _))
  | .pool _ | .inputRelease | .freeFrame | .setPTS | .decode _ | .getPTS | .seek => .isTrue trivial

instance (s : Session) (e : Event) : Decidable (InTurn s e) := inferInstanceAs (Decidable (_ ∧ _))

theorem samples_deliver (es : List Event) (x : MediaSample) :
    samples (es ++ [.deliver x]) = samples es ++ [x] := List.filterMap_append ..

theorem samples_call (es : List Event) {e : Event} (he : ∀ x, e ≠ .deliver x) :
    samples (es ++ [e]) = samples es := by
  refine List.filterMap_append.trans ?_
  cases e with
  | deliver x => exact absurd rfl (he x)
  | _ => exact List.append_nil _

/-- The frames of a run without overflow or seek go in turn. -/
theorem run_turn {pool : PoolState} {input : Bool} {es : List Event}
    (hm : Meets step InTurn (fresh pool input) es) (hr : exec step (fresh pool input) es = some s) :
    Turn (samples es) s := by
  refine exec_inv_events (I := fun es s => Turn (samples es) s) ?_ (fresh_turn pool input) hm hr
  rintro es s e s' h ⟨hlt, hne⟩ hs
  by_cases he : ∃ x, e = .deliver x
  · obtain ⟨x, rfl⟩ := he
    rw [samples_deliver]
    exact h.deliver hlt hs
  · have he : ∀ x, e ≠ .deliver x := fun x hx => he ⟨x, hx⟩
    rw [samples_call es he]
    refine h.call he (fun hseek => ?_) hs
    rw [hseek] at hne
    cases hne

/-- A list of pairs that are, component by component, those of a longer list. -/
theorem pairs_eq_map {α β γ : Type*} {l : List (β × γ)} {m : List α} {f : α → β} {g : α → γ}
    (hf : l.map Prod.fst <+: m.map f) (hg : l.map Prod.snd <+: m.map g) :
    l = (m.take l.length).map fun a => (f a, g a) := by
  have hlen : l.length ≤ m.length := by simpa using hf.length_le
  refine List.ext_getElem (by simp [hlen]) fun i hi _ => ?_
  have h₁ := hf.getElem (i := i) (by simpa using hi)
  have h₂ := hg.getElem (i := i) (by simpa using hi)
  simp only [List.getElem_map] at h₁ h₂
  simp only [List.getElem_map, List.getElem_take, ← h₁, ← h₂]

/-- The replies that carry a frame: its picture, and the 0x10 bit. -/
def replies (s : Session) : List (Option Picture × Bool) :=
  (s.answers.filter fun a => hasFrame a.ret).map fun a => (some a.picture, interlaced a.ret)

/-- **The interlace flag of a reply.** In a run without overflow or seek, the replies carry one
frame after the other with the flags of the stream if and only if, for each frame replied to, the
last type among the samples of its slot is interlaced exactly if the last type of all is. -/
theorem interlace_iff {pool : PoolState} {input : Bool} {es : List Event}
    (hm : Meets step InTurn (fresh pool input) es) (hr : exec step (fresh pool input) es = some s) :
    (s.replies <+: (frames (samples es)).map fun ys => (framePicture ys, lastFlags ys != 0)) ↔
      ∀ ys ∈ (frames (samples es)).take s.replies.length,
        (lastFlags (slotMates ys) = 0 ↔ lastFlags ys = 0) := by
  have hturn := run_turn hm hr
  have hfree : Meets step FindsFree (fresh pool input) es :=
    hm.imp (I := fun _ => True) (fun _ _ _ _ _ _ => trivial) (fun _ _ _ h => h.1) trivial
  have hpic : s.replies.map Prod.fst <+: (frames (samples es)).map framePicture := by
    rw [← hturn.delivered, delivered_eq_line hfree hr, line, List.map_append]
    simp only [replies, answered, List.map_map]
    exact List.prefix_append ..
  have hbit : s.replies.map Prod.snd <+: (frames (samples es)).map fun ys => lastFlags (slotMates ys) != 0 := by
    rw [← hturn.line, bitLine]
    simp only [replies, answeredBits, List.map_map]
    exact List.prefix_append ..
  rw [List.prefix_iff_eq_take, ← List.map_take]
  refine (Eq.congr_left (pairs_eq_map hpic hbit)).trans ?_
  rw [List.map_inj_left]
  refine forall₂_congr fun ys _ => ?_
  rw [Prod.mk.injEq, and_iff_right rfl, Bool.eq_iff_iff, bne_iff_ne, bne_iff_ne, not_iff_not]

/-- Two samples and their replies, the first with a type that has these flags. -/
def twoSamples (first second : Option Nat) : List Event :=
  [.freeFrame, .setPTS, .deliver ⟨first, some 64, 0, 16, 1⟩, .deliver ⟨second, some 96, 0, 16, 2⟩,
    .decode false, .getPTS, .freeFrame, .setPTS, .decode false, .getPTS]

theorem interlace_iff_two : let s := exec step (fresh (.start 0 0 0) true) (twoSamples (some 1) (some 0))
    ∃ h : s.isSome, ((s.get h).replies <+:
        (frames (samples (twoSamples (some 1) (some 0)))).map fun ys => (framePicture ys, lastFlags ys != 0)) ↔
      ∀ ys ∈ (frames (samples (twoSamples (some 1) (some 0)))).take (s.get h).replies.length,
        (lastFlags (slotMates ys) = 0 ↔ lastFlags ys = 0) :=
  ⟨by decide, interlace_iff (by decide) (Option.some_get _).symm⟩

/-- The second frame goes to a slot that has not seen the type of the first. -/
theorem interlace_lost : let s := exec step (fresh (.start 0 0 0) true) (twoSamples (some 1) none)
    Meets step InTurn (fresh (.start 0 0 0) true) (twoSamples (some 1) none) ∧
    ∃ h : s.isSome, ¬ ((s.get h).replies <+:
      (frames (samples (twoSamples (some 1) none))).map fun ys => (framePicture ys, lastFlags ys != 0)) :=
  ⟨by decide, by decide, by decide⟩

end Session

end DShow.Ring
