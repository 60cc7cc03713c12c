import DShowServer.Ring.Model
import DShowServer.Framework.Run

/-!
# The server's commands and the codec's deliveries

The server answers `VD_DECODE` by four calls, `FreeFrame`, `SetPTS`,
`DecodeInternal` and `GetPTS`, and `VD_SEEK` by `SeekInternal`; one call is one
step here. The codec delivers while `Receive` runs or between two of these
calls. `DecodeInternal` looks at the ring only after `Receive`, so that a
delivery in `Receive` stands before its step. One from a thread of the codec in
the middle of another call is a data race and left out. `delivered` and
`answers` record what happened since the last seek.
-/

namespace DShow.Ring

open Pool Run SampleProcUserData

/-- A reply to a decode command: the word, what the frame it speaks of was
copied or read from, and the time. -/
structure Answer where
  ret : BitVec 32
  pointer : Nat
  size : Int
  pts : Nat

/-- The picture a reply speaks of. -/
def Answer.picture (a : Answer) : Picture := ⟨a.pointer, a.size, a.pts⟩

/-- Where the server is: between two commands, after `FreeFrame`, after
`SetPTS`, after `DecodeInternal` with its reply, or out of its loop. -/
inductive Phase
  | idle
  | freed
  | timed
  | answered (ret : BitVec 32) (pointer : Nat) (size : Int)
  | exited

/-- The server's side of a session. `input` is whether the one sample of the
input allocator is free. -/
structure Session where
  ring : SampleProcUserData
  pool : PoolState
  input : Bool
  phase : Phase
  delivered : List Picture
  answers : List Answer

/-- A delivery, a call on the pool, the codec giving the input sample back, and
the calls the commands are made of. After `Receive` the codec may keep its
reference to the input sample. -/
inductive Event
  | deliver (s : MediaSample)
  | pool (c : PoolCall)
  | inputRelease
  | freeFrame
  | setPTS
  | decode (keep : Bool)
  | getPTS
  | seek

namespace Session

/-- The state after `SeekInternal`, and before the first command. -/
def fresh (pool : PoolState) (input : Bool) : Session := ⟨zero, pool, input, .idle, [], []⟩

/-- One step. `SetPTS` calls `Release` through the sample it asked for, which
is `NULL` if the input allocator had none. -/
def step (s : Session) : Event → Option Session
  | .deliver x =>
    (copySample s.ring s.pool.mem x).map fun (_, r, m) =>
      { s with
        ring := r, pool := { s.pool with mem := m }
        delivered := s.delivered ++ (x.pointer.map x.picture).toList }
  | .pool c =>
    match c with
    | .setlock _ _ => none
    | c => (s.pool.step c).map fun pool => { s with pool := pool }
  | .inputRelease => some { s with input := true }
  | .freeFrame =>
    match s.phase with
    | .idle => (Ring.freeFrame s.ring s.pool.mem).map fun (r, m) =>
        { s with ring := r, pool := { s.pool with mem := m }, phase := .freed }
    | _ => none
  | .setPTS =>
    match s.phase with
    | .freed => if s.input then some { s with phase := .timed } else none
    | _ => none
  | .decode keep =>
    match s.phase with
    | .timed => (decodeInternal s.input s.ring s.pool.mem).map fun (ret, r) =>
        { s with
          ring := r, input := !keep
          phase := .answered ret s.ring.last.frame_pointer s.ring.last.frame_size }
    | _ => none
  | .getPTS =>
    match s.phase with
    | .answered ret pointer size =>
      some { s with
        phase := if ret = -1 then .exited else .idle
        answers := s.answers ++ [⟨ret, pointer, size, Ring.getPTS s.ring⟩] }
    | _ => none
  | .seek =>
    match s.phase with
    | .idle => some (fresh s.pool s.input)
    | _ => none

/-- What holds of the ring where the server is: no frame is marked sent between
`FreeFrame` and the answer, and the answer is about the first frame. -/
def AtPhase (r : SampleProcUserData) (input : Bool) : Phase → Prop
  | .freed => r.last.state ≠ .sent
  | .timed => r.last.state ≠ .sent ∧ input = true
  | .answered ret pointer size =>
    ret = 0 ∨ ((∃ page interlace, ret = replyWord page interlace) ∧
      ∃ pts rest, r.occupied = (.sent, ⟨pointer, size, pts⟩) :: rest)
  | .idle | .exited => True

theorem AtPhase.imp {r r' : SampleProcUserData} {input input' : Bool} {ph : Phase}
    (h : AtPhase r input ph) (hi : input = true → input' = true)
    (hl : r.last.state ≠ .sent → r'.last.state ≠ .sent)
    (hf : ∀ f rest, r.occupied = f :: rest → ∃ rest', r'.occupied = f :: rest') :
    AtPhase r' input' ph := by
  cases ph with
  | idle | exited => trivial
  | freed => exact hl h
  | timed => exact ⟨hl h.1, hi h.2⟩
  | answered ret pointer size =>
    exact Or.imp id (fun ⟨hret, pts, rest, ho⟩ => ⟨hret, pts, hf _ rest ho⟩) h

/-- The invariant of a session. -/
structure Inv (s : Session) : Prop where
  wf : s.ring.WF
  atPhase : AtPhase s.ring s.input s.phase

theorem fresh_inv (pool : PoolState) (input : Bool) : (fresh pool input).Inv := ⟨zero_wf.1, trivial⟩

variable {s s' : Session}

/-! ## What a step does -/

/-- Once `GetPTS` has completed a reply there is none under way. -/
theorem completed_ne_answered (ret ret' : BitVec 32) (pointer : Nat) (size : Int) :
    (if ret = -1 then Phase.exited else .idle) ≠ .answered ret' pointer size := by
  split <;> nofun

/-- What a step does, the functions it calls taken apart by what they do to the
occupied slots and to the pool. -/
inductive Effect (s : Session) : Event → Session → Prop
  | undelivered {x : MediaSample} {r : SampleProcUserData} (hx : x.pointer = none) (hw : r.WF)
      (ho : r.occupied = s.ring.occupied) : Effect s (.deliver x) { s with ring := r }
  | delivered {x : MediaSample} {p : Nat} {r : SampleProcUserData} {m : MemStruct}
      (hx : x.pointer = some p) (hlock : s.pool.mem.memstructSetlock p 1 = some m) (hw : r.WF)
      (ho : r.occupied = s.ring.occupied.take (pdMaxFrames - 1) ++ [(.set, x.picture p)]) :
      Effect s (.deliver x)
        { s with
          ring := r, pool := { s.pool with mem := m }, delivered := s.delivered ++ [x.picture p] }
  | pool {c : PoolCall} {pool : PoolState} (hc : ∀ ptr value, c ≠ .setlock ptr value)
      (hp : s.pool.step c = some pool) : Effect s (.pool c) { s with pool := pool }
  | inputRelease : Effect s .inputRelease { s with input := true }
  | freed {r : SampleProcUserData} {m : MemStruct} (hph : s.phase = .idle)
      (hsent : s.ring.last.state = .sent)
      (hlock : s.pool.mem.memstructSetlock s.ring.last.frame_pointer 0 = some m) (hw : r.WF)
      (ho : s.ring.occupied = s.ring.last.core :: r.occupied) :
      Effect s .freeFrame { s with ring := r, pool := { s.pool with mem := m }, phase := .freed }
  | notSent (hph : s.phase = .idle) (hns : s.ring.last.state ≠ .sent) :
      Effect s .freeFrame { s with phase := .freed }
  | timed (hph : s.phase = .freed) (hin : s.input = true) : Effect s .setPTS { s with phase := .timed }
  | answered {keep : Bool} {r : SampleProcUserData} {page : Int}
      {rest : List (FrameState × Picture)} (hph : s.phase = .timed)
      (hpage : s.pool.mem.getMemstructPagenum s.ring.last.frame_pointer = some page) (hw : r.WF)
      (ho : s.ring.occupied = (.set, s.ring.last.picture) :: rest)
      (ho' : r.occupied = (.sent, s.ring.last.picture) :: rest) :
      Effect s (.decode keep)
        { s with
          ring := r, input := !keep
          phase := .answered (replyWord page s.ring.last.interlace) s.ring.last.frame_pointer
            s.ring.last.frame_size }
  | noFrame {keep : Bool} (hph : s.phase = .timed) (hns : s.ring.last.state ≠ .set) :
      Effect s (.decode keep)
        { s with
          input := !keep
          phase := .answered 0 s.ring.last.frame_pointer s.ring.last.frame_size }
  | getPTS {ret : BitVec 32} {pointer : Nat} {size : Int}
      (hph : s.phase = .answered ret pointer size) :
      Effect s .getPTS
        { s with
          phase := if ret = -1 then .exited else .idle
          answers := s.answers ++ [⟨ret, pointer, size, Ring.getPTS s.ring⟩] }
  | seek (hph : s.phase = .idle) : Effect s .seek (fresh s.pool s.input)

theorem Inv.effect (h : s.Inv) {e : Event} (hs : step s e = some s') : Effect s e s' := by
  obtain ⟨hw, hp⟩ := h
  cases e with
  | deliver x =>
    simp only [step, Option.map_eq_some_iff] at hs
    obtain ⟨⟨hr, r, m⟩, hc, rfl⟩ := hs
    rcases copySample_cases hw hc with ⟨hx, -, rfl, hw', ho⟩ | ⟨p, hx, -, hlock, hw', ho⟩
    · rw [hx, Option.map_none, Option.toList_none, List.append_nil]
      exact .undelivered hx hw' ho
    · rw [hx]
      exact .delivered hx hlock hw' ho
  | pool c =>
    cases c with
    | setlock => cases hs
    | _ =>
      simp only [step, Option.map_eq_some_iff] at hs
      obtain ⟨pool, hp, rfl⟩ := hs
      exact .pool (fun _ _ hc => by cases hc) hp
  | inputRelease => cases hs; exact .inputRelease
  | freeFrame =>
    simp only [step] at hs
    split at hs <;> [rename_i hph; cases hs]
    simp only [Option.map_eq_some_iff] at hs
    obtain ⟨⟨r, m⟩, hc, rfl⟩ := hs
    rcases freeFrame_cases hw hc with ⟨hsent, hlock, hw', ho⟩ | ⟨hns, rfl, rfl⟩
    · exact .freed hph hsent hlock hw' ho
    · exact .notSent hph hns
  | setPTS =>
    simp only [step] at hs
    split at hs <;> [rename_i hph; cases hs]
    split at hs <;> [rename_i hin; cases hs]
    cases hs
    exact .timed hph hin
  | decode keep =>
    simp only [step] at hs
    split at hs <;> [rename_i hph; cases hs]
    rw [hph] at hp
    simp only [Option.map_eq_some_iff, hp.2] at hs
    obtain ⟨⟨ret, r⟩, hc, rfl⟩ := hs
    rcases decodeInternal_cases hw hc with
      ⟨-, hw', ⟨page, hpage, rfl⟩, rest, ho, ho'⟩ | ⟨hns, rfl, rfl⟩
    · exact .answered hph hpage hw' ho ho'
    · exact .noFrame hph hns
  | getPTS =>
    simp only [step] at hs
    split at hs <;> [rename_i hph; cases hs]
    cases hs
    exact .getPTS hph
  | seek =>
    simp only [step] at hs
    split at hs <;> [rename_i hph; cases hs]
    cases hs
    exact .seek hph

/-- A ring after a delivery has the same first frame, if it had one, and none is
marked sent that was not. -/
theorem first_of_deliver {r r' : SampleProcUserData} (h : r.WF) (h' : r'.WF) {p : Picture}
    (ho : r'.occupied = r.occupied.take (pdMaxFrames - 1) ++ [(.set, p)]) :
    (r.last.state ≠ .sent → r'.last.state ≠ .sent) ∧
      ∀ f rest, r.occupied = f :: rest → ∃ rest', r'.occupied = f :: rest' := by
  refine ⟨fun hs hs' => ?_, fun f rest hf => ?_⟩
  · cases hocc : r.occupied with
    | nil =>
      rw [hocc] at ho
      have := congrArg Prod.fst (h'.last_core ho)
      rw [show r'.last.core.1 = .sent from hs'] at this
      cases this
    | cons f rest =>
      have h₁ := h.last_core hocc
      have h₂ := h'.last_core (f := f) (by rw [ho, hocc]; rfl)
      exact hs ((congrArg Prod.fst (h₁.trans h₂.symm)).trans hs')
  · rw [hf] at ho
    exact ⟨_, ho⟩

/-- Rings with the same occupied slots agree on whether the first was sent. -/
theorem last_sent_of_occupied {r r' : SampleProcUserData} (h : r.WF) (h' : r'.WF)
    (ho : r'.occupied = r.occupied) (hs : r.last.state ≠ .sent) : r'.last.state ≠ .sent := by
  intro hs'
  obtain ⟨rest, hr⟩ := h'.occupied_eq_cons (by rw [hs']; decide)
  exact hs ((congrArg Prod.fst (h.last_core (ho ▸ hr))).trans hs')

/-- Every step keeps the invariant. -/
theorem Inv.step (h : s.Inv) {e : Event} (hs : Session.step s e = some s') : s'.Inv := by
  have he := h.effect hs
  obtain ⟨hw, hp⟩ := h
  cases he with
  | undelivered hx hw' ho =>
    exact ⟨hw', hp.imp id (last_sent_of_occupied hw hw' ho) fun _ rest hf => ⟨rest, ho.trans hf⟩⟩
  | delivered hx hlock hw' ho =>
    obtain ⟨hl, hf⟩ := first_of_deliver hw hw' ho
    exact ⟨hw', hp.imp id hl hf⟩
  | pool => exact ⟨hw, hp⟩
  | inputRelease => exact ⟨hw, hp.imp (fun _ => rfl) id fun _ rest ho => ⟨rest, ho⟩⟩
  | freed hph hsent hlock hw' ho =>
    refine ⟨hw', fun hsent' => ?_⟩
    obtain ⟨rest, hr⟩ := hw'.occupied_eq_cons (by rw [hsent']; decide)
    have := hw.queued _ (by rw [ho, hr]; exact List.mem_cons_self)
    cases this.symm.trans hsent'
  | notSent hph hns => exact ⟨hw, hns⟩
  | timed hph hin => rw [hph] at hp; exact ⟨hw, hp, hin⟩
  | answered hph hpage hw' ho ho' => exact ⟨hw', .inr ⟨⟨_, _, rfl⟩, _, _, ho'⟩⟩
  | noFrame => exact ⟨hw, .inl rfl⟩
  | getPTS => exact ⟨hw, by dsimp only; split <;> trivial⟩
  | seek => exact fresh_inv _ _

/-- The reply word of a frame holds the page number of its pointer. -/
theorem decode_page (h : s.Inv) {keep : Bool} (hs : Session.step s (.decode keep) = some s')
    {ret : BitVec 32} {pointer : Nat} {size : Int} (ha : s'.phase = .answered ret pointer size)
    (hf : hasFrame ret = true) : ∃ page interlace, ret = replyWord page interlace ∧
      s.pool.mem.getMemstructPagenum pointer = some page := by
  cases h.effect hs with
  | answered hph hpage => cases ha; exact ⟨_, _, rfl, hpage⟩
  | noFrame => cases ha; exact absurd (hasFrame_zero.symm.trans hf) Bool.false_ne_true

/-! ## The pool of a session -/

/-- What a step does to the pool is nothing or one call on it. -/
theorem step_pool (h : s.Inv) {e : Event} (hs : Session.step s e = some s') :
    s'.pool = s.pool ∨ ∃ c, s.pool.step c = some s'.pool := by
  cases h.effect hs with
  | delivered hx hlock => exact .inr ⟨.setlock _ 1, by rw [PoolState.step, hlock]; rfl⟩
  | pool hc hp => exact .inr ⟨_, hp⟩
  | freed hph hsent hlock => exact .inr ⟨.setlock _ 0, by rw [PoolState.step, hlock]; rfl⟩
  | _ => exact .inl rfl

/-- A step keeps the pool safe and its pages where they are. -/
theorem step_safe (h : s.Inv) (hp : s.pool.Safe) {e : Event} (hs : Session.step s e = some s') :
    s'.pool.Safe ∧
      PoolState.Over s.pool.mem.base s.pool.mem.pagecount s.pool.mem.pagesize s'.pool.mem := by
  rcases step_pool h hs with he | ⟨c, hc⟩
  · rw [he]; exact ⟨hp, rfl, rfl, rfl⟩
  · exact ⟨hp.step hc, hp.step_over hc⟩

/-- In every run over a pool of an address range the pool is safe and stays in
the range. -/
theorem run_pool {base count size : Nat} (hs : 0 < size) (hs' : size < 2 ^ 31)
    (hc : count < 2 ^ 31) (hb : base + size * count < 2 ^ 32) {input : Bool} {es : List Event}
    (hr : exec Session.step (fresh (.start base count size) input) es = some s) :
    s.Inv ∧ s.pool.Safe ∧ PoolState.Over base count size s.pool.mem := by
  have h₀ := PoolState.run_safe hs hs' hc hb (exec_nil ..)
  refine exec_inv' (I := fun s => s.Inv ∧ s.pool.Safe ∧ PoolState.Over base count size s.pool.mem) ?_
    ⟨fresh_inv _ _, h₀⟩ hr
  rintro u e u' ⟨hi, hsafe, ho⟩ hst
  obtain ⟨hsafe', ho'⟩ := step_safe hi hsafe hst
  exact ⟨hi.step hst, hsafe', ho'.trans ho⟩

end Session

/-! ## The pointers of the occupied slots -/

/-- What a call of the server leaves of what is kept for the occupied slots. -/
def remain {α : Type*} (s : Session) : Event → List α → List α
  | .freeFrame, l => if s.ring.last.state = .sent then l.tail else l
  | .seek, _ => []
  | _, l => l

/-- The pointers of the occupied slots. -/
def pointers (s : Session) : List Nat :=
  s.ring.occupied.map fun f => f.2.pointer

/-- The pointers after a call of the server. -/
theorem pointers_step {s s' : Session} (h : s.Inv) {e : Event} (he : ∀ x, e ≠ .deliver x)
    (hs : s.step e = some s') : pointers s' = remain s e (pointers s) := by
  cases h.effect hs with
  | undelivered | delivered => exact absurd rfl (he _)
  | freed hph hsent hlock hw ho =>
    simp only [remain, if_pos hsent, pointers, ho]
    rfl
  | notSent hph hns =>
    simp only [remain, if_neg hns]
    rfl
  | answered hph hpage hw ho ho' => simp only [remain, pointers, ho, ho', List.map_cons]
  | seek =>
    show List.map _ zero.occupied = []
    rw [zero_wf.2]
    rfl
  | _ => rfl

/-- The pointers after a delivery. -/
theorem pointers_deliver {s s' : Session} (h : s.Inv) {x : MediaSample}
    (hs : s.step (.deliver x) = some s') :
    (x.pointer = none ∧ pointers s' = pointers s) ∨
      ∃ p, x.pointer = some p ∧ pointers s' = (pointers s).take (pdMaxFrames - 1) ++ [p] := by
  cases h.effect hs with
  | undelivered hx hw ho => exact .inl ⟨hx, by simp only [pointers, ho]⟩
  | delivered hx hlock hw ho =>
    refine .inr ⟨_, hx, ?_⟩
    simp only [pointers, ho, List.map_append, List.map_take]
    rfl

theorem pointers_deliver_some {s s' : Session} (h : s.Inv) {x : MediaSample} {p : Nat}
    (hx : x.pointer = some p) (hs : s.step (.deliver x) = some s') :
    pointers s' = (pointers s).take (pdMaxFrames - 1) ++ [p] := by
  rcases pointers_deliver h hs with ⟨hx', -⟩ | ⟨q, hx', e⟩
  · rw [hx] at hx'; cases hx'
  · cases hx.symm.trans hx'
    exact e

theorem remain_map {α β : Type*} (f : α → β) (s : Session) (e : Event) (l : List α) :
    remain s e (l.map f) = (remain s e l).map f := by
  cases e with
  | freeFrame =>
    simp only [remain]
    split
    · exact List.map_tail.symm
    · rfl
  | _ => rfl

theorem remain_subset {α : Type*} (s : Session) (e : Event) (l : List α) : remain s e l ⊆ l := by
  cases e with
  | freeFrame =>
    simp only [remain]
    split
    · exact List.tail_subset l
    · exact List.Subset.refl _
  | seek => exact List.nil_subset _
  | _ => exact List.Subset.refl _

@[simp] theorem pointers_fresh (pool : PoolState) (input : Bool) :
    pointers (.fresh pool input) = [] := by
  simp only [pointers, Session.fresh, zero_wf.2, List.map_nil]

end DShow.Ring
