import DShowServer.Ring.Session

/-!
# Frames are answered in the order of their delivery

`line` is the queue the ring stands for: the frames answered so far, the one
being answered and those that wait, in this order. A delivery appends to it
(`step_line`), after dropping the newest frame that waits if all slots are
occupied; nothing else changes it. So the line is always a sublist of the
samples delivered since the last seek, and all of them if no delivery found
the slots occupied.
-/

namespace DShow.Ring.Session

open Pool Run SampleProcUserData

variable {s s' : Session}

/-- The frames of the replies that carry the 0x01 bit. -/
def answered (s : Session) : List Picture :=
  (s.answers.filter fun a => hasFrame a.ret).map Answer.picture

/-- The frame of a reply that `GetPTS` has not completed yet. -/
def pending (s : Session) : List Picture :=
  match s.phase with
  | .answered ret pointer size =>
    if hasFrame ret then [⟨pointer, size, Ring.getPTS s.ring⟩] else []
  | _ => []

/-- The frames not answered yet. -/
def waiting (s : Session) : List Picture :=
  (s.ring.occupied.filter fun f => f.1 = .set).map Prod.snd

def line (s : Session) : List Picture := s.answered ++ (s.pending ++ s.waiting)

/-- The time of a frame being answered is that of the first slot. -/
theorem getPTS_eq {r : SampleProcUserData} (h : r.WF) {f : FrameState × Picture}
    {rest : List (FrameState × Picture)} (ho : r.occupied = f :: rest) : Ring.getPTS r = f.2.pts :=
  congrArg (fun f => f.2.pts) (h.last_core ho)

theorem pending_deliver (h : s.Inv) {r : SampleProcUserData} {pool : PoolState}
    {delivered : List Picture} (hw : r.WF)
    (hf : ∀ f rest, s.ring.occupied = f :: rest → ∃ rest', r.occupied = f :: rest') :
    pending { s with ring := r, pool := pool, delivered := delivered } = s.pending := by
  have hp := h.atPhase
  simp only [pending]
  cases hph : s.phase with
  | answered ret pointer size =>
    rw [hph] at hp
    rcases hp with rfl | ⟨-, pts, rest, ho⟩
    · simp
    · obtain ⟨rest', ho'⟩ := hf _ _ ho
      simp only [getPTS_eq h.wf ho, getPTS_eq hw ho']
  | _ => rfl

/-- What a step does to the line: a delivery appends its picture to the line,
or to a part of it if the slots are all occupied; a seek empties it; nothing
else changes it. -/
theorem step_line (h : s.Inv) {e : Event} (hs : step s e = some s') :
    (s'.delivered = s.delivered ∧ s'.line = s.line) ∨
    (∃ x p front, e = .deliver x ∧ s'.delivered = s.delivered ++ [x.picture p] ∧
      s'.line = front ++ [x.picture p] ∧ front.Sublist s.line ∧
      (s.ring.occupied.length < pdMaxFrames → front = s.line)) ∨
    (s'.delivered = [] ∧ s'.line = []) := by
  cases h.effect hs with
  | undelivered hx hw ho =>
    refine .inl ⟨rfl, ?_⟩
    simp only [line, pending_deliver h hw fun _ rest hf => ⟨rest, ho.trans hf⟩]
    simp only [waiting, answered, ho]
  | delivered hx hlock hw ho =>
    obtain ⟨-, hf⟩ := first_of_deliver h.wf hw ho
    refine .inr (.inl ⟨_, _, s.answered ++ (s.pending ++
      ((s.ring.occupied.take (pdMaxFrames - 1)).filter fun f => f.1 = .set).map Prod.snd), rfl, rfl,
      ?_, ?_, fun hlt => ?_⟩)
    · simp only [line, pending_deliver h hw hf]
      simp [waiting, answered, ho]
    · exact ((((List.take_sublist _ _).filter _).map _).append_left _).append_left _
    · rw [List.take_of_length_le (Nat.le_sub_one_of_lt hlt)]
      rfl
  | pool | inputRelease => exact .inl ⟨rfl, rfl⟩
  | freed hph hsent hlock hw ho =>
    have : s.ring.last.core.1 ≠ .set := by
      rw [show s.ring.last.core.1 = .sent from hsent]; decide
    exact .inl ⟨rfl, by simp [line, pending, answered, waiting, hph, ho, this]⟩
  | notSent hph | timed hph =>
    exact .inl ⟨rfl, by simp only [line, pending, answered, waiting, hph]⟩
  | answered hph hpage hw ho ho' =>
    refine .inl ⟨rfl, ?_⟩
    simp only [line, pending, hph, hasFrame_replyWord, if_true, getPTS_eq hw ho', waiting, ho, ho',
      answered]
    rfl
  | noFrame hph => exact .inl ⟨rfl, by simp [line, pending, hph, waiting, answered]⟩
  | @getPTS ret pointer size hph =>
    refine .inl ⟨rfl, ?_⟩
    have hnp : ∀ s : Session, s.phase = (if ret = -1 then .exited else .idle) → s.pending = [] := by
      intro s hs
      simp only [pending, hs]
      split
      · rename_i hq
        exact (completed_ne_answered _ _ _ _ hq).elim
      · rfl
    have ha : ((s.answers ++ [(⟨ret, pointer, size, Ring.getPTS s.ring⟩ : Answer)]).filter
        fun a => hasFrame a.ret).map Answer.picture = s.answered ++ s.pending := by
      cases hb : hasFrame ret <;> simp [answered, pending, hph, hb, Answer.picture]
    show _ ++ (pending _ ++ s.waiting) = _
    rw [hnp _ rfl, List.nil_append, line, ← List.append_assoc]
    exact congrArg (· ++ s.waiting) ha
  | seek => exact .inr (.inr ⟨rfl, by simp [line, answered, pending, waiting, fresh, zero_wf.2]⟩)

/-- A delivery finds a slot that is free. -/
def FindsFree (s : Session) : Event → Prop
  | .deliver _ => s.ring.occupied.length < pdMaxFrames
  | _ => True

/-- A delivery into a full ring replaces the newest frame, which waits. -/
theorem deliver_full (h : s.Inv) (hfull : s.ring.occupied.length = pdMaxFrames) {x : MediaSample}
    {p : Nat} (hx : x.pointer = some p) (hs : step s (.deliver x) = some s') :
    ∃ front old, s.ring.occupied = front ++ [(.set, old)] ∧
      s'.ring.occupied = front ++ [(.set, x.picture p)] := by
  cases h.effect hs with
  | undelivered hx' => rw [hx] at hx'; cases hx'
  | delivered hx' hlock hw ho =>
    cases hx.symm.trans hx'
    have hne : s.ring.occupied ≠ [] := List.ne_nil_of_length_eq_add_one hfull
    have htake : s.ring.occupied.take (pdMaxFrames - 1) = s.ring.occupied.dropLast := by
      rw [List.dropLast_eq_take, hfull]
    have hlast : (s.ring.occupied.getLast hne).1 = .set := by
      refine h.wf.queued _ ?_
      have htl : s.ring.occupied.tail ≠ [] := by
        intro ht
        have := congrArg List.length ht
        rw [List.length_tail, hfull] at this
        cases this
      rw [← List.getLast_tail htl]
      exact List.getLast_mem htl
    refine ⟨s.ring.occupied.dropLast, (s.ring.occupied.getLast hne).2, ?_, htake ▸ ho⟩
    rw [← hlast]
    exact (List.dropLast_append_getLast hne).symm

/-- Where every delivery finds a free slot, the line is all that was delivered. -/
theorem delivered_eq_line {pool : PoolState} {input : Bool} {es : List Event}
    (hm : Meets step FindsFree (fresh pool input) es)
    (hr : exec step (fresh pool input) es = some s) : s.delivered = s.line := by
  suffices h : s.Inv ∧ s.delivered = s.line from h.2
  refine exec_inv (I := fun s => s.Inv ∧ s.delivered = s.line) ?_
    ⟨fresh_inv pool input, rfl⟩ hm hr
  rintro t e t' ⟨ht, heq⟩ hc hst
  refine ⟨ht.step hst, ?_⟩
  rcases step_line ht hst with ⟨hd, hl⟩ | ⟨x, p, front, rfl, hd, hl, -, hf⟩ | ⟨hd, hl⟩ <;> rw [hd, hl]
  · exact heq
  · rw [hf hc, heq]

/-- **Frames are answered in order.** After any run of commands and deliveries
the pictures of the replies that carry a frame form a sublist of the samples
delivered since the last seek; if every delivery found a free slot, they and
the frames still waiting are all of them; and a delivery that finds none
replaces the newest frame, one that was not answered, and leaves the others. -/
theorem answers_in_order {pool : PoolState} {input : Bool} {es : List Event}
    (hr : exec step (fresh pool input) es = some s) :
    s.answered.Sublist s.delivered ∧
    (Meets step FindsFree (fresh pool input) es →
      s.delivered = s.answered ++ (s.pending ++ s.waiting)) ∧
    ∀ x p s', x.pointer = some p → s.ring.occupied.length = pdMaxFrames →
      step s (.deliver x) = some s' → ∃ front old, s.ring.occupied = front ++ [(.set, old)] ∧
        s'.ring.occupied = front ++ [(.set, x.picture p)] := by
  have hinv : s.Inv := exec_inv' (fun _ _ _ h hs => h.step hs) (fresh_inv pool input) hr
  refine ⟨?_, fun hm => ?_, fun x p s' hx hfull hs => deliver_full hinv hfull hx hs⟩
  · suffices h : s.Inv ∧ s.line.Sublist s.delivered from
      (List.sublist_append_left _ _).trans h.2
    refine exec_inv' (I := fun s => s.Inv ∧ s.line.Sublist s.delivered) ?_
      ⟨fresh_inv pool input, List.Sublist.refl _⟩ hr
    rintro t e t' ⟨ht, hsub⟩ hst
    refine ⟨ht.step hst, ?_⟩
    rcases step_line ht hst with ⟨hd, hl⟩ | ⟨x, p, front, -, hd, hl, hf, -⟩ | ⟨hd, hl⟩ <;> rw [hd, hl]
    · exact hsub
    · exact (hf.trans hsub).append_right _
  · exact delivered_eq_line hm hr

/-- Two samples delivered for one packet are answered one after the other. -/
theorem answers_in_order_two :
    let s := exec step (fresh (.start 0 0 0) true)
      [.freeFrame, .setPTS, .deliver ⟨none, some 64, 0, 16, 1⟩, .deliver ⟨some 1, some 96, 8, 16, 2⟩,
        .decode false, .getPTS, .freeFrame, .setPTS, .decode false, .getPTS]
    ∃ h : s.isSome, (s.get h).answered = [⟨64, 16, 1⟩, ⟨96, 8, 2⟩] ∧
      (s.get h).answered.Sublist (s.get h).delivered :=
  ⟨by decide, by decide, (answers_in_order (Option.some_get _).symm).1⟩

end DShow.Ring.Session
