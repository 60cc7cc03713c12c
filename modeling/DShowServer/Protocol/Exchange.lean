import DShowServer.Protocol.Model

/-!
# Whose turn it is

As long as the client waits for every reply, its tokens and the server's
alternate, and with them the right to the shared memory: `Free` when it is the
client's, `Called` from the client's post until it has taken the server's token.
What is in the header then is what the one wrote last for the other. `Stage` says
which of them holds at each statement of the client, and every step keeps it
(`Inv.step`).

A client that goes on after an expired wait is ahead of the server for good:
`not_exchange` has it write the header while the server works, and take the
token of one command for the reply to the next.
-/

namespace DShow.Protocol.State

open Run

variable {s s' : State}

/-- The memory is the client's: every command has its answer, and no token is
on its way. -/
structure Free (s : State) : Prop where
  idle : s.server.busy = false
  toServer : s.toServer = 0
  toClient : s.toClient = 0
  answers : s.answers.length = s.posted

/-- The header holds the answer to the last command. -/
def Answered (s : State) : Prop := s.answers.getLast? = some ⟨some s.shared.ret, some s.shared.pts⟩

/-- What the server has written of the answer to a decode command. -/
def Decoding (s : State) : Prop :=
  match s.server with
  | .woken => s.shared.ret = vdDecode
  | .setPTS | .decodeInternal | .storeRet _ => True
  | .storePts => s.answer.ret = some s.shared.ret
  | .loadRet | .post => s.answer = ⟨some s.shared.ret, some s.shared.pts⟩
  | .exited => True
  | _ => False

/-- The client has posted a command, and waits: the token is on its way, or the
server works, or its token is. `decode` says whether the command is one whose
reply is read. -/
inductive Called (decode : Prop) (s : State) : Prop
  | sent (idle : s.server.busy = false) (toServer : s.toServer = 1) (toClient : s.toClient = 0)
    (answers : s.answers.length + 1 = s.posted) (cmd : decode → s.shared.ret = vdDecode)
  | working (busy : s.server.busy = true ∨ s.server = .exited) (toServer : s.toServer = 0)
    (toClient : s.toClient = 0) (answers : s.answers.length + 1 = s.posted)
    (reply : decode → s.Decoding)
  | replied (idle : s.server.busy = false) (toServer : s.toServer = 0) (toClient : s.toClient = 1)
    (answers : s.answers.length = s.posted) (reply : decode → s.Answered)

/-- Where the memory is at each statement of the client. -/
def Stage (s : State) : Prop :=
  match s.client with
  | .setPts _ | .copyData _ | .setBuflen _ | .postDecode _ => s.Free ∧ s.shared.ret = vdDecode
  | .waitDecode _ => s.Called True
  | .waitSeek => s.Called False
  | .testRet | .testSign | .testPts | .loadPts | .testPage | .loadPage => s.Free ∧ s.Answered
  | .ended => True
  | _ => s.Free

/-- Where the client can be once a wait has expired: between two calls, or,
without a server, in one that gets no reply. -/
def Stopped (s : State) : Prop :=
  match s.client with
  | .idle => True
  | .setPts _ | .copyData _ | .setBuflen _ | .postDecode _ | .waitDecode _ | .postSeek | .waitSeek
  | .postEnd | .ended => s.Gone
  | _ => False

/-- The invariant of the runs in which the client waits for every reply it can
get. -/
structure Inv (s : State) : Prop where
  replies : s.RepliesMatch
  stage : s.expired = false → s.Stage
  stopped : s.expired = true → s.Stopped

theorem start_inv (shared : Shared) (bih : Option (List UInt8)) : (start shared bih).Inv where
  replies := fun _ h => absurd h List.not_mem_nil
  stage := fun _ => ⟨rfl, rfl, rfl, rfl⟩
  stopped := nofun

/-! ## The server -/

/-- The server does nothing to the memory while it is the client's. -/
theorem Free.serverStep (h : s.Free) {o : Outcome} (hs : s.serverStep o = some s') :
    s'.Free ∧ s'.shared = s.shared ∧ s'.answers = s.answers := by
  obtain ⟨hi, hc, hr, ha⟩ := h
  cases hb : s.server <;> simp only [State.serverStep, hb] at hs <;> rw [hb] at hi
  case off | exited => cases hs
  case readCmd | openCodec | connect => cases hs; exact ⟨⟨rfl, hc, hr, ha⟩, rfl, rfl⟩
  case waiting => rw [if_pos hc] at hs; cases hs
  all_goals cases hi

/-- The server takes the token, writes its answer and posts. -/
theorem Called.serverStep {d : Prop} (h : s.Called d) {o : Outcome} (hs : s.serverStep o = some s') :
    s'.Called d := by
  cases h with
  | sent hi hc hr ha hcmd =>
    cases hb : s.server <;> simp only [State.serverStep, hb] at hs <;> rw [hb] at hi
    case off | exited => cases hs
    case readCmd | openCodec | connect => cases hs; exact .sent rfl hc hr ha hcmd
    case waiting =>
      rw [if_neg (by omega)] at hs
      cases hs
      exact .working (.inl rfl) (by dsimp only; omega) hr ha hcmd
    all_goals cases hi
  | working hbusy hc hr ha hreply =>
    cases hb : s.server <;> simp only [State.serverStep, hb] at hs <;> rw [hb] at hbusy <;>
      simp only [Decoding, hb] at hreply
    case off | readCmd | openCodec | connect | waiting => rcases hbusy with h | h <;> cases h
    case exited => cases hs
    case woken =>
      split at hs <;> [skip; split at hs <;> [skip; split at hs <;> [skip; split at hs]]]
      all_goals rename_i hcmd; cases hs
      · exact .working (.inr rfl) hc hr ha fun _ => trivial
      · exact .working (.inl rfl) hc hr ha fun _ => trivial
      · exact .working (.inl rfl) hc hr ha fun hd => absurd (hcmd.symm.trans (hreply hd)) (by decide)
      · exact .working (.inl rfl) hc hr ha fun hd => absurd (hcmd.symm.trans (hreply hd)) (by decide)
      · exact .working (.inl rfl) hc hr ha fun hd => absurd (hreply hd) ‹_›
    case setPTS | decodeInternal => cases hs; exact .working (.inl rfl) hc hr ha fun _ => trivial
    case storeRet ret => cases hs; exact .working (.inl rfl) hc hr ha fun _ => rfl
    case storePts =>
      cases hs
      refine .working (.inl rfl) hc hr ha fun hd => ?_
      show (⟨s.answer.ret, some o.pts⟩ : Answer) = ⟨some s.shared.ret, some o.pts⟩
      rw [hreply hd]
    case loadRet => cases hs; exact .working (.inl rfl) hc hr ha hreply
    case seekInternal | reloadBih =>
      cases hs
      exact .working (.inl rfl) hc hr ha fun hd => (hreply hd).elim
    case post =>
      cases hs
      refine .replied ?_ hc (by dsimp only; omega) ?_ fun hd => ?_
      · dsimp only
        split <;> rfl
      · dsimp only
        rw [List.length_append, List.length_singleton, ha]
      · show (s.answers ++ [s.answer]).getLast? = some ⟨some s.shared.ret, some s.shared.pts⟩
        rw [List.getLast?_concat, hreply hd]
  | replied hi hc hr ha hreply =>
    cases hb : s.server <;> simp only [State.serverStep, hb] at hs <;> rw [hb] at hi
    case off | exited => cases hs
    case readCmd | openCodec | connect => cases hs; exact .replied rfl hc hr ha hreply
    case waiting => rw [if_pos hc] at hs; cases hs
    all_goals cases hi

/-- A server that ends leaves everything as it is. -/
theorem serverExit_eq (hs : s.serverExit = some s') : s' = { s with server := .exited } := by
  unfold State.serverExit at hs
  split at hs <;> cases hs
  rfl

theorem Called.serverExit {d : Prop} (h : s.Called d) : Called d { s with server := .exited } := by
  cases h with
  | sent hi hc hr ha hcmd => exact .sent rfl hc hr ha hcmd
  | working hbusy hc hr ha hreply => exact .working (.inr rfl) hc hr ha fun _ => trivial
  | replied hi hc hr ha hreply => exact .replied rfl hc hr ha hreply

/-- What a step of the server leaves alone. -/
theorem serverStep_frame {o : Outcome} (hs : s.serverStep o = some s') :
    s'.client = s.client ∧ s'.reads = s.reads ∧ s'.expired = s.expired ∧
      ∃ l, s'.answers = s.answers ++ l := by
  cases hb : s.server <;> simp only [State.serverStep, hb] at hs
  case off | exited => cases hs
  case waiting => split at hs <;> cases hs; exact ⟨rfl, rfl, rfl, [], (List.append_nil _).symm⟩
  case woken =>
    split at hs <;> [skip; split at hs <;> [skip; split at hs <;> [skip; split at hs]]]
    all_goals cases hs; exact ⟨rfl, rfl, rfl, [], (List.append_nil _).symm⟩
  case post => cases hs; exact ⟨rfl, rfl, rfl, _, rfl⟩
  all_goals cases hs; exact ⟨rfl, rfl, rfl, [], (List.append_nil _).symm⟩

theorem RepliesMatch.append (h : s.RepliesMatch) (hr : s'.reads = s.reads)
    (ha : ∃ l, s'.answers = s.answers ++ l) : s'.RepliesMatch := by
  obtain ⟨l, ha⟩ := ha
  intro kr hkr
  rw [hr] at hkr
  obtain ⟨a, hk, hm⟩ := h kr hkr
  refine ⟨a, ?_, hm⟩
  rw [ha, List.getElem?_append_left (List.getElem?_eq_some_iff.mp hk).1, hk]

/-- The stage depends on the server only through whose turn it is. -/
theorem Stage.server (h : s.Stage) (hc : s'.client = s.client)
    (hfree : s.Free → s'.Free ∧ s'.shared = s.shared ∧ s'.answers = s.answers)
    (hcalled : ∀ d, s.Called d → s'.Called d) : s'.Stage := by
  unfold Stage at h ⊢
  cases hb : s.client <;> simp only [hb, hc] at h ⊢
  case setPts | copyData | setBuflen | postDecode =>
    obtain ⟨hf, hsh, -⟩ := hfree h.1
    exact ⟨hf, hsh ▸ h.2⟩
  case waitDecode | waitSeek => exact hcalled _ h
  case testRet | testSign | testPts | loadPts | testPage | loadPage =>
    obtain ⟨hf, hsh, ha⟩ := hfree h.1
    exact ⟨hf, by rw [Answered, hsh, ha]; exact h.2⟩
  all_goals exact (hfree h).1

/-- A client that has given up a wait is between two calls if there is a server. -/
theorem Stopped.server (h : s.Stopped) (hc : s'.client = s.client) (hx : s.server ≠ .exited) :
    s'.Stopped := by
  unfold Stopped at h ⊢
  cases hb : s.client <;> simp only [hb, hc] at h ⊢
  all_goals exact absurd h.1 hx

theorem Inv.serverStep (h : s.Inv) {o : Outcome} (hs : s.serverStep o = some s') : s'.Inv := by
  obtain ⟨hc, hr, he, ha⟩ := serverStep_frame hs
  refine ⟨h.replies.append hr ha, fun hx => ?_, fun hx => (h.stopped (he ▸ hx)).server hc fun hg => ?_⟩
  · exact (h.stage (he ▸ hx)).server hc (·.serverStep hs) fun _ h => h.serverStep hs
  · rw [State.serverStep, hg] at hs
    cases hs

theorem Inv.serverExit (h : s.Inv) (hs : s.serverExit = some s') : s'.Inv := by
  obtain rfl := serverExit_eq hs
  refine ⟨h.replies, fun hx => ?_, fun hx => (h.stopped hx).server rfl fun hg => ?_⟩
  · exact (h.stage hx).server rfl
      (fun hf => ⟨⟨rfl, hf.toServer, hf.toClient, hf.answers⟩, rfl, rfl⟩) fun _ h => h.serverExit
  · rw [State.serverExit, hg] at hs
    cases hs

/-! ## The client -/

/-- Reading the answer to the last command. -/
theorem RepliesMatch.note (h : s.RepliesMatch) (hf : s.Free) (ha : s.Answered) {r : Read}
    (hr : r = .ret s.shared.ret ∨ r = .pts s.shared.pts) : (s.note r).RepliesMatch := by
  intro kr hkr
  rcases List.mem_append.mp hkr with hkr | hkr
  · exact h kr hkr
  · obtain rfl := List.mem_singleton.mp hkr
    refine ⟨⟨some s.shared.ret, some s.shared.pts⟩, ?_, ?_⟩
    · show s.answers[s.posted - 1]? = _
      rw [← hf.answers, ← List.getLast?_eq_getElem?]
      exact ha
    · rcases hr with rfl | rfl <;> rfl

theorem Free.goto (h : s.Free) (c : ClientPc) : (s.goto c).Free :=
  ⟨h.idle, h.toServer, h.toClient, h.answers⟩

theorem Free.store (h : s.Free) (m : Shared) : (s.store m).Free :=
  ⟨h.idle, h.toServer, h.toClient, h.answers⟩

theorem Free.note (h : s.Free) (r : Read) : (s.note r).Free :=
  ⟨h.idle, h.toServer, h.toClient, h.answers⟩

/-- A post by a client that has the memory. -/
theorem Free.post {d : Prop} (h : s.Free) (hd : d → s.shared.ret = vdDecode) (c : ClientPc) :
    Called d (s.clientPost.goto c) :=
  .sent h.idle (congrArg (· + 1) h.toServer) h.toClient (congrArg (· + 1) h.answers) hd

/-- The token that ends a wait is the one for the command: the memory is the
client's again, and holds the answer. -/
theorem Called.take {d : Prop} (h : s.Called d) (ht : s.toClient ≠ 0) :
    s.take.Free ∧ (d → s.take.Answered) := by
  cases h with
  | sent _ _ hr => exact absurd hr ht
  | working _ _ hr => exact absurd hr ht
  | replied hi hc hr ha hreply => exact ⟨⟨hi, hc, by simp only [State.take, hr], ha⟩, hreply⟩

/-- What a step of a client that has not given up a wait must keep. -/
theorem Inv.of_stage (h : s.RepliesMatch) (he : s.expired = false) (hst : s.Stage) : s.Inv :=
  ⟨h, fun _ => hst, fun hx => absurd (he.symm.trans hx) Bool.false_ne_true⟩

/-- And of one that has. -/
theorem Inv.of_stopped (h : s.RepliesMatch) (he : s.expired = true) (hst : s.Stopped) : s.Inv :=
  ⟨h, fun hx => absurd (hx.symm.trans he) Bool.false_ne_true, fun _ => hst⟩

/-- A call of a client that waits for every reply it can get. -/
theorem Inv.begin (h : s.Inv) {c : Call} (hp : s.Patient (.begin c)) (hs : s.begin c = some s') :
    s.server.busy = false ∧ s'.Inv := by
  cases he : s.expired with
  | false =>
    have hst := h.stage he
    simp only [Stage] at hst
    unfold State.begin at hs
    split at hs
    case h_4 => cases hs
    all_goals rename_i hb; rw [hb] at hst
    case h_1 =>
      split at hs <;> cases hs
      exact ⟨hst.idle, .of_stage h.replies he ⟨(hst.store _).goto _, rfl⟩⟩
    all_goals cases hs; exact ⟨hst.idle, .of_stage h.replies he ((hst.store _).goto _)⟩
  | true =>
    have hg : s.Gone := hp.resolve_left (by rw [he]; decide)
    refine ⟨by rw [hg.1]; rfl, ?_⟩
    unfold State.begin at hs
    split at hs
    case h_4 => cases hs
    case h_1 => split at hs <;> cases hs; exact .of_stopped h.replies he hg
    all_goals cases hs; exact .of_stopped h.replies he hg

theorem Inv.expire (h : s.Inv) (hs : s.expire = some s') : s'.Inv := by
  unfold State.expire at hs
  split at hs
  case h_1 hb =>
    split at hs <;> cases hs
    refine ⟨h.replies, fun _ => trivial, fun hx => ?_⟩
    have := h.stopped hx
    rw [Stopped, hb] at this
    exact this.elim
  case h_4 => cases hs
  all_goals
    split at hs <;> cases hs
    exact ⟨h.replies, nofun, fun _ => trivial⟩

/-- Without a server, a call goes on to its wait and stays there. -/
theorem Stopped.clientStep (h : s.Stopped) (hs : s.clientStep = some s') :
    s.server.busy = false ∧ s'.Stopped ∧ s'.expired = s.expired ∧ s'.reads = s.reads ∧
      s'.answers = s.answers := by
  unfold Stopped at h
  cases hb : s.client <;> simp only [State.clientStep, hb] at h hs
  case idle | ended => cases hs
  case waitDecode | waitSeek => rw [if_pos h.2] at hs; cases hs
  all_goals cases hs; exact ⟨by rw [h.1]; rfl, h, rfl, rfl, rfl⟩

/-- A client that goes on at one of two statements. -/
theorem Stage.ite (c : Prop) [Decidable c] {x y : ClientPc} (hx : (s.goto x).Stage)
    (hy : (s.goto y).Stage) : (s.goto (if c then x else y)).Stage := by
  split
  · exact hx
  · exact hy

theorem Inv.clientStep (h : s.Inv) (hs : s.clientStep = some s') :
    (s.clientWrites .client = true → s.server.busy = false) ∧ s'.Inv := by
  cases he : s.expired with
  | true =>
    obtain ⟨hb, hst, hx, hr, ha⟩ := (h.stopped he).clientStep hs
    exact ⟨fun _ => hb, .of_stopped (h.replies.append hr ⟨[], by rw [ha, List.append_nil]⟩)
      (hx.trans he) hst⟩
  | false =>
  have hst := h.stage he
  have hrep := h.replies
  cases hb : s.client <;> simp only [Stage, State.clientStep, clientWrites, hb] at hst hs ⊢
  -- `init`
  case clear =>
    cases hs
    exact ⟨fun _ => hst.idle, .of_stage hrep he
      (.ite _ ((hst.store _).goto .hasBih) ((hst.store _).goto .spawn))⟩
  case hasBih | copyBih =>
    cases hs
    exact ⟨fun _ => hst.idle, .of_stage hrep he ((hst.store _).goto _)⟩
  case spawn =>
    cases hs
    exact ⟨nofun, .of_stage hrep he ⟨rfl, hst.toServer, hst.toClient, hst.answers⟩⟩
  case accept => split at hs <;> cases hs; exact ⟨nofun, .of_stage hrep he (hst.goto _)⟩
  case idle | ended => cases hs
  -- `decode` up to its wait
  case setPts | copyData | setBuflen =>
    cases hs
    exact ⟨fun _ => hst.1.idle, .of_stage hrep he ⟨(hst.1.store _).goto _, hst.2⟩⟩
  case postDecode => cases hs; exact ⟨nofun, .of_stage hrep he (hst.1.post (fun _ => hst.2) _)⟩
  case waitDecode =>
    split at hs <;> [cases hs; rename_i ht]
    cases hs
    obtain ⟨hf, ha⟩ := hst.take ht
    exact ⟨nofun, .of_stage hrep he (.ite _ (hf.goto .idle) ⟨hf.goto .testRet, ha trivial⟩)⟩
  -- `decode` reading the reply
  case testRet =>
    cases hs
    have hf := hst.1.note (.ret s.shared.ret)
    exact ⟨nofun, .of_stage (hrep.note hst.1 hst.2 (.inl rfl)) he
      (.ite _ (hf.goto .idle) ⟨hf.goto .testSign, hst.2⟩)⟩
  case testSign =>
    cases hs
    have hf := hst.1.note (.ret s.shared.ret)
    exact ⟨nofun, .of_stage (hrep.note hst.1 hst.2 (.inl rfl)) he
      (.ite _ (hf.goto .idle) ⟨hf.goto .testPts, hst.2⟩)⟩
  case testPts =>
    cases hs
    have hf := hst.1.note (.pts s.shared.pts)
    exact ⟨nofun, .of_stage (hrep.note hst.1 hst.2 (.inr rfl)) he
      (.ite _ ⟨hf.goto .testPage, hst.2⟩ ⟨hf.goto .loadPts, hst.2⟩)⟩
  case loadPts =>
    cases hs
    exact ⟨nofun, .of_stage (hrep.note hst.1 hst.2 (.inr rfl)) he ⟨(hst.1.note _).goto _, hst.2⟩⟩
  case testPage =>
    cases hs
    have hf := hst.1.note (.ret s.shared.ret)
    exact ⟨nofun, .of_stage (hrep.note hst.1 hst.2 (.inl rfl)) he
      (.ite _ (hf.goto .idle) ⟨hf.goto .loadPage, hst.2⟩)⟩
  case loadPage =>
    cases hs
    exact ⟨nofun, .of_stage (hrep.note hst.1 hst.2 (.inl rfl)) he ((hst.1.note _).goto _)⟩
  -- `control` and `uninit`
  case postSeek => cases hs; exact ⟨nofun, .of_stage hrep he (hst.post False.elim _)⟩
  case waitSeek =>
    split at hs <;> [cases hs; rename_i ht]
    cases hs
    exact ⟨nofun, .of_stage hrep he ((hst.take ht).1.goto _)⟩
  case postEnd => cases hs; exact ⟨nofun, .of_stage hrep he trivial⟩

/-! ## Runs -/

theorem Inv.step (h : s.Inv) {e : Event} (hp : s.Patient e) (hs : s.step e = some s') : s'.Inv := by
  cases e with
  | begin c => exact (h.begin hp hs).2
  | client => exact (h.clientStep hs).2
  | expire => exact h.expire hs
  | server o => exact h.serverStep hs
  | serverExit => exact h.serverExit hs

theorem Inv.writesAlone (h : s.Inv) {e : Event} (hp : s.Patient e) : s.WritesAlone e := by
  intro hsome hw
  obtain ⟨s', hs⟩ := Option.isSome_iff_exists.mp hsome
  cases e with
  | begin c => exact (h.begin hp hs).1
  | client => exact (h.clientStep hs).1 hw
  | expire | server | serverExit => cases hw

/-- **The exchange of commands and replies.** In every run in which the client
begins no call after a wait of its has expired, unless the server is gone, it
writes the header and the input area only while the server is not at work, and
all it reads of the reply to a command is what the server wrote for this
command. -/
theorem exchange_correct {shared : Shared} {bih : Option (List UInt8)} {es : List Event} {t : State}
    (hr : exec State.step (start shared bih) es = some t)
    (hm : Meets State.step Patient (start shared bih) es) :
    Meets State.step WritesAlone (start shared bih) es ∧ t.RepliesMatch :=
  ⟨hm.imp (fun _ _ _ h hp hs => h.step hp hs) (fun _ _ h hp => h.writesAlone hp)
      (start_inv shared bih),
    (exec_inv (fun _ _ _ h hp hs => h.step hp hs) (start_inv shared bih) hm hr).replies⟩

/-- One packet, decoded and shown. -/
theorem exchange_correct_one :
    let es : List Event := [.client, .client] ++ List.replicate 3 (.server ⟨3, 5, none, true⟩) ++
      [.client, .begin (.decode ⟨[1], 0, 0⟩)] ++ List.replicate 4 .client ++
      List.replicate 8 (.server ⟨3, 5, none, true⟩) ++ List.replicate 7 .client
    ∃ s, exec State.step (start ⟨0, 0, 0, [], []⟩ none) es = some s ∧ s.reads.length = 6 ∧
      Meets State.step WritesAlone (start ⟨0, 0, 0, [], []⟩ none) es ∧ s.RepliesMatch := by
  intro es
  obtain ⟨s, hr, hlen⟩ : ∃ s, exec State.step (start ⟨0, 0, 0, [], []⟩ none) es = some s ∧
    s.reads.length = 6 := ⟨_, rfl, rfl⟩
  have hm : Meets State.step Patient (start ⟨0, 0, 0, [], []⟩ none) es := by
    iterate 6
      refine ⟨trivial, fun _ h => ?_⟩
      cases h
    refine ⟨.inl rfl, fun _ _ => ?_⟩
    iterate 19 refine ⟨trivial, fun _ _ => ?_⟩
    trivial
  exact ⟨s, hr, hlen, exchange_correct hr hm⟩

/-- A client whose wait expires while the server works on the first packet, and
goes on with a second one. -/
def hasty : List Event :=
  let p : Packet := ⟨[1], 0, 0⟩
  let o : Outcome := ⟨3, 5, none, true⟩
  [.client, .client, .server o, .server o, .server o, .client,
    .begin (.decode p), .client, .client, .client, .client, .server o, .expire]

/-- It writes the header while the server is at work; and, if the server is done
before that, it takes the token of the first command for the reply to the
second, and its own command word for the reply. -/
theorem not_exchange :
    (∃ s, exec State.step (start ⟨0, 0, 0, [], []⟩ none) hasty = some s ∧
      ¬ s.WritesAlone (.begin (.decode ⟨[1], 0, 0⟩))) ∧
    ∃ s, exec State.step (start ⟨0, 0, 0, [], []⟩ none) (hasty ++
        List.replicate 7 (.server ⟨3, 5, none, true⟩) ++
        .begin (.decode ⟨[1], 0, 0⟩) :: List.replicate 6 .client) = some s ∧ ¬ s.RepliesMatch := by
  refine ⟨⟨_, rfl, fun h => absurd (h rfl rfl) (by decide)⟩, _, rfl, fun h => ?_⟩
  obtain ⟨a, ha, -⟩ := h (1, .ret vdDecode) List.mem_cons_self
  cases ha

end DShow.Protocol.State
