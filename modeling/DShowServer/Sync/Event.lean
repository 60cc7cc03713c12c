import DShowServer.Sync.Semaphore

/-!
# Events

An event of the codec is a flag under a mutex, with a condition variable: `expSetEvent`, `expResetEvent` and
`expWaitForSingleObject` are the turns of a monitor. `expCreateEventA` stores `bManualReset` as `reset`, and a wait
that ends clears the flag where `reset` is set. A wait of less than -1 ms, which fails without a look at the flag, is
left out.

So it is the event with manual reset that loses no wakeup (`event_passes`), but it lets one thread through for each
`SetEvent`, as every event does. The other one stays set, and then `SetEvent` does not signal: of all the threads
that have ever been blocked, all but one stay so until `ResetEvent` is called (`event_releases`).
-/

namespace DShow.Sync

open Monitor Simulate

inductive EventCall
  | set
  | reset
  | wait (duration : Duration)
deriving DecidableEq

inductive EventResult
  | done
  | waited (ret : WaitResult)
deriving DecidableEq

/-- A thread that is blocked: whether its wait is a timed one. -/
abbrev EventTurn := Turn (BitVec 8) Bool EventResult

/-- `expSetEvent`. -/
def setEvent (state : BitVec 8) : EventTurn :=
  if state = 0 then ⟨1, .one, .returns .done⟩ else ⟨state, .none, .returns .done⟩

/-- `expResetEvent`. -/
def resetEvent : EventTurn := ⟨0, .none, .returns .done⟩

/-- The end of a wait. -/
def endWait (reset state : BitVec 8) (ret : WaitResult) : EventTurn :=
  ⟨if reset ≠ 0 then 0 else state, .none, .returns (.waited ret)⟩

/-- `expWaitForSingleObject` of an event. -/
def waitEvent (reset : BitVec 8) (duration : Duration) (state : BitVec 8) : EventTurn :=
  match duration with
  | .check => ⟨state, .none, .returns (.waited (if state = 1 then .failed else .object0))⟩
  | .infinite => if state = 0 then ⟨state, .none, .waits false⟩ else endWait reset state .object0
  | .timed => if state = 0 then ⟨state, .none, .waits true⟩ else endWait reset state .object0

/-- Behind `pthread_cond_wait` and `pthread_cond_timedwait`: the state is not looked at again. -/
def rewaitEvent (reset : BitVec 8) (timed timedOut : Bool) (state : BitVec 8) : EventTurn :=
  endWait reset state (if timed ∧ timedOut then .timeout else .object0)

/-- An event, with `bManualReset`. -/
def event (reset : BitVec 8) : Monitor (BitVec 8) EventCall Bool EventResult where
  call
    | .set => setEvent
    | .reset => fun _ => resetEvent
    | .wait duration => waitEvent reset duration
  resume := rewaitEvent reset
  timed k := k

variable {τ : Type*} {s s' : State τ (BitVec 8) Bool} {e : Event τ EventCall} {r : Option EventResult}
  {es : List (Event τ EventCall)} {rs : List (Option EventResult)} {reset bInitialState x : BitVec 8} {turn : EventTurn}

/-! ## Turns -/

/-- A turn that waits leaves the flag clear. -/
theorem event_waits {k : Bool} (hm : (event reset).Has x turn) (hk : turn.ending = .waits k) : turn.shared = 0 := by
  rcases hm with ⟨c, rfl⟩ | ⟨timed, timedOut, rfl⟩
  · cases c with
    | set =>
      change (setEvent x).ending = _ at hk
      unfold setEvent at hk
      split at hk <;> cases hk
    | reset => cases hk
    | wait d =>
      change (waitEvent reset d x).ending = _ at hk
      show (waitEvent reset d x).shared = 0
      cases d with
      | check => cases hk
      | infinite =>
        rw [waitEvent] at hk ⊢
        split at hk
        · rename_i h0
          rw [if_pos h0]
          exact h0
        · cases hk
      | timed =>
        rw [waitEvent] at hk ⊢
        split at hk
        · rename_i h0
          rw [if_pos h0]
          exact h0
        · cases hk
  · cases hk

/-- Only `SetEvent` sets the flag. -/
theorem event_sets (hm : (event reset).Has 0 turn) (h : turn.shared ≠ 0) : turn = setEvent 0 := by
  rcases hm with ⟨c, rfl⟩ | ⟨timed, timedOut, rfl⟩
  · cases c with
    | set => rfl
    | reset => exact absurd rfl h
    | wait d => cases d <;> exact absurd rfl h
  · refine absurd ?_ h
    show (if reset ≠ 0 then 0 else (0 : BitVec 8)) = 0
    split <;> rfl

theorem event_signals (hr : reset ≠ 0) : (event reset).Signals fun x => x ≠ 0 where
  waits x turn k hm hk := not_not_intro (event_waits hm hk)
  wakes x turn hm h0 hgo hw := by
    obtain rfl : x = 0 := not_not.mp h0
    rw [event_sets hm hgo] at hw
    cases hw
  passes x k timedOut hgo := absurd (if_pos hr) hgo

/-! ## Runs -/

variable [DecidableEq τ]

/-- As long as an event with manual reset is set and threads are blocked, one of them has been woken, and
its turn clears the event, so that the next `SetEvent` signals again. -/
theorem event_passes (hr : reset ≠ 0) (h : outputs (event reset).step (.start bInitialState) es = some (rs, s)) :
    (s.shared ≠ 0 → s.blocked = [] ∨ s.woken ≠ []) ∧
      ∀ t pick r s', (event reset).step s (.resume t pick) = some (r, s') → s'.shared = 0 := by
  refine ⟨blocked_of_signals (event_signals hr) h, fun t pick r s' hres => ?_⟩
  obtain ⟨w, -, hres⟩ := Option.bind_eq_some_iff.mp hres
  obtain ⟨u, hu, ⟨q, -, -, rfl⟩ | ⟨k, hk, -, -⟩⟩ := State.take_cases hres
  · exact (State.wake_cases hu).1.trans (if_pos hr)
  · cases hk

/-- Two threads wait for an event, and it is set. -/
def twoWaits : List (Event Nat EventCall) := [.call 1 (.wait .infinite) 0, .call 2 (.wait .timed) 0, .call 3 .set 0]

theorem event_passes_twoWaits : ∃ rs s, outputs (event 1).step (.start 0) twoWaits = some (rs, s) ∧ s.blocked ≠ [] ∧
    s.woken ≠ [] := by
  have hr : outputs (event 1).step (.start 0) twoWaits =
    some ([none, none, some .done], ⟨1, [(1, false)], [(2, true, false)]⟩) := rfl
  exact ⟨_, _, hr, by decide, ((event_passes (by decide) hr).1 (by decide)).resolve_left (by decide)⟩

def resumes : Event τ EventCall → Nat
  | .resume _ _ => 1
  | _ => 0

def sets : Event τ EventCall → Nat
  | .call _ .set _ => 1
  | _ => 0

def resets : Event τ EventCall → Nat
  | .call _ .reset _ => 1
  | _ => 0

/-- A wakeup that nobody signalled. -/
def rouses : Event τ EventCall → Nat
  | .timeout _ => 1
  | .spurious _ => 1
  | _ => 0

/-- Whether a `SetEvent` signals. -/
def clear (state : BitVec 8) : Nat := if state = 0 then 1 else 0

theorem clear_le (state : BitVec 8) : clear state ≤ 1 := by
  unfold clear
  split <;> omega

/-- What a thread that waits or ends its wait does not do. -/
theorem waitEvent_turn (reset : BitVec 8) (d : Duration) (x : BitVec 8) :
    (waitEvent reset d x).wakes = .none ∧ (reset = 0 → (waitEvent reset d x).shared = x) := by
  have hend : ∀ ret, (endWait reset x ret).wakes = .none ∧ (reset = 0 → (endWait reset x ret).shared = x) :=
    fun ret => ⟨rfl, fun h => if_neg (not_not_intro h)⟩
  cases d with
  | check => exact ⟨rfl, fun _ => rfl⟩
  | infinite =>
    rw [waitEvent]
    split
    · exact ⟨rfl, fun _ => rfl⟩
    · exact hend _
  | timed =>
    rw [waitEvent]
    split
    · exact ⟨rfl, fun _ => rfl⟩
    · exact hend _

/-- One step of a thread: it wakes another by a `SetEvent` that finds the event clear. -/
theorem event_step (h : (event reset).step s e = some (r, s')) :
    resumes e + s'.woken.length ≤ s.woken.length + (sets e + rouses e) ∧
      (reset = 0 → resumes e + (s'.woken.length + clear s'.shared) ≤
        s.woken.length + clear s.shared + (resets e + rouses e)) := by
  have hrouse : ∀ {t timedOut p}, s.rouse t timedOut p = some (r, s') →
      s'.shared = s.shared ∧ s'.woken.length = s.woken.length + 1 := fun h =>
    ⟨(State.rouse_cases h).2.1, (State.rouse_cases h).2.2.1⟩
  cases e with
  | call t c pick =>
    rw [step] at h
    split at h
    · cases h
    · cases c with
      | set =>
        change s.take t (setEvent s.shared) pick = _ at h
        by_cases h0 : s.shared = 0
        · rw [setEvent, if_pos h0] at h
          obtain ⟨hs, hw⟩ := State.take_woken h (by simp)
          change s'.woken.length ≤ s.woken.length + 1 at hw
          rw [hs, h0]
          exact ⟨by show 0 + _ ≤ _ + (1 + 0); omega, fun _ => by show 0 + (_ + 0) ≤ _ + 1 + (0 + 0); omega⟩
        · rw [setEvent, if_neg h0] at h
          obtain ⟨hs, hw⟩ := State.take_woken h (by simp)
          change s'.shared = s.shared at hs
          change s'.woken.length ≤ s.woken.length + 0 at hw
          rw [hs]
          exact ⟨by show 0 + _ ≤ _; omega, fun _ => by show 0 + _ ≤ _; omega⟩
      | reset =>
        change s.take t resetEvent pick = _ at h
        obtain ⟨hs, hw⟩ := State.take_woken h (by rw [resetEvent]; simp)
        change s'.woken.length ≤ s.woken.length + 0 at hw
        rw [hs]
        exact ⟨by show 0 + _ ≤ _; omega, fun _ => by show 0 + (_ + 1) ≤ _ + _ + (1 + 0); omega⟩
      | wait d =>
        obtain ⟨hw₀, hs₀⟩ := waitEvent_turn reset d s.shared
        change s.take t (waitEvent reset d s.shared) pick = _ at h
        obtain ⟨hs, hw⟩ := State.take_woken h (by rw [hw₀]; simp)
        rw [hw₀] at hw
        change s'.woken.length ≤ s.woken.length + 0 at hw
        refine ⟨by show 0 + _ ≤ _; omega, fun hr => ?_⟩
        rw [hs, hs₀ hr]
        show 0 + _ ≤ _
        omega
  | resume t pick =>
    obtain ⟨w, hf, h⟩ := Option.bind_eq_some_iff.mp h
    have hlen : (s.woken.eraseP fun w => w.1 = t).length + 1 = s.woken.length := by
      rw [List.length_eraseP_of_mem (List.mem_of_find?_eq_some hf) (List.find?_some hf)]
      have := List.length_pos_of_mem (List.mem_of_find?_eq_some hf)
      omega
    obtain ⟨hs, hw⟩ := State.take_woken h (by show Wakes.none ≠ _; simp)
    change s'.shared = (if reset ≠ 0 then 0 else s.shared) at hs
    change s'.woken.length ≤ (s.woken.eraseP fun w => w.1 = t).length + 0 at hw
    show 1 + _ ≤ _ + (0 + 0) ∧ (_ → 1 + _ ≤ _ + (0 + 0))
    refine ⟨by omega, fun hr => ?_⟩
    rw [hs, if_neg (not_not_intro hr)]
    omega
  | timeout t =>
    obtain ⟨hs, hw⟩ := hrouse (show s.rouse t true (event reset).timed = _ from h)
    rw [hs]
    exact ⟨by show 0 + _ ≤ _ + (0 + 1); omega, fun _ => by show 0 + _ ≤ _ + _ + (0 + 1); omega⟩
  | spurious t =>
    obtain ⟨hs, hw⟩ := hrouse (show s.rouse t false (fun _ => true) = _ from h)
    rw [hs]
    exact ⟨by show 0 + _ ≤ _ + (0 + 1); omega, fun _ => by show 0 + _ ≤ _ + _ + (0 + 1); omega⟩

/-- However the threads interleave, an event releases no more of those who are blocked than `SetEvent` is called, times
run out and threads wake by themselves; and where `bManualReset` is 0 one more than `ResetEvent` is called, however
often it is set. -/
theorem event_releases (h : outputs (event reset).step (.start bInitialState) es = some (rs, s)) :
    (es.map resumes).sum + s.woken.length ≤ (es.map fun e => sets e + rouses e).sum ∧
      (reset = 0 → (es.map resumes).sum + s.woken.length ≤ 1 + (es.map fun e => resets e + rouses e).sum) := by
  refine ⟨?_, fun hr => ?_⟩
  · have := outputs_sum (a := fun s : State τ (BitVec 8) Bool => s.woken.length) (fun s e r s' h => (event_step h).1) h
    change _ + _ ≤ 0 + _ at this
    omega
  · have := outputs_sum (a := fun s : State τ (BitVec 8) Bool => s.woken.length + clear s.shared)
      (fun s e r s' h => (event_step h).2 hr) h
    change _ + _ ≤ 0 + clear bInitialState + _ at this
    have := clear_le bInitialState
    omega

/-- Without manual reset the event is set twice more, and one of the two is still blocked. -/
theorem event_releases_twoWaits : ∃ rs s,
    outputs (event 0).step (.start 0) (twoWaits ++ [.resume 2 0, .call 3 .set 0, .call 3 .set 0]) = some (rs, s) ∧
      s.blocked = [(1, false)] ∧ 1 + s.woken.length ≤ 1 := by
  have hr : outputs (event 0).step (.start 0) (twoWaits ++ [.resume 2 0, .call 3 .set 0, .call 3 .set 0]) =
      some ([none, none, some .done, some (.waited .object0), some .done, some .done], ⟨1, [(1, false)], []⟩) := rfl
  exact ⟨_, _, hr, rfl, (event_releases hr).2 rfl⟩

end DShow.Sync
