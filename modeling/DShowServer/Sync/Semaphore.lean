import DShowServer.Framework.Monitor

/-!
# Semaphores

A semaphore of the codec is a count under a mutex, with a condition variable for those who wait for it:
`expReleaseSemaphore` and `expWaitForSingleObject` are the turns of a monitor. However its threads interleave
and whatever wakes them, no more of them get through than the count allows (`semaphore_counts`), and nobody is
blocked while it is not 0 (`semaphore_open`).
-/

namespace DShow.Sync

open Monitor Simulate

/-- The `duration` of a wait: 0, -1 for `INFINITE`, or some milliseconds. One
below -1 is left out. -/
inductive Duration
  | check
  | infinite
  | timed
deriving DecidableEq

/-- `WAIT_OBJECT_0`, `WAIT_TIMEOUT` and `WAIT_FAILED`. -/
inductive WaitResult
  | object0
  | timeout
  | failed
deriving DecidableEq

inductive SemaphoreCall
  | release (increment : BitVec 32)
  | wait (duration : Duration)

inductive SemaphoreResult
  /-- The count before the release. -/
  | released (prev_count : BitVec 32)
  | waited (ret : WaitResult)
deriving DecidableEq

/-- `expReleaseSemaphore`. -/
def releaseSemaphore (increment semaphore : BitVec 32) : Turn (BitVec 32) Bool SemaphoreResult :=
  ⟨semaphore + increment, if semaphore = 0 then .all else .none, .returns (.released semaphore)⟩

/-- A unit that is taken. -/
def takeUnit (semaphore : BitVec 32) : Turn (BitVec 32) Bool SemaphoreResult :=
  ⟨semaphore - 1, .none, .returns (.waited .object0)⟩

/-- `expWaitForSingleObject` of a semaphore. Whether the wait is a timed one goes with the thread that is blocked. -/
def waitSemaphore (duration : Duration) (semaphore : BitVec 32) : Turn (BitVec 32) Bool SemaphoreResult :=
  if semaphore ≠ 0 then takeUnit semaphore
  else match duration with
    | .check => ⟨semaphore, .none, .returns (.waited .failed)⟩
    | .infinite => ⟨semaphore, .none, .waits false⟩
    | .timed => ⟨semaphore, .none, .waits true⟩

/-- Behind `pthread_cond_wait` and `pthread_cond_timedwait`. -/
def rewaitSemaphore (timed timedOut : Bool) (semaphore : BitVec 32) : Turn (BitVec 32) Bool SemaphoreResult :=
  if timed ∧ timedOut then ⟨semaphore, .none, .returns (.waited .timeout)⟩
  else if semaphore = 0 then ⟨semaphore, .none, .waits timed⟩
  else takeUnit semaphore

def semaphore : Monitor (BitVec 32) SemaphoreCall Bool SemaphoreResult where
  call
    | .release increment => releaseSemaphore increment
    | .wait duration => waitSemaphore duration
  resume := rewaitSemaphore
  timed k := k

/-! ## What gets through -/

/-- What an event adds to the count. -/
def increment {τ : Type*} : Event τ SemaphoreCall → Nat
  | .call _ (.release increment) _ => increment.toNat
  | _ => 0

/-- Whether a wait got through. -/
def through : Option SemaphoreResult → Nat
  | some (.waited .object0) => 1
  | _ => 0

variable {τ : Type*} {s s' : State τ (BitVec 32) Bool} {e : Event τ SemaphoreCall}
  {r : Option SemaphoreResult} {es : List (Event τ SemaphoreCall)} {rs : List (Option SemaphoreResult)}
  {init_count : BitVec 32}

theorem toNat_sub_one {x : BitVec 32} (h : x ≠ 0) : (x - 1).toNat + 1 = x.toNat := by
  have h0 : x.toNat ≠ 0 := fun e => h (BitVec.eq_of_toNat_eq e)
  have hx := x.isLt
  rw [BitVec.toNat_sub]
  show (2 ^ 32 - 1 + x.toNat) % 2 ^ 32 + 1 = x.toNat
  omega

/-- What a turn gets through. -/
def worth (turn : Turn (BitVec 32) Bool SemaphoreResult) : Nat :=
  match turn.ending with
  | .returns q => through (some q)
  | .waits _ => 0

theorem takeUnit_worth {x : BitVec 32} (h : x ≠ 0) : (takeUnit x).shared.toNat + worth (takeUnit x) = x.toNat :=
  toNat_sub_one h

theorem waitSemaphore_worth (duration : Duration) (x : BitVec 32) :
    (waitSemaphore duration x).shared.toNat + worth (waitSemaphore duration x) = x.toNat := by
  unfold waitSemaphore
  split
  · rename_i h
    exact takeUnit_worth h
  · cases duration <;> rfl

theorem rewaitSemaphore_worth (timed timedOut : Bool) (x : BitVec 32) :
    (rewaitSemaphore timed timedOut x).shared.toNat + worth (rewaitSemaphore timed timedOut x) = x.toNat := by
  unfold rewaitSemaphore
  split
  · rfl
  · split
    · rfl
    · rename_i h
      exact takeUnit_worth h

theorem take_worth {turn : Turn (BitVec 32) Bool SemaphoreResult} {t : τ} {pick : Nat}
    (h : s.take t turn pick = some (r, s')) : s'.shared = turn.shared ∧ through r = worth turn := by
  obtain ⟨u, hu, ⟨q, hq, rfl, rfl⟩ | ⟨k, hk, rfl, rfl⟩⟩ := State.take_cases h
  · refine ⟨(State.wake_cases hu).1, ?_⟩
    rw [worth, hq]
  · refine ⟨(State.wake_cases hu).1, ?_⟩
    rw [worth, hk]
    rfl

variable [DecidableEq τ]

/-- One step: what gets through is taken from the count, what is released is added. -/
theorem step_counts (h : semaphore.step s e = some (r, s')) (hlt : s.shared.toNat + increment e < 2 ^ 32) :
    s'.shared.toNat + through r = s.shared.toNat + increment e := by
  cases e with
  | call t c pick =>
    rw [step] at h
    split at h
    · cases h
    · obtain ⟨hs, hr⟩ := take_worth h
      rw [hs, hr]
      cases c with
      | release i => exact (BitVec.toNat_add _ _).trans (Nat.mod_eq_of_lt hlt)
      | wait d => exact waitSemaphore_worth d s.shared
  | resume t pick =>
    obtain ⟨w, -, h⟩ := Option.bind_eq_some_iff.mp h
    obtain ⟨hs, hr⟩ := take_worth h
    rw [hs, hr]
    exact rewaitSemaphore_worth _ _ _
  | timeout t =>
    obtain ⟨rfl, hs, -⟩ := State.rouse_cases (show s.rouse t true semaphore.timed = _ from h)
    rw [hs]
    rfl
  | spurious t =>
    obtain ⟨rfl, hs, -⟩ := State.rouse_cases (show s.rouse t false (fun _ => true) = _ from h)
    rw [hs]
    rfl

theorem outputs_counts (h : outputs semaphore.step s es = some (rs, s'))
    (hlt : s.shared.toNat + (es.map increment).sum < 2 ^ 32) :
    s'.shared.toNat + (rs.map through).sum = s.shared.toNat + (es.map increment).sum := by
  induction es generalizing s rs with
  | nil => cases h; rfl
  | cons e es ih =>
    obtain ⟨⟨r, u⟩, hu, h⟩ := Option.bind_eq_some_iff.mp h
    obtain ⟨⟨qs, v⟩, hv, he⟩ := Option.map_eq_some_iff.mp h
    cases he
    rw [List.map_cons, List.sum_cons] at hlt ⊢
    rw [List.map_cons, List.sum_cons]
    have h₁ := step_counts hu (by omega)
    dsimp only at hv h₁
    have h₂ := ih hv (by omega)
    dsimp only at h₂ ⊢
    omega

/-- However the threads interleave, as many waits get through as units have been released and are not left. -/
theorem semaphore_counts (h : outputs semaphore.step (.start init_count) es = some (rs, s))
    (hlt : init_count.toNat + (es.map increment).sum < 2 ^ 32) :
    s.shared.toNat + (rs.map through).sum = init_count.toNat + (es.map increment).sum :=
  outputs_counts h hlt

/-- Two threads wait, two units are released, and a third thread is the first to take one. -/
def overtaken : List (Event Nat SemaphoreCall) :=
  [.call 1 (.wait .infinite) 0, .call 2 (.wait .timed) 0, .call 3 (.release 2) 0, .call 3 (.wait .check) 0,
    .resume 2 0, .resume 1 0]

theorem semaphore_counts_overtaken : ∃ rs, outputs semaphore.step (.start 0) overtaken =
    some (rs, ⟨0, [(1, false)], []⟩) ∧ (rs.map through).sum = 2 := by
  have hr : outputs semaphore.step (.start 0) overtaken = some ([none, none, some (.released 0),
      some (.waited .object0), some (.waited .object0), none], ⟨0, [(1, false)], []⟩) := rfl
  exact ⟨_, hr, (Nat.zero_add _).symm.trans (semaphore_counts hr (by decide))⟩

/-! ## Who is blocked -/

theorem semaphore_broadcasts : semaphore.Broadcasts fun x => x ≠ 0 where
  waits x turn k hm hk := by
    rcases hm with ⟨c, rfl⟩ | ⟨timed, timedOut, rfl⟩
    · cases c with
      | release i => cases hk
      | wait d =>
        change (waitSemaphore d x).ending = _ at hk
        show ¬ (waitSemaphore d x).shared ≠ 0
        unfold waitSemaphore at hk ⊢
        split at hk
        · cases hk
        · rename_i h
          rw [if_neg h]
          cases d with
          | check => cases hk
          | infinite => exact h
          | timed => exact h
    · change (rewaitSemaphore timed timedOut x).ending = _ at hk
      show ¬ (rewaitSemaphore timed timedOut x).shared ≠ 0
      unfold rewaitSemaphore at hk ⊢
      split at hk
      · cases hk
      · rename_i h
        rw [if_neg h]
        split at hk
        · rename_i h0
          rw [if_pos h0]
          exact not_not_intro h0
        · cases hk
  wakes x turn hm h0 hgo := by
    have h0 : x = 0 := not_not.mp h0
    rcases hm with ⟨c, rfl⟩ | ⟨timed, timedOut, rfl⟩
    · cases c with
      | release i => exact if_pos h0
      | wait d =>
        subst h0
        cases d <;> exact absurd rfl hgo
    · subst h0
      cases timed <;> cases timedOut <;> exact absurd rfl hgo

/-- However the threads interleave, as long as the count is not 0 nobody is blocked, and the thread whose turn is next
gets through unless its time is up. -/
theorem semaphore_open (h : outputs semaphore.step (.start init_count) es = some (rs, s)) (h0 : s.shared ≠ 0) :
    s.blocked = [] ∧ ∀ t k pick, s.woken.find? (fun w => w.1 = t) = some (t, k, false) →
      ∃ s', semaphore.step s (.resume t pick) = some (some (.waited .object0), s') := by
  refine ⟨blocked_of_broadcasts semaphore_broadcasts h h0, fun t k pick hw => ?_⟩
  have hturn : semaphore.resume k false s.shared = takeUnit s.shared := by
    show rewaitSemaphore k false s.shared = _
    unfold rewaitSemaphore
    rw [if_neg (by simp), if_neg h0]
  rw [step, hw, Option.bind_some]
  dsimp only
  rw [hturn]
  exact ⟨_, rfl⟩

theorem semaphore_open_released : ∃ rs s, outputs semaphore.step (.start 0) (overtaken.take 4) = some (rs, s) ∧
    s.blocked = [] := by
  have hr : outputs semaphore.step (.start 0) (overtaken.take 4) = some ([none, none, some (.released 0),
      some (.waited .object0)], ⟨1, [], [(2, true, false), (1, false, false)]⟩) := rfl
  exact ⟨_, _, hr, (semaphore_open hr (by decide)).1⟩

end DShow.Sync
