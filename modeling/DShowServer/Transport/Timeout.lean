import DShowServer.Framework.Run
import DShowServer.Transport.Model

/-!
# What the result of a wait tells

`timed_semwait` reports a timeout when nothing was received and `errno` is
`ETIMEDOUT`. But `recv` does not set `errno` where the peer has closed the
connection, so that the `errno` of an earlier wait that expired makes the end of
the connection look like another timeout. `timedSemwait_errno` says what a wait
leaves in `errno`, `classified_iff` when its result is right, and
`retries_forever` what the server makes of it when it is not. What a player is told
by its two waits, for the connection and for a reply, is in `timedSemwait_connects`
and `timedSemwait_receives`.
-/

namespace DShow.Transport

open Run

/-! ## The events of a wait -/

namespace Answers

/-- A byte arrived. -/
def Received (k : Answers) : Prop := ∃ n, k.select = .ok n ∧ 0 < n ∧ k.recv = .ok 1

/-- Nothing happened on the socket, or a signal arrived. -/
def Idle (k : Answers) : Prop := k.select = .ok 0 ∨ k.select = .error eintr

/-- The peer has closed the connection. -/
def Closed (k : Answers) : Prop :=
  ∃ n, k.select = .ok n ∧ 0 < n ∧ (k.recv = .ok 0 ∨ k.recv = .error econnreset)

/-- What a wait sets `errno` to, if it does. -/
def sets (k : Answers) (connected : Bool) : Option Nat :=
  match k.select with
  | .error e => some (if e = eintr then etimedout else e)
  | .ok 0 => some etimedout
  | .ok (_ + 1) =>
    match (if connected then k.recv else k.accept) with
    | .ok _ => none
    | .error e => some e

end Answers

/-- What the server does next. -/
inductive Next
  | command
  | retry
  | exit
deriving DecidableEq

/-- The wait loop of the server, where `kill(ppid, 0)` finds the client's process
or not. -/
def waitLoop (ok : Int) (parentAlive : Bool) : Next :=
  if ok = 1 then .command
  else if ok ≠ dsTimeout then .exit
  else if ¬parentAlive then .exit
  else .retry

/-- The result of a wait is right: 1 for a byte, a timeout only where nothing
happened, and the server leaves its loop when the peer is gone. -/
structure Classified (k : Answers) (r : Int) : Prop where
  token : r = 1 ↔ k.Received
  timeout : r = dsTimeout → k.Idle
  closed : k.Closed → ∀ parentAlive, waitLoop r parentAlive = .exit

/-- Neither call fails with `ETIMEDOUT`, and where `recv` brings no byte the
`errno` from before the wait is another. -/
def Unambiguous (errno : Nat) (k : Answers) : Prop :=
  k.select ≠ .error etimedout ∧ ∀ n, k.select = .ok n → 0 < n →
    k.recv ≠ .error etimedout ∧ ∀ m, k.recv = .ok m → m ≠ 1 → errno ≠ etimedout

/-! ## Runs -/

/-- A process waits, or another of its calls fails. -/
inductive Event
  | wait (k : Answers)
  | other (errno : Nat)

def Proc.step (p : Proc) : Event → Option Proc
  | .wait k => some (timedSemwait p k).2
  | .other errno => some { p with errno := errno }

/-- A process after `timed_seminit` with a socket. -/
def Proc.start (is_host : Bool) (sockfd : Int) (errno : Nat) : Proc where
  sem := ⟨.socket, !is_host, sockfd, -1, [], 0, 0⟩
  errno := errno

/-- A wait on the connected socket is classified right. -/
def Proc.ClassifiedAt (p : Proc) : Event → Prop
  | .wait k => p.sem.initialized = true → Classified k (timedSemwait p k).1
  | .other _ => True

def Proc.UnambiguousAt (p : Proc) : Event → Prop
  | .wait k => p.sem.initialized = true → Unambiguous p.errno k
  | .other _ => True

variable {p p' : Proc} {k : Answers}

theorem dsTimeout_ne_one : dsTimeout ≠ 1 := by decide

/-- The result of a wait by what `timed_recv` gives it. -/
def recvResult (r : Int × Nat) : Int :=
  if r.1 = 1 then 1 else if r.2 = etimedout then dsTimeout else 0

theorem recvResult_ne {n : Int} (hn : n ≠ 1) (errno : Nat) :
    recvResult (n, errno) = if errno = etimedout then dsTimeout else 0 := if_neg hn

theorem recvResult_one (errno : Nat) : recvResult (1, errno) = 1 := rfl

/-- A wait on a connected socket. -/
theorem timedSemwait_connected (ht : p.sem.type = .socket) (hc : p.sem.initialized = true) :
    (timedSemwait p k).1 = recvResult (timedRecv p.errno k) ∧
    (timedSemwait p k).2 = { p with errno := (timedRecv p.errno k).2 } := by
  simp only [timedSemwait, ht, hc, not_true, if_false]
  refine ⟨?_, trivial⟩
  unfold recvResult
  split <;> simp

/-- What the other process has posted comes to a process that waits. -/
def Proc.Receives (p : Proc) (k : Answers) : Prop :=
  match p.sem.type with
  | .socket => p.sem.initialized = true ∧ k.Received
  | .semaphore => k.semwait = .ok 0

/-- It is told so by a 1. -/
theorem timedSemwait_receives (h : p.Receives k) : (timedSemwait p k).1 = 1 := by
  unfold Proc.Receives at h
  cases ht : p.sem.type with
  | socket =>
    rw [ht] at h
    obtain ⟨hc, n, hs, hn, hr⟩ := h
    have hrecv : timedRecv p.errno k = (1, p.errno) := by
      rw [timedRecv, hs, hr]
      have : ¬((n : Int) < 0) := by omega
      simp [timedCall, SysResult.ret, this, hn]
    rw [(timedSemwait_connected ht hc).1, hrecv, recvResult_one]
  | semaphore =>
    rw [ht] at h
    have hk : k.semwait = .ok 0 := h
    simp only [timedSemwait, ht, hk, SysResult.ret]
    split <;> simp

/-- The wait of a host for the connection gives 1 or −1. -/
theorem timedSemwait_connects (sockfd : Int) (errno : Nat) (k : Answers) :
    (timedSemwait (.start true sockfd errno) k).1 = 1 ∨ (timedSemwait (.start true sockfd errno) k).1 = -1 := by
  simp only [timedSemwait, Proc.start, Bool.not_true, Bool.false_eq_true, not_false_eq_true, if_true]
  split
  · exact .inl (by simp)
  · rename_i h
    rw [not_not] at h
    exact .inr (by rw [h]; rfl)

/-- A wait for the connection. -/
theorem timedSemwait_accepting (ht : p.sem.type = .socket) (hc : p.sem.initialized = false) :
    (timedSemwait p k).2.errno = (timedAccept p.errno k).2 ∧
    (timedSemwait p k).2.sem.type = .socket := by
  simp only [timedSemwait, ht, hc, Bool.false_eq_true, not_false_eq_true, if_true]
  split
  · exact ⟨rfl, rfl⟩
  · exact ⟨rfl, ht⟩

theorem timedCall_cases (errno : Nat) (select call : SysResult) :
    (∃ e, select = .error e ∧ e ≠ eintr ∧ timedCall errno select call = (-1, e)) ∨
    ((select = .ok 0 ∨ select = .error eintr) ∧ timedCall errno select call = (-1, etimedout)) ∨
    (∃ n, select = .ok n ∧ 0 < n ∧ timedCall errno select call = call.ret errno) := by
  cases select with
  | error e =>
    by_cases he : e = eintr
    · subst he
      exact .inr (.inl ⟨.inr rfl, rfl⟩)
    · exact .inl ⟨e, rfl, he, by simp [timedCall, SysResult.ret, he]⟩
  | ok n =>
    rcases Nat.eq_zero_or_pos n with rfl | hn
    · exact .inr (.inl ⟨.inl rfl, rfl⟩)
    · refine .inr (.inr ⟨n, rfl, hn, ?_⟩)
      have : ¬((n : Int) < 0) := by omega
      simp [timedCall, SysResult.ret, this, hn]

/-- Only a byte gives 1, and only an `errno` gives a timeout. -/
theorem result_ne_one (errno : Nat) : (if errno = etimedout then dsTimeout else 0) ≠ 1 := by
  split <;> decide

theorem result_eq_dsTimeout (errno : Nat) :
    (if errno = etimedout then dsTimeout else 0) = dsTimeout ↔ errno = etimedout := by
  split <;> simp_all [dsTimeout]

theorem waitLoop_exit (errno : Nat) (he : errno ≠ etimedout) (parentAlive : Bool) :
    waitLoop (if errno = etimedout then dsTimeout else 0) parentAlive = .exit := by
  rw [if_neg he]
  rfl

/-- A wait that brings no byte, whatever else it is, is classified right when it
is idle or leaves an `errno` other than `ETIMEDOUT`. -/
theorem classified_no_byte (hb : ¬k.Received) (hidle : k.Idle → ¬k.Closed) (errno : Nat) :
    Classified k (if errno = etimedout then dsTimeout else 0) ↔ (errno = etimedout → k.Idle) := by
  constructor
  · exact fun h he => h.timeout ((result_eq_dsTimeout errno).mpr he)
  · refine fun h => ⟨iff_of_false (result_ne_one errno) hb,
      fun hr => h ((result_eq_dsTimeout errno).mp hr), fun hc => ?_⟩
    exact waitLoop_exit errno fun he => hidle (h he) hc

/-- A wait on the connected socket is classified right exactly when nothing makes
its `errno` ambiguous. -/
theorem classified_iff (ht : p.sem.type = .socket) (hc : p.sem.initialized = true) :
    Classified k (timedSemwait p k).1 ↔ Unambiguous p.errno k := by
  rw [(timedSemwait_connected ht hc).1, timedRecv, Unambiguous]
  have hidle : k.Idle → ¬k.Closed := by
    rintro (hs | hs) ⟨n, hs', hn, -⟩ <;> rw [hs] at hs' <;> cases hs'
    exact Nat.lt_irrefl 0 hn
  rcases timedCall_cases p.errno k.select k.recv with
    ⟨e, hs, he, hr⟩ | ⟨hs, hr⟩ | ⟨n, hs, hn, hr⟩
  · have hb : ¬k.Received := fun ⟨n, hs', _⟩ => by rw [hs] at hs'; cases hs'
    have hi : ¬k.Idle := by
      rintro (hs' | hs') <;> rw [hs] at hs' <;> cases hs'
      exact he rfl
    rw [hr, recvResult_ne (by decide), classified_no_byte hb hidle, hs]
    simp [hi]
  · have hb : ¬k.Received := by
      rintro ⟨n, hs', hn, -⟩
      rcases hs with hs | hs <;> rw [hs] at hs' <;> cases hs'
      exact Nat.lt_irrefl 0 hn
    rw [hr, recvResult_ne (by decide), classified_no_byte hb hidle]
    refine iff_of_true (fun _ => hs) ⟨?_, fun n hs' hn => ?_⟩
    · rcases hs with hs | hs <;> rw [hs] <;> decide
    · rcases hs with hs | hs <;> rw [hs] at hs' <;> cases hs'
      exact absurd hn (Nat.lt_irrefl 0)
  · have hi : ¬k.Idle := by
      rintro (hs' | hs') <;> rw [hs] at hs' <;> cases hs'
      exact Nat.lt_irrefl 0 hn
    rw [hr, hs]
    cases hrecv : k.recv with
    | error e =>
      have hb : ¬k.Received := fun ⟨m, _, _, h⟩ => by rw [hrecv] at h; cases h
      rw [SysResult.ret, recvResult_ne (by decide), classified_no_byte hb hidle]
      simp [hi, hn]
    | ok m =>
      by_cases hm : m = 1
      · subst hm
        have hcl : ¬k.Closed := by
          rintro ⟨_, _, _, h | h⟩ <;> rw [hrecv] at h <;> cases h
        rw [SysResult.ret, show ((1 : Nat) : Int) = 1 from rfl, recvResult_one]
        refine iff_of_true ⟨iff_of_true rfl ⟨n, hs, hn, hrecv⟩, fun h => absurd h.symm dsTimeout_ne_one,
          fun h => absurd h hcl⟩ ?_
        simp
      · have hb : ¬k.Received := fun ⟨_, _, _, h⟩ => by rw [hrecv] at h; cases h; exact hm rfl
        rw [SysResult.ret, recvResult_ne (by omega), classified_no_byte hb hidle]
        simp [hi, hn, hm]

/-- What a wait leaves in `errno`: what it sets it to, or what it found. -/
theorem timedSemwait_errno (ht : p.sem.type = .socket) :
    (timedSemwait p k).2.errno = (k.sets p.sem.initialized).getD p.errno := by
  have hcall : ∀ call, (timedCall p.errno k.select call).2 =
      ((match k.select with
        | .error e => some (if e = eintr then etimedout else e)
        | .ok 0 => some etimedout
        | .ok (_ + 1) => match call with
          | .ok _ => none
          | .error e => some e : Option Nat)).getD p.errno := fun call => by
    rcases timedCall_cases p.errno k.select call with ⟨e, hs, he, hr⟩ | ⟨hs, hr⟩ | ⟨n, hs, hn, hr⟩
    · rw [hr, hs, Option.getD_some, if_neg he]
    · rw [hr]
      rcases hs with hs | hs <;> rw [hs] <;> rfl
    · obtain ⟨n, rfl⟩ := Nat.exists_eq_succ_of_ne_zero (Nat.ne_of_gt hn)
      rw [hr, hs]
      cases call <;> rfl
  by_cases hc : p.sem.initialized = true
  · rw [(timedSemwait_connected ht hc).2, hc]
    exact hcall k.recv
  · rw [Bool.not_eq_true] at hc
    rw [(timedSemwait_accepting ht hc).1, hc]
    exact hcall k.accept

theorem step_type {e : Event} (ht : p.sem.type = .socket) (hs : p.step e = some p') :
    p'.sem.type = .socket := by
  cases e with
  | other => cases hs; exact ht
  | wait k =>
    cases hs
    by_cases hc : p.sem.initialized = true
    · rw [(timedSemwait_connected ht hc).2]
      exact ht
    · rw [Bool.not_eq_true] at hc
      exact (timedSemwait_accepting ht hc).2

/-- **When a wait tells timeouts from the end of the connection.** In every run of
a process, every wait on the connected socket is classified right exactly if none
of them finds the peer gone with the `errno` of a timeout left over. -/
theorem classified_run_iff (is_host : Bool) (sockfd : Int) (errno : Nat) (es : List Event) :
    Meets Proc.step Proc.ClassifiedAt (.start is_host sockfd errno) es ↔
      Meets Proc.step Proc.UnambiguousAt (.start is_host sockfd errno) es := by
  refine meets_congr (I := fun p => p.sem.type = .socket) (fun _ _ _ ht hs => step_type ht hs)
    (fun p e ht => ?_) rfl
  cases e with
  | other => exact Iff.rfl
  | wait k => exact forall_congr' fun hc => classified_iff ht hc

/-- A server whose wait expired before the client closed the connection takes its
end for another timeout. -/
theorem not_classified : ¬∀ (is_host : Bool) (sockfd : Int) (errno : Nat) (es : List Event),
    Meets Proc.step Proc.ClassifiedAt (.start is_host sockfd errno) es := by
  intro h
  have hm := (h false 3 0 [.wait ⟨.ok 0, .ok 0, .ok 0, .ok 0, .ok 0, .ok 0⟩,
    .wait ⟨.ok 1, .ok 0, .ok 0, .ok 0, .ok 0, .ok 0⟩]).2 _ rfl
  have hexit := (hm.1 rfl).closed ⟨1, rfl, by decide, .inl rfl⟩ true
  exact absurd hexit (by decide)

/-- It retries for ever, as long as the client's process is there: the waits that
follow leave `errno` as it is. -/
theorem retries_forever (ht : p.sem.type = .socket) (hc : p.sem.initialized = true)
    (he : p.errno = etimedout) (ks : List Answers)
    (hk : ∀ k ∈ ks, ∃ n, k.select = .ok n ∧ 0 < n ∧ k.recv = .ok 0) :
    exec Proc.step p (ks.map .wait) = some p ∧
      ∀ k ∈ ks, waitLoop (timedSemwait p k).1 true = .retry := by
  have hone : ∀ k ∈ ks, timedSemwait p k = (dsTimeout, p) := fun k hmem => by
    obtain ⟨n, hs, hn, hr⟩ := hk k hmem
    have hrecv : timedRecv p.errno k = (0, p.errno) := by
      rw [timedRecv, hs, hr]
      have : ¬((n : Int) < 0) := by omega
      simp [timedCall, SysResult.ret, this, hn]
    have hw := timedSemwait_connected (k := k) ht hc
    rw [hrecv, he] at hw
    refine Prod.ext hw.1 (hw.2.trans ?_)
    rw [← he]
  constructor
  · clear hk
    induction ks with
    | nil => rfl
    | cons k ks ih =>
      rw [List.map_cons, exec_cons_eq_some]
      refine ⟨p, ?_, ih fun k' hk' => hone k' (List.mem_cons_of_mem k hk')⟩
      rw [Proc.step, hone k List.mem_cons_self]
  · intro k hmem
    rw [hone k hmem]
    rfl

end DShow.Transport
