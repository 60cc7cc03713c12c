import DShowServer.Framework.Simulate
import DShowServer.Transport.Model

/-!
# The two transports

Over a socket the tokens of a direction are the bytes in flight, and the host's
first wait accepts the connection. Over semaphores they are the value of one of
two semaphores, which host and guest open under crossed names, and the host's
first wait takes the token that the guest posts when it attaches. Both systems
are put together here from `timed_seminit`, `timed_sempost` and `timed_semwait`,
from the start on; `Linked` relates them once the host has accepted, and
`transports_agree` is the simulation.

A wait is one event, at the moment it ends: with a token if there is one, and
without one because its time is up.
-/

namespace DShow.Transport

open Simulate

inductive Side
  | host
  | guest
deriving DecidableEq

inductive Op
  | post (side : Side)
  | wait (side : Side)
deriving DecidableEq

def Op.side : Op → Side
  | post s => s
  | wait s => s

/-! ## Semaphores -/

/-- The semaphores of the system: those that have names, and the value of each. -/
structure Kernel where
  names : List Char → Option Nat
  value : Nat → Nat
  next : Nat

namespace Kernel

/-- No semaphores under any name of the session. -/
def start : Kernel := ⟨fun _ => none, fun _ => 0, 1⟩

/-- `sem_open`, with `O_CREAT` and the value 0 or without. -/
def semOpen (k : Kernel) (create : Bool) (name : List Char) : Option Nat × Kernel :=
  match k.names name with
  | some a => (some a, k)
  | none =>
    if create then (some k.next, {
      names := Function.update k.names name (some k.next)
      value := Function.update k.value k.next 0
      next := k.next + 1 })
    else (none, k)

/-- `sem_unlink`. -/
def semUnlink (k : Kernel) (name : List Char) : SysResult × Kernel :=
  match k.names name with
  | some _ => (.ok 0, { k with names := Function.update k.names name none })
  | none => (.error enoent, k)

def semPost (k : Kernel) (a : Nat) : Kernel :=
  { k with value := Function.update k.value a (k.value a + 1) }

/-- `sem_timedwait`, at the moment it ends. -/
def semTimedwait (k : Kernel) (a : Nat) : SysResult × Kernel :=
  if 0 < k.value a then (.ok 0, { k with value := Function.update k.value a (k.value a - 1) })
  else (.error etimedout, k)

end Kernel

/-- `snprintf(…, 80, "/dshow_sem%d.%s", n, id)`. -/
def semName (n : Char) (id : List Char) : List Char := ("/dshow_sem".toList ++ n :: '.' :: id).take 79

/-- `timed_seminit` with semaphores; the process exits where one cannot be opened. -/
def timedSeminitSemaphore (k : Kernel) (id : List Char) (is_host : Bool) (errno : Nat) :
    Option (Proc × Kernel) :=
  let semrd := semName (if is_host then '2' else '1') id
  let semwr := semName (if is_host then '1' else '2') id
  let (rd, k) := k.semOpen is_host semrd
  let (wr, k) := k.semOpen is_host semwr
  let k := if is_host then k else ((k.semUnlink semwr).2.semUnlink semrd).2
  rd.bind fun sem_rd => wr.map fun sem_wr =>
    (⟨⟨.semaphore, !is_host, 0, 0, id, sem_rd, sem_wr⟩, errno⟩,
      if is_host then k else k.semPost sem_wr)

/-- Host and guest over semaphores. -/
structure SemaphoreSystem where
  kernel : Kernel
  host : Proc
  guest : Proc

namespace SemaphoreSystem

/-- The host opens the semaphores, and the guest attaches. -/
def start (id : List Char) (hostErrno guestErrno : Nat) : Option SemaphoreSystem :=
  (timedSeminitSemaphore .start id true hostErrno).bind fun (host, k) =>
    (timedSeminitSemaphore k id false guestErrno).map fun (guest, k) => ⟨k, host, guest⟩

def proc (s : SemaphoreSystem) : Side → Proc
  | .host => s.host
  | .guest => s.guest

def setProc (s : SemaphoreSystem) (side : Side) (p : Proc) (k : Kernel) : SemaphoreSystem :=
  match side with
  | .host => ⟨k, p, s.guest⟩
  | .guest => ⟨k, s.host, p⟩

/-- `timed_sempost`. -/
def post (s : SemaphoreSystem) (side : Side) : SemaphoreSystem :=
  { s with kernel := s.kernel.semPost (s.proc side).sem.sem_wr }

/-- `timed_semwait`, which unlinks the names the first time. -/
def wait (s : SemaphoreSystem) (side : Side) : Int × SemaphoreSystem :=
  let p := s.proc side
  let (semwait, k) := s.kernel.semTimedwait p.sem.sem_rd
  let (unlink1, k₁) := k.semUnlink (semName '1' p.sem.id)
  let (unlink2, k₂) := k₁.semUnlink (semName '2' p.sem.id)
  let (r, p') := timedSemwait p ⟨.ok 0, .ok 0, .ok 0, semwait, unlink1, unlink2⟩
  (r, s.setProc side p' (if p.sem.initialized then k else k₂))

def step (s : SemaphoreSystem) : Op → Option (Option Int × SemaphoreSystem)
  | .post side => some (none, s.post side)
  | .wait side => some (some (s.wait side).1, (s.wait side).2)

end SemaphoreSystem

/-! ## Sockets -/

/-- Host and guest over a socket: whether the guest's connection waits to be
accepted, and the bytes in flight each way. -/
structure SocketSystem where
  pending : Bool
  toHost : Nat
  toGuest : Nat
  host : Proc
  guest : Proc

namespace SocketSystem

/-- The host listens, and the guest connects. -/
def start (hostErrno guestErrno : Nat) : SocketSystem where
  pending := true
  toHost := 0
  toGuest := 0
  host := ⟨⟨.socket, false, 3, -1, [], 0, 0⟩, hostErrno⟩
  guest := ⟨⟨.socket, true, 3, -1, [], 0, 0⟩, guestErrno⟩

/-- `timed_sempost`. The host has no peer to send to before it has accepted. -/
def post (s : SocketSystem) : Side → Option SocketSystem
  | .host => if s.host.sem.initialized then some { s with toGuest := s.toGuest + 1 } else none
  | .guest => some { s with toHost := s.toHost + 1 }

/-- The answers where `select` finds something to read or not. -/
def answers (ready : Bool) : Answers :=
  ⟨.ok (if ready then 1 else 0), .ok 4, .ok 1, .ok 0, .ok 0, .ok 0⟩

/-- `timed_semwait`. -/
def wait (s : SocketSystem) : Side → Int × SocketSystem
  | .host =>
    if s.host.sem.initialized then
      let (r, p) := timedSemwait s.host (answers (decide (0 < s.toHost)))
      (r, { s with host := p, toHost := s.toHost - 1 })
    else
      let (r, p) := timedSemwait s.host (answers s.pending)
      (r, { s with host := p, pending := false })
  | .guest =>
    let (r, p) := timedSemwait s.guest (answers (decide (0 < s.toGuest)))
    (r, { s with guest := p, toGuest := s.toGuest - 1 })

def step (s : SocketSystem) : Op → Option (Option Int × SocketSystem)
  | .post side => (s.post side).map fun s => (none, s)
  | .wait side => some (some (s.wait side).1, (s.wait side).2)

end SocketSystem

/-! ## One wait -/

/-- 1 with a token, a timeout without. -/
def tokenResult (ready : Bool) : Int := if ready then 1 else dsTimeout

variable {p : Proc}

theorem timedSemwait_socket (ht : p.sem.type = .socket) (hc : p.sem.initialized = true) (ready : Bool) :
    (timedSemwait p (SocketSystem.answers ready)).1 = tokenResult ready ∧
      (timedSemwait p (SocketSystem.answers ready)).2.sem = p.sem := by
  cases ready <;>
    simp [timedSemwait, ht, hc, timedRecv, timedCall, SocketSystem.answers, SysResult.ret, tokenResult]

theorem timedSemwait_accept (ht : p.sem.type = .socket) (hc : p.sem.initialized = false) :
    (timedSemwait p (SocketSystem.answers true)).1 = 1 ∧
      (timedSemwait p (SocketSystem.answers true)).2.sem =
        { p.sem with listenfd := p.sem.sockfd, sockfd := 4, initialized := true } := by
  simp [timedSemwait, ht, hc, timedAccept, timedCall, SocketSystem.answers, SysResult.ret]

/-- The answer to `sem_timedwait`. -/
def semwaitAnswer (ready : Bool) : SysResult := if ready then .ok 0 else .error etimedout

theorem semTimedwait_eq (k : Kernel) (a : Nat) : k.semTimedwait a =
    (semwaitAnswer (decide (0 < k.value a)),
      { k with value := Function.update k.value a (k.value a - 1) }) := by
  unfold Kernel.semTimedwait semwaitAnswer
  split
  · rename_i h
    rw [decide_eq_true h]
    rfl
  · rename_i h
    have hz : k.value a = 0 := Nat.eq_zero_of_not_pos h
    rw [decide_eq_false h, hz, Function.update_eq_self_iff.mpr hz.symm]
    rfl

theorem Kernel.semUnlink_value (k : Kernel) (name : List Char) : (k.semUnlink name).2.value = k.value := by
  unfold semUnlink
  split <;> rfl

theorem timedSemwait_semaphore (ht : p.sem.type = .semaphore) (hc : p.sem.initialized = true)
    (ready : Bool) (a b c d e : SysResult) :
    (timedSemwait p ⟨a, b, c, semwaitAnswer ready, d, e⟩).1 = tokenResult ready ∧
      (timedSemwait p ⟨a, b, c, semwaitAnswer ready, d, e⟩).2.sem = p.sem := by
  cases ready <;> simp [timedSemwait, ht, hc, semwaitAnswer, SysResult.ret, tokenResult]

theorem timedSemwait_first (ht : p.sem.type = .semaphore) (hc : p.sem.initialized = false)
    (a b c d e : SysResult) :
    (timedSemwait p ⟨a, b, c, semwaitAnswer true, d, e⟩).1 = 1 ∧
      (timedSemwait p ⟨a, b, c, semwaitAnswer true, d, e⟩).2.sem =
        { p.sem with initialized := true } := by
  simp [timedSemwait, ht, hc, semwaitAnswer, SysResult.ret]

/-- A wait over semaphores, after the first: one token less, if there is one. -/
theorem SemaphoreSystem.wait_eq {t : SemaphoreSystem} {side : Side}
    (ht : (t.proc side).sem.type = .semaphore) (hc : (t.proc side).sem.initialized = true) :
    (t.wait side).1 = tokenResult (decide (0 < t.kernel.value (t.proc side).sem.sem_rd)) ∧
      ∃ p', p'.sem = (t.proc side).sem ∧ (t.wait side).2 = t.setProc side p' { t.kernel with
        value := Function.update t.kernel.value (t.proc side).sem.sem_rd
          (t.kernel.value (t.proc side).sem.sem_rd - 1) } := by
  simp only [wait, semTimedwait_eq, hc, if_true]
  exact ⟨(timedSemwait_semaphore ht hc _ _ _ _ _ _).1, _,
    (timedSemwait_semaphore ht hc _ _ _ _ _ _).2, rfl⟩

/-! ## The simulation -/

/-- The two systems once the guest has attached, before and after the host has
accepted it: the semaphores are crossed, and hold what is in flight, and the
connection that waits to be accepted is one token more. -/
structure Linked (accepted : Bool) (s : SocketSystem) (t : SemaphoreSystem) : Prop where
  pending : s.pending = !accepted
  socket : s.host.sem.type = .socket ∧ s.guest.sem.type = .socket
  semaphore : t.host.sem.type = .semaphore ∧ t.guest.sem.type = .semaphore
  host : s.host.sem.initialized = accepted ∧ t.host.sem.initialized = accepted
  guest : s.guest.sem.initialized = true ∧ t.guest.sem.initialized = true
  crossed : t.guest.sem.sem_wr = t.host.sem.sem_rd ∧ t.guest.sem.sem_rd = t.host.sem.sem_wr
  apart : t.host.sem.sem_rd ≠ t.host.sem.sem_wr
  toHost : t.kernel.value t.host.sem.sem_rd = s.toHost + if accepted then 0 else 1
  toGuest : t.kernel.value t.host.sem.sem_wr = s.toGuest

/-- A wait tells 1 or a timeout. -/
def Told : Option Int → Prop
  | none => True
  | some r => r = 1 ∨ r = dsTimeout

theorem told_tokenResult (ready : Bool) : Told (some (tokenResult ready)) := by
  cases ready
  · exact .inr rfl
  · exact .inl rfl

variable {s : SocketSystem} {t : SemaphoreSystem} {accepted : Bool}

theorem Linked.postGuest (h : Linked accepted s t) :
    Agree SocketSystem.step SemaphoreSystem.step (Linked accepted) Told s t (.post .guest) := by
  refine ⟨none, _, _, rfl, rfl, trivial, { h with toHost := ?_, toGuest := ?_ }⟩
  · show Function.update t.kernel.value t.guest.sem.sem_wr (t.kernel.value t.guest.sem.sem_wr + 1)
      t.host.sem.sem_rd = s.toHost + 1 + _
    rw [h.crossed.1, Function.update_self, h.toHost]
    omega
  · show Function.update t.kernel.value t.guest.sem.sem_wr _ t.host.sem.sem_wr = s.toGuest
    rw [h.crossed.1, Function.update_of_ne h.apart.symm, h.toGuest]

theorem Linked.postHost (h : Linked true s t) :
    Agree SocketSystem.step SemaphoreSystem.step (Linked true) Told s t (.post .host) := by
  have hs : s.step (.post .host) = some (none, { s with toGuest := s.toGuest + 1 }) := by
    simp only [SocketSystem.step, SocketSystem.post, h.host.1, if_true, Option.map_some]
  refine ⟨none, _, _, hs, rfl, trivial, { h with toHost := ?_, toGuest := ?_ }⟩
  · show Function.update t.kernel.value t.host.sem.sem_wr _ t.host.sem.sem_rd = _
    rw [Function.update_of_ne h.apart, h.toHost]
  · show Function.update t.kernel.value t.host.sem.sem_wr (t.kernel.value t.host.sem.sem_wr + 1)
      t.host.sem.sem_wr = s.toGuest + 1
    rw [Function.update_self, h.toGuest]

theorem Linked.waitGuest (h : Linked accepted s t) :
    Agree SocketSystem.step SemaphoreSystem.step (Linked accepted) Told s t (.wait .guest) := by
  have hvalue : t.kernel.value t.guest.sem.sem_rd = s.toGuest := by rw [h.crossed.2, h.toGuest]
  obtain ⟨hr, hsem⟩ := timedSemwait_socket h.socket.2 h.guest.1 (decide (0 < s.toGuest))
  obtain ⟨hr', p', hp', ht⟩ := @SemaphoreSystem.wait_eq t .guest h.semaphore.2 h.guest.2
  refine ⟨some (tokenResult (decide (0 < s.toGuest))), { s with
    guest := (timedSemwait s.guest (SocketSystem.answers (decide (0 < s.toGuest)))).2
    toGuest := s.toGuest - 1 }, (t.wait .guest).2, ?_, ?_, told_tokenResult _, ?_⟩
  · rw [← hr]
    rfl
  · rw [SemaphoreSystem.step, hr']
    simp only [SemaphoreSystem.proc, hvalue]
  · rw [ht]
    generalize (timedSemwait s.guest (SocketSystem.answers (decide (0 < s.toGuest)))).2 = p at hsem
    simp only [SemaphoreSystem.setProc, SemaphoreSystem.proc, h.crossed.2] at hp' ⊢
    exact {
      pending := h.pending
      socket := ⟨h.socket.1, hsem ▸ h.socket.2⟩
      semaphore := ⟨h.semaphore.1, hp' ▸ h.semaphore.2⟩
      host := h.host
      guest := ⟨hsem ▸ h.guest.1, hp' ▸ h.guest.2⟩
      crossed := hp' ▸ h.crossed
      apart := h.apart
      toHost := (Function.update_of_ne h.apart _ _).trans h.toHost
      toGuest := (Function.update_self _ _ _).trans (congrArg (· - 1) h.toGuest) }

theorem Linked.waitHost (h : Linked true s t) :
    Agree SocketSystem.step SemaphoreSystem.step (Linked true) Told s t (.wait .host) := by
  have hvalue : t.kernel.value t.host.sem.sem_rd = s.toHost := h.toHost
  obtain ⟨hr, hsem⟩ := timedSemwait_socket h.socket.1 h.host.1 (decide (0 < s.toHost))
  obtain ⟨hr', p', hp', ht⟩ := @SemaphoreSystem.wait_eq t .host h.semaphore.1 h.host.2
  refine ⟨some (tokenResult (decide (0 < s.toHost))), { s with
    host := (timedSemwait s.host (SocketSystem.answers (decide (0 < s.toHost)))).2
    toHost := s.toHost - 1 }, (t.wait .host).2, ?_, ?_, told_tokenResult _, ?_⟩
  · rw [SocketSystem.step, SocketSystem.wait, if_pos h.host.1, ← hr]
  · rw [SemaphoreSystem.step, hr']
    simp only [SemaphoreSystem.proc, hvalue]
  · rw [ht]
    generalize (timedSemwait s.host (SocketSystem.answers (decide (0 < s.toHost)))).2 = p at hsem
    simp only [SemaphoreSystem.setProc, SemaphoreSystem.proc] at hp' ⊢
    exact {
      pending := h.pending
      socket := ⟨hsem ▸ h.socket.1, h.socket.2⟩
      semaphore := ⟨hp' ▸ h.semaphore.1, h.semaphore.2⟩
      host := ⟨hsem ▸ h.host.1, hp' ▸ h.host.2⟩
      guest := h.guest
      crossed := hp' ▸ h.crossed
      apart := hp' ▸ h.apart
      toHost := by
        dsimp only
        rw [hp', Function.update_self, hvalue]
        rfl
      toGuest := by
        dsimp only
        rw [hp', Function.update_of_ne h.apart.symm, h.toGuest] }

/-- The host's first wait: `accept` in one system, the guest's token in the other. -/
theorem Linked.accept (h : Linked false s t) : ∃ s' t', s.step (.wait .host) = some (some 1, s') ∧
    t.step (.wait .host) = some (some 1, t') ∧ Linked true s' t' := by
  have hvalue : t.kernel.value t.host.sem.sem_rd = s.toHost + 1 := h.toHost
  obtain ⟨hr, hsem⟩ := timedSemwait_accept h.socket.1 h.host.1
  have hready : decide (0 < t.kernel.value t.host.sem.sem_rd) = true := by
    rw [hvalue]
    exact decide_eq_true (Nat.succ_pos _)
  have ht : ∃ p' k', p'.sem = { t.host.sem with initialized := true } ∧
      k'.value = Function.update t.kernel.value t.host.sem.sem_rd s.toHost ∧
      t.wait .host = (1, ⟨k', p', t.guest⟩) := by
    simp only [SemaphoreSystem.wait, SemaphoreSystem.proc, SemaphoreSystem.setProc, semTimedwait_eq, hready,
      h.host.2, Bool.false_eq_true, if_false]
    refine ⟨_, _, ?_, ?_, Prod.ext ?_ rfl⟩
    · exact (timedSemwait_first h.semaphore.1 h.host.2 _ _ _ _ _).2
    · simp only [Kernel.semUnlink_value, hvalue, Nat.add_sub_cancel]
    · dsimp only
      exact (timedSemwait_first h.semaphore.1 h.host.2 _ _ _ _ _).1
  obtain ⟨p', k', hp', hk', ht⟩ := ht
  refine ⟨{ s with
    host := (timedSemwait s.host (SocketSystem.answers true)).2, pending := false }, ⟨k', p', t.guest⟩,
    ?_, ?_, ?_⟩
  · rw [SocketSystem.step, SocketSystem.wait, if_neg (by rw [h.host.1]; decide), h.pending, ← hr]
    rfl
  · rw [SemaphoreSystem.step, ht]
  · generalize (timedSemwait s.host (SocketSystem.answers true)).2 = p at hsem
    exact {
      pending := rfl
      socket := ⟨by dsimp only; rw [hsem]; exact h.socket.1, h.socket.2⟩
      semaphore := ⟨by dsimp only; rw [hp']; exact h.semaphore.1, h.semaphore.2⟩
      host := ⟨by dsimp only; rw [hsem], by dsimp only; rw [hp']⟩
      guest := h.guest
      crossed := by dsimp only; rw [hp']; exact h.crossed
      apart := by dsimp only; rw [hp']; exact h.apart
      toHost := by
        dsimp only
        rw [hp', hk']
        exact Function.update_self _ _ _
      toGuest := by
        dsimp only
        rw [hp', hk']
        exact (Function.update_of_ne h.apart.symm _ _).trans h.toGuest }

/-- The names of the two semaphores differ, cut at 79 characters as they are. -/
theorem semName_ne (id : List Char) : semName '1' id ≠ semName '2' id := by
  intro h
  have := congrArg (·[10]?) h
  simp [semName] at this

theorem Kernel.semOpen_new {k : Kernel} {name : List Char} (h : k.names name = none) :
    k.semOpen true name = (some k.next, {
      names := Function.update k.names name (some k.next)
      value := Function.update k.value k.next 0
      next := k.next + 1 }) := by
  rw [semOpen, h]
  rfl

theorem Kernel.semOpen_old {k : Kernel} {name : List Char} {a : Nat} (h : k.names name = some a)
    (create : Bool) : k.semOpen create name = (some a, k) := by
  rw [semOpen, h]

/-- The host creates semaphores 1 and 2, to read and to write, and the guest opens
them the other way round. -/
theorem semaphoreStart_eq (id : List Char) (hostErrno guestErrno : Nat) : ∃ k : Kernel,
    SemaphoreSystem.start id hostErrno guestErrno = some {
      kernel := k
      host := ⟨⟨.semaphore, false, 0, 0, id, 1, 2⟩, hostErrno⟩
      guest := ⟨⟨.semaphore, true, 0, 0, id, 2, 1⟩, guestErrno⟩ } ∧
    k.value 1 = 1 ∧ k.value 2 = 0 := by
  have hne := semName_ne id
  let k₁ : Kernel := ⟨Function.update Kernel.start.names (semName '2' id) (some 1),
    Function.update Kernel.start.value 1 0, 2⟩
  have h₁ : Kernel.start.semOpen true (semName '2' id) = (some 1, k₁) := Kernel.semOpen_new rfl
  have h₂ : k₁.names (semName '1' id) = none := Function.update_of_ne hne (some 1) _
  have hhost : timedSeminitSemaphore .start id true hostErrno =
      some (⟨⟨.semaphore, false, 0, 0, id, 1, 2⟩, hostErrno⟩, {
        names := Function.update (Function.update Kernel.start.names (semName '2' id) (some 1))
          (semName '1' id) (some 2)
        value := Function.update (Function.update Kernel.start.value 1 0) 2 0
        next := 3 }) := by
    simp only [timedSeminitSemaphore, if_true]
    rw [h₁, Kernel.semOpen_new h₂]
    rfl
  rw [SemaphoreSystem.start, hhost, Option.bind_some]
  simp only [timedSeminitSemaphore, Bool.false_eq_true, if_false]
  rw [Kernel.semOpen_old (a := 2) (Function.update_self _ _ _),
    Kernel.semOpen_old (a := 1) ((Function.update_of_ne hne.symm (some 2) _).trans (Function.update_self _ _ _))]
  refine ⟨_, rfl, ?_, ?_⟩
  · simp only [Kernel.semPost, Kernel.semUnlink_value]
    rfl
  · simp only [Kernel.semPost, Kernel.semUnlink_value]
    rfl

/-- Host and guest attached: the guest's token lies on the semaphore that the host
reads. -/
theorem linked_start (id : List Char) (hostErrno guestErrno : Nat) :
    ∃ t, SemaphoreSystem.start id hostErrno guestErrno = some t ∧
      Linked false (.start hostErrno guestErrno) t := by
  obtain ⟨k, hk, h₁, h₂⟩ := semaphoreStart_eq id hostErrno guestErrno
  exact ⟨_, hk, {
    pending := rfl
    socket := ⟨rfl, rfl⟩
    semaphore := ⟨rfl, rfl⟩
    host := ⟨rfl, rfl⟩
    guest := ⟨rfl, rfl⟩
    crossed := ⟨rfl, rfl⟩
    apart := show 1 ≠ 2 by decide
    toHost := h₁
    toGuest := h₂ }⟩

/-- **The two transports are the same to their users.** The guest attaches and
does what it will, the host's first wait succeeds, and then either side posts and
waits in any order: every wait gives the same result over both. -/
theorem transports_agree (id : List Char) (hostErrno guestErrno : Nat) (before after : List Op)
    (hb : ∀ o ∈ before, o.side = .guest) :
    ∃ t rs s' t', SemaphoreSystem.start id hostErrno guestErrno = some t ∧
      outputs SocketSystem.step (.start hostErrno guestErrno) (before ++ .wait .host :: after) =
        some (rs, s') ∧
      outputs SemaphoreSystem.step t (before ++ .wait .host :: after) = some (rs, t') ∧
      rs[before.length]? = some (some 1) ∧ ∀ r ∈ rs, Told r := by
  obtain ⟨t, ht, h₀⟩ := linked_start id hostErrno guestErrno
  obtain ⟨rs₁, s₁, t₁, hs₁, ht₁, hlen, hrs₁, h₁⟩ := outputs_agree (P := fun o : Op => o.side = .guest)
    (Q := Told) (fun s t o h ho => by
      cases o with
      | post side => cases ho; exact h.postGuest
      | wait side => cases ho; exact h.waitGuest) h₀ hb
  obtain ⟨s₂, t₂, hs₂, ht₂, h₂⟩ := h₁.accept
  obtain ⟨rs₃, s₃, t₃, hs₃, ht₃, -, hrs₃, -⟩ := outputs_agree (P := fun _ => True) (Q := Told)
    (fun s t o h _ => by
      cases o with
      | post side => cases side with
        | host => exact h.postHost
        | guest => exact h.postGuest
      | wait side => cases side with
        | host => exact h.waitHost
        | guest => exact h.waitGuest) h₂ (fun _ _ => trivial : ∀ o ∈ after, True)
  refine ⟨t, rs₁ ++ some 1 :: rs₃, s₃, t₃, ht, outputs_append hs₁ (outputs_cons hs₂ hs₃),
    outputs_append ht₁ (outputs_cons ht₂ ht₃), ?_, ?_⟩
  · rw [List.getElem?_append_right (Nat.le_of_eq hlen), hlen, Nat.sub_self]
    rfl
  · exact List.forall_mem_append.mpr ⟨hrs₁, List.forall_mem_cons.mpr ⟨.inl rfl, hrs₃⟩⟩

/-- The guest waits in vain and posts before it is accepted; then a token each way,
and a wait that expires. -/
theorem transports_agree_four : ∃ t rs s' t', SemaphoreSystem.start ['7'] 0 0 = some t ∧
    outputs SocketSystem.step (.start 0 0) ([.wait .guest, .post .guest] ++
      .wait .host :: [.wait .host, .post .host, .wait .guest, .wait .guest]) = some (rs, s') ∧
    outputs SemaphoreSystem.step t ([.wait .guest, .post .guest] ++
      .wait .host :: [.wait .host, .post .host, .wait .guest, .wait .guest]) = some (rs, t') ∧
    rs = [some dsTimeout, none, some 1, some 1, none, some 1, some dsTimeout] := by
  obtain ⟨t, rs, s', t', ht, hs, hs', -⟩ := transports_agree ['7'] 0 0 [.wait .guest, .post .guest]
    [.wait .host, .post .host, .wait .guest, .wait .guest] (by decide)
  have hrs : (outputs SocketSystem.step (.start 0 0) ([.wait .guest, .post .guest] ++
      .wait .host :: [.wait .host, .post .host, .wait .guest, .wait .guest])).map Prod.fst =
      some [some dsTimeout, none, some 1, some 1, none, some 1, some dsTimeout] := by decide +kernel
  rw [hs] at hrs
  exact ⟨t, rs, s', t', ht, hs, hs', Option.some.inj hrs⟩

end DShow.Transport
