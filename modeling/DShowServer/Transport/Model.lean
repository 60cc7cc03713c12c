import Mathlib.Logic.Function.Basic

/-!
# Waiting and posting (timeout_sem.c)

Client and server hand the shared memory to each other through `timed_sempost`
and `timed_semwait`, over a socket or over a pair of semaphores. What the system
answers to the calls of one wait is an argument (`Answers`); what the functions
make of it, with the `errno` they find and leave, is translated here.
-/

namespace DShow.Transport

/-! ## System calls -/

def enoent : Nat := 2

def eintr : Nat := 4

def econnreset : Nat := 104

/-- `DS_ETIMEDOUT`. -/
def etimedout : Nat := 110

/-- What a system call gives: a number, or −1 and an `errno`. One that succeeds
leaves `errno` alone. -/
inductive SysResult
  | ok (n : Nat)
  | error (errno : Nat)
deriving DecidableEq

def SysResult.ret : SysResult → Nat → Int × Nat
  | ok n, errno => (n, errno)
  | error e, _ => (-1, e)

/-- The system's answers during one wait: to `select`, to the `accept` or `recv`
after it, to `sem_timedwait` and to the two calls of `sem_unlink`. -/
structure Answers where
  select : SysResult
  accept : SysResult
  recv : SysResult
  semwait : SysResult
  unlink1 : SysResult
  unlink2 : SysResult

/-! ## The semaphore of a process -/

/-- `DS_SOCKET` and `DS_SEMAPHORE`. -/
inductive SemType
  | socket
  | semaphore
deriving DecidableEq

/-- `DS_TIMEOUT`. -/
def dsTimeout : Int := -1

/-- `struct sem`, with the numbers that the system knows its two semaphores by. -/
structure Sem where
  type : SemType
  initialized : Bool
  sockfd : Int
  listenfd : Int
  id : List Char
  sem_rd : Nat
  sem_wr : Nat

/-- A process: its `struct sem` and its `errno`. -/
structure Proc where
  sem : Sem
  errno : Nat

/-- `timed_accept` and `timed_recv`, which differ in the call after `select`:
the result and `errno`. -/
def timedCall (errno : Nat) (select call : SysResult) : Int × Nat :=
  let (res, errno) := select.ret errno
  if res < 0 ∧ errno ≠ eintr then (-1, errno)
  else if 0 < res then call.ret errno
  else (-1, etimedout)

def timedAccept (errno : Nat) (k : Answers) : Int × Nat := timedCall errno k.select k.accept

def timedRecv (errno : Nat) (k : Answers) : Int × Nat := timedCall errno k.select k.recv

/-- `timed_semclean`: what it leaves in `errno`. -/
def timedSemclean (sem : Sem) (errno : Nat) (k : Answers) : Nat :=
  match sem.type with
  | .socket => errno
  | .semaphore => (k.unlink2.ret (k.unlink1.ret errno).2).2

/-- `timed_semwait`. -/
def timedSemwait (p : Proc) (k : Answers) : Int × Proc :=
  let (ok, sem, errno) := match p.sem.type with
    | .socket =>
      if ¬p.sem.initialized then
        let (fd, errno) := timedAccept p.errno k
        if fd ≠ -1 then
          ((1 : Int), { p.sem with listenfd := p.sem.sockfd, sockfd := fd, initialized := true }, errno)
        else (fd, p.sem, errno)
      else
        let (n, errno) := timedRecv p.errno k
        (if n = 1 then 1 else 0, p.sem, errno)
    | .semaphore =>
      let (r, errno) := k.semwait.ret p.errno
      let ok : Int := if r = 0 then 1 else 0
      if ¬p.sem.initialized then
        (ok, { p.sem with initialized := true }, timedSemclean p.sem errno k)
      else (ok, p.sem, errno)
  (if ok = 0 ∧ errno = etimedout then dsTimeout else ok, ⟨sem, errno⟩)

end DShow.Transport
