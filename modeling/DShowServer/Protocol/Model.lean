import DShowServer.Framework.Run

/-!
# A client and the server over shared memory

MPlayer (`init`, `control`, `decode`, `uninit`) and the server's `main` share a
header, an input area and a picture area, and hand them to one another by
one-byte tokens over a socket: `timed_sempost` sends one, `timed_semwait` takes
one or gives up after 10 seconds. Each access of either program to the shared
memory and each call on the socket is one step, and any step of either can
come next.

`answers` and `reads` record what the server wrote for each command it posted an
answer to, and what the client read of the reply to each command it posted.
-/

namespace DShow.Protocol

open Run

/-- `struct vd_struct`, where `ret` and `cmd` are one word, and the areas behind
it. -/
structure Shared where
  ret : BitVec 32
  buflen : BitVec 32
  pts : BitVec 64
  data : List UInt8
  picture : List UInt8

/-- `VD_END`, `VD_DECODE`, `VD_SEEK`, `VD_RELOAD_BIH` and `VD_HAS_BIH`. -/
def vdEnd : BitVec 32 := 1

def vdDecode : BitVec 32 := 2

def vdSeek : BitVec 32 := 3

def vdReloadBih : BitVec 32 := 4

def vdHasBih : BitVec 32 := 0x10000

/-- What MPlayer's `decode` is called with. -/
structure Packet where
  data : List UInt8
  pts : BitVec 64
  flags : Nat

/-- `decode` with a packet that is not empty, `control` with
`VDCTRL_RESYNC_STREAM`, and `uninit`. -/
inductive Call
  | decode (p : Packet)
  | seek
  | uninit

/-- The client's next statement: of `init`, none, of `decode` up to its wait, of
`decode` reading the reply, of `control`, of `uninit`; or the client is done. -/
inductive ClientPc
  | clear | hasBih | copyBih | spawn | accept
  | idle
  | setPts (p : Packet) | copyData (p : Packet) | setBuflen (p : Packet)
  | postDecode (p : Packet) | waitDecode (p : Packet)
  | testRet | testSign | testPts | loadPts | testPage | loadPage
  | postSeek | waitSeek
  | postEnd
  | ended

/-- The server's next statement: before its loop, `timed_semwait`, the `switch`,
of `VD_DECODE`, `VD_SEEK` and `VD_RELOAD_BIH`, `timed_sempost`; or it exited. -/
inductive ServerPc
  | off | readCmd | openCodec | connect
  | waiting
  | woken
  | setPTS | decodeInternal | storeRet (ret : BitVec 32) | storePts | loadRet
  | seekInternal
  | reloadBih
  | post
  | exited

/-- Between a successful wait and its post. -/
def ServerPc.busy : ServerPc → Bool
  | .off | .readCmd | .openCodec | .connect | .waiting | .exited => false
  | _ => true

/-- What the server wrote into the header for a command. -/
structure Answer where
  ret : Option (BitVec 32)
  pts : Option (BitVec 64)

/-- What the client read of a reply. -/
inductive Read
  | ret (w : BitVec 32)
  | pts (p : BitVec 64)

structure State where
  shared : Shared
  /-- The header of the stream, if it has a size. -/
  bih : Option (List UInt8)
  client : ClientPc
  server : ServerPc
  /-- The server's variable `ret`. -/
  serverRet : BitVec 32
  connected : Bool
  toServer : Nat
  toClient : Nat
  posted : Nat
  answer : Answer
  answers : List Answer
  reads : List (Nat × Read)
  /-- One of the client's waits for a reply has expired. -/
  expired : Bool

namespace State

/-- The segment as it was created, and no server yet. -/
def start (shared : Shared) (bih : Option (List UInt8)) : State where
  shared := shared
  bih := bih
  client := .clear
  server := .off
  serverRet := 0
  connected := false
  toServer := 0
  toClient := 0
  posted := 0
  answer := ⟨none, none⟩
  answers := []
  reads := []
  expired := false

/-- `memcpy` to the start of an area. -/
def overwrite (area data : List UInt8) : List UInt8 := data ++ area.drop data.length

/-- The client goes on with another statement. -/
def goto (s : State) (c : ClientPc) : State := { s with client := c }

/-- The shared memory after a write. -/
def store (s : State) (m : Shared) : State := { s with shared := m }

/-- `timed_sempost` of the client. -/
def clientPost (s : State) : State := { s with toServer := s.toServer + 1, posted := s.posted + 1 }

/-- The client takes a token. -/
def take (s : State) : State := { s with toClient := s.toClient - 1 }

/-- A read of the reply to the command posted last. -/
def note (s : State) (r : Read) : State := { s with reads := s.reads ++ [(s.posted - 1, r)] }

/-- The first statement of a call: the command is written. -/
def begin (s : State) (c : Call) : Option State :=
  match s.client, c with
  | .idle, .decode p =>
    if p.data = [] then none else some ((s.store { s.shared with ret := vdDecode }).goto (.setPts p))
  | .idle, .seek => some ((s.store { s.shared with ret := vdSeek }).goto .postSeek)
  | .idle, .uninit => some ((s.store { s.shared with ret := vdEnd }).goto .postEnd)
  | _, _ => none

/-- The client's next statement. A wait can be passed only with a token, or with
the server's connection at the first one. -/
def clientStep (s : State) : Option State :=
  match s.client with
  | .clear => some ((s.store { s.shared with ret := 0, buflen := 0, pts := 0 }).goto
      (if s.bih.isSome then .hasBih else .spawn))
  | .hasBih => some ((s.store { s.shared with ret := s.shared.ret ||| vdHasBih }).goto .copyBih)
  | .copyBih =>
    some ((s.store { s.shared with data := overwrite s.shared.data (s.bih.getD []) }).goto .spawn)
  | .spawn => some ({ s with server := .readCmd }.goto .accept)
  | .accept => if s.connected then some (s.goto .idle) else none
  | .idle => none
  | .setPts p => some ((s.store { s.shared with pts := p.pts }).goto (.copyData p))
  | .copyData p =>
    some ((s.store { s.shared with data := overwrite s.shared.data p.data }).goto (.setBuflen p))
  | .setBuflen p =>
    some ((s.store { s.shared with buflen := BitVec.ofNat 32 p.data.length }).goto (.postDecode p))
  | .postDecode p => some (s.clientPost.goto (.waitDecode p))
  | .waitDecode p =>
    if s.toClient = 0 then none
    else some (s.take.goto (if p.flags &&& 3 ≠ 0 then .idle else .testRet))
  | .testRet =>
    some ((s.note (.ret s.shared.ret)).goto (if s.shared.ret = 0 then .idle else .testSign))
  | .testSign => some ((s.note (.ret s.shared.ret)).goto
      (if s.shared.ret &&& 0x80000000 ≠ 0 then .idle else .testPts))
  | .testPts =>
    some ((s.note (.pts s.shared.pts)).goto (if s.shared.pts = 0 then .testPage else .loadPts))
  | .loadPts => some ((s.note (.pts s.shared.pts)).goto .testPage)
  | .testPage => some ((s.note (.ret s.shared.ret)).goto
      (if s.shared.ret &&& 0x02 = 0 then .idle else .loadPage))
  | .loadPage => some ((s.note (.ret s.shared.ret)).goto .idle)
  | .postSeek => some (s.clientPost.goto .waitSeek)
  | .waitSeek => if s.toClient = 0 then none else some (s.take.goto .idle)
  | .postEnd => some (s.clientPost.goto .ended)
  | .ended => none

/-- A wait of the client ends without a token: `init` fails, and `decode` and
`control` return. -/
def expire (s : State) : Option State :=
  match s.client with
  | .accept => if s.connected then none else some (s.goto .ended)
  | .waitDecode _ | .waitSeek =>
    if s.toClient = 0 then some ({ s with expired := true }.goto .idle) else none
  | _ => none

/-- What the codec makes of a command: the reply word, the time and the picture
if it is copied; and whether a new header has the size of the stream. -/
structure Outcome where
  ret : BitVec 32
  pts : BitVec 64
  picture : Option (List UInt8)
  sameSize : Bool

/-- The server's next statement. A wait that expires is repeated. -/
def serverStep (s : State) (o : Outcome) : Option State :=
  match s.server with
  | .off => none
  | .readCmd => some { s with server := .openCodec }
  | .openCodec => some { s with server := .connect }
  | .connect => some { s with server := .waiting, connected := true }
  | .waiting =>
    if s.toServer = 0 then none
    else some { s with server := .woken, toServer := s.toServer - 1, answer := ⟨none, none⟩ }
  | .woken =>
    if s.shared.ret = vdEnd then some { s with server := .exited }
    else if s.shared.ret = vdDecode then some { s with server := .setPTS }
    else if s.shared.ret = vdSeek then some { s with server := .seekInternal }
    else if s.shared.ret = vdReloadBih then some { s with server := .reloadBih }
    else some { s with server := .post, serverRet := -1 }
  | .setPTS => some { s with server := .decodeInternal }
  | .decodeInternal => some { s with
      server := .storeRet o.ret
      shared := { s.shared with picture := overwrite s.shared.picture (o.picture.getD []) } }
  | .storeRet ret => some { s with
      server := .storePts, shared := { s.shared with ret := ret }
      answer := { s.answer with ret := some ret } }
  | .storePts => some { s with
      server := .loadRet, shared := { s.shared with pts := o.pts }
      answer := { s.answer with pts := some o.pts } }
  | .loadRet => some { s with server := .post, serverRet := s.shared.ret }
  | .seekInternal => some { s with
      server := .post, serverRet := 0, shared := { s.shared with ret := 0 }
      answer := { s.answer with ret := some 0 } }
  | .reloadBih =>
    let ret := if o.sameSize then 0 else -1
    some { s with
      server := .post, shared := { s.shared with ret := ret }
      answer := { s.answer with ret := some ret } }
  | .post => some { s with
      server := if s.serverRet = -1 then .exited else .waiting
      toClient := s.toClient + 1, answers := s.answers ++ [s.answer] }
  | .exited => none

/-- The server ends where it is: the codec cannot be opened or crashes, the
socket fails or the client's process is gone. -/
def serverExit (s : State) : Option State :=
  match s.server with
  | .off | .exited => none
  | _ => some { s with server := .exited }

inductive Event
  | begin (c : Call)
  | client
  | expire
  | server (o : Outcome)
  | serverExit

def step (s : State) : Event → Option State
  | .begin c => s.begin c
  | .client => s.clientStep
  | .expire => s.expire
  | .server o => s.serverStep o
  | .serverExit => s.serverExit

/-- The step writes the header or the input area for the client. -/
def clientWrites (s : State) : Event → Bool
  | .begin _ => true
  | .client =>
    match s.client with
    | .clear | .hasBih | .copyBih | .setPts _ | .copyData _ | .setBuflen _ => true
    | _ => false
  | _ => false

/-- The client writes only while the server is not between a successful wait and
its post. -/
def WritesAlone (s : State) (e : Event) : Prop :=
  (s.step e).isSome → s.clientWrites e = true → s.server.busy = false

/-- What the client read of the reply to its `k`-th command is what the server
wrote for this command. -/
def RepliesMatch (s : State) : Prop :=
  ∀ kr ∈ s.reads, ∃ a, s.answers[kr.1]? = some a ∧
    match kr.2 with
    | .ret w => a.ret = some w
    | .pts p => a.pts = some p

/-- The server has ended, and no token of its is on its way. -/
def Gone (s : State) : Prop := s.server = .exited ∧ s.toClient = 0

/-- No call begins after one of the client's waits for a reply has expired,
unless the server is gone. -/
def Patient (s : State) : Event → Prop
  | .begin _ => s.expired = false ∨ s.Gone
  | _ => True

end State

end DShow.Protocol
