/-
`TcpClient::sendAndRecvFlconcPb` of net/tcp/tcp_client.cc: connect, write the request, read until the reply
is there, with a timeout event of its own and a new socket after a failure; over `connect_hook`,
`write_hook` and `read_hook` of coroutine/coroutine_hook.cc and `input`, `execute` and `output` of
net/tcp/tcp_connection.cc.

The machine makes calls one after the other. The kernel, the peer and the loop of the reactor choose what
the system calls return, which number `socket` gives, and what is resumed when.
-/
import Flconc.Net.Output
import Flconc.Net.Timer

namespace Flconc.TcpClient

open Function

/-! ## The state -/

/-- What the client has under a descriptor number: nothing, a socket, or one on which `connect` succeeded. -/
inductive Socket
  | closed
  | created
  | connected
  deriving DecidableEq

/-- The events in the timer of `m_reactor`: those of the client's calls, those of its `connect_hook`s, and
those of others. -/
inductive Ev
  | rpc (call : Nat)
  | connect (attempt : Nat)
  | other (n : Nat)
  deriving DecidableEq

inductive Hook
  | connect
  | write
  | read
  deriving DecidableEq

/-- Where the calling coroutine is in `sendAndRecvFlconcPb`, if it is in there. -/
inductive Pc
  | idle
  /-- Before `connect_hook`. -/
  | connect
  /-- `connect_hook` has failed. -/
  | resetFd
  /-- The head of the loop of `output`. -/
  | output
  /-- Before `getResPackageData`. -/
  | reply
  /-- The head of the loop of `input`. -/
  | input
  | execute
  | errDeal
  /-- Suspended in the hook. -/
  | suspended (hook : Hook)
  /-- Behind the `Yield` of the hook. -/
  | woken (hook : Hook)
  /-- Suspended in the close branch of `input`. -/
  | parked
  deriving DecidableEq

/-- The caller is suspended in the call. -/
def Pc.waits : Pc → Bool
  | .suspended _ | .parked => true
  | _ => false

/-- What the call returns: 0 or one of the errors. -/
inductive Ret
  | succ
  | ERROR_PEER_CLOSED
  | ERROR_CONNECT_SYS_ERR
  | ERROR_FAILED_CONNECT
  | ERROR_RPC_CALL_TIMEOUT
  deriving DecidableEq

/-- A buffer: the number of its readable bytes and, once a call has returned an error, how many were put
in since the last one did. -/
structure Buf where
  readAble : Int := 0
  fresh : Option Int := none
  deriving DecidableEq

def Buf.put (b : Buf) (n : Int) : Buf := ⟨b.readAble + n, b.fresh.map (· + n)⟩

def Buf.recycleRead (b : Buf) (n : Int) : Buf := { b with readAble := b.readAble - n }

/-- Of the readable bytes some were in the buffer when a call returned an error. -/
def Buf.LeftOver (b : Buf) : Prop := ∃ n ∈ b.fresh, n < b.readAble

instance (b : Buf) : Decidable b.LeftOver := inferInstanceAs (Decidable (∃ n ∈ b.fresh, n < b.readAble))

/-- Moving the read index back by `-n` makes more readable than was put in since a call last returned an
error. -/
def Buf.bringsBack (b : Buf) (n : Int) : Bool := decide (n < 0) && b.fresh.any (· < b.readAble - n)

/-- A system call `write` in `output`: the descriptor of the connection, what is under it, the descriptor
of the client, and the buffers. -/
structure Write where
  fd : Nat
  socket : Socket
  clientFd : Nat
  outBuf : Buf
  inBuf : Buf
  deriving DecidableEq

/-- A `TcpClient` with its connection, the timer of its reactor, and the call that is running. -/
structure Client where
  fd : Nat
  /-- `m_fd` of the connection. -/
  connFd : Nat
  sockets : Nat → Socket
  state : TcpConnectionState := .NotConnected
  overTime : Bool := false
  outBuf : Buf := {}
  inBuf : Buf := {}
  /-- The caller is the main coroutine. -/
  main : Bool := false
  pc : Pc := .idle
  isTimeout : Bool := false
  /-- `m_can_resume` of the caller. -/
  canResume : Bool := true
  /-- The descriptor the caller waits for is registered for the event it waits for. -/
  registered : Bool := false
  calls : Nat := 0
  attempts : Nat := 0
  timer : Timer.Clocked Ev
  /-- The events `onTimer` has taken out, whose tasks are still to run. -/
  tasks : List Ev := []
  result : Ret := .succ
  writes : List Write := []
  /-- A new socket has got another number than the one it replaces. -/
  renumbered : Bool := false
  /-- A call has returned an error with the connection Connected or something in a buffer, or a failed
  write or a decoder that went backwards has since brought back bytes from before it. -/
  soiled : Bool := false

/-- `TcpClient()`, on the socket `fd`. -/
def new (fd : Nat) (timer : Timer.Clocked Ev) : Client where
  fd := fd
  connFd := fd
  sockets := update (fun _ => .closed) fd .created
  timer := timer

namespace Client

/-! ## The timer -/

/-- An event is made and added. -/
def addTimerEvent (s : Client) (ev : Ev) (interval now : Int) : Option Client :=
  (Lts.run Timer.callerStep s.timer [(now, .create ev interval false), (now, .addTimerEvent ev)]).map fun t =>
    { s with timer := t }

def delTimerEvent (s : Client) (ev : Ev) : Client :=
  { s with timer := { s.timer with timer := s.timer.timer.delTimerEvent ev } }

/-! ## Leaving -/

def returnError (s : Client) (ret : Ret) : Client :=
  { s with
    result := ret
    pc := .idle
    outBuf := { s.outBuf with fresh := some 0 }
    inBuf := { s.inBuf with fresh := some 0 }
    soiled := s.soiled || decide (s.state = .Connected) || decide (0 < s.outBuf.readAble) ||
      decide (0 < s.inBuf.readAble) }

/-- `resetFd`, where `socket` gives the number `n`. -/
def resetFd (s : Client) (n : Nat) : Option Client :=
  let sockets := update s.sockets s.fd .closed
  if sockets n = .closed then
    some { s with
      fd := n
      sockets := update sockets n .created
      renumbered := s.renumbered || decide (n ≠ s.fd) }
  else none

/-- Behind `err_deal`, which does what `resetFd` does. -/
def errDeal (s : Client) (n : Nat) : Option Client :=
  (s.resetFd n).map fun s =>
    if s.isTimeout then { s with overTime := false }.returnError .ERROR_RPC_CALL_TIMEOUT
    else s.returnError .ERROR_PEER_CLOSED

/-! ## Connecting -/

def setUpClient (s : Client) : Client := { s with state := .Connected }

/-- Behind `output`. -/
def afterOutput (s : Client) : Client :=
  if s.overTime then { s with isTimeout := true, pc := .errDeal } else { s with pc := .reply }

/-- Behind the loop around `connect_hook`, up to the loop of `output`. -/
def afterConnect (s : Client) : Client :=
  if s.state ≠ .Connected then (s.delTimerEvent (.rpc s.calls)).returnError .ERROR_FAILED_CONNECT
  else if s.overTime then s.setUpClient.afterOutput
  else { s.setUpClient with pc := .output }

/-- The head of the loop around `connect_hook`. -/
def connectLoop (s : Client) : Client :=
  if s.isTimeout then s.afterConnect
  else if s.state ≠ .Connected then { s with pc := .connect }
  else s.afterConnect

/-- `connect_hook` returns 0. -/
def connected (s : Client) : Option Client :=
  if s.sockets s.fd = .closed then none
  else some { s with sockets := update s.sockets s.fd .connected }.setUpClient.afterConnect

end Client

/-- `errno` behind `resetFd`. -/
inductive Errno
  | ECONNREFUSED
  | EAFNOSUPPORT
  | other
  deriving DecidableEq

/-- What the first `connect` of `connect_hook` gives; when it is in progress, whether the descriptor gets
registered, and the interval of the event that is added. -/
inductive ConnectRt
  | succ
  | failed
  | inProgress (registered : Bool) (interval now : Int)

/-- What `read` or `write` gives in a hook: a result, or nothing yet and whether the descriptor gets
registered. -/
inductive IoRt
  | returned (rt : Int)
  | blocked (registered : Bool)

namespace Client

/-- The start of `sendAndRecvFlconcPb`. -/
def call (s : Client) (main : Bool) (timeout now : Int) : Option Client :=
  ({ s with main := main, calls := s.calls + 1, isTimeout := false, canResume := true }.addTimerEvent
    (.rpc (s.calls + 1)) timeout now).map connectLoop

/-- `connect_hook` up to its `Yield`. -/
def connect (s : Client) : ConnectRt → Option Client
  | .succ => s.connected
  | .failed => some { s with pc := .resetFd }
  | .inProgress registered interval now =>
    if s.main ∨ s.sockets s.fd = .closed then none
    else { s with pc := .suspended .connect, registered := registered, attempts := s.attempts + 1 }.addTimerEvent
      (.connect (s.attempts + 1)) interval now

/-- `connect_hook` behind its `Yield`. -/
def connectBack (s : Client) (succ : Bool) : Option Client :=
  let s := s.delTimerEvent (.connect s.attempts)
  if succ then s.connected else some { s with pc := .resetFd }

/-- Behind `resetFd` in the loop around `connect_hook`. -/
def afterReset (s : Client) (errno : Errno) : Client :=
  if s.isTimeout then { s with pc := .errDeal }
  else
    match errno with
    | .ECONNREFUSED => (s.delTimerEvent (.rpc s.calls)).returnError .ERROR_PEER_CLOSED
    | .EAFNOSUPPORT => (s.delTimerEvent (.rpc s.calls)).returnError .ERROR_CONNECT_SYS_ERR
    | .other => s.connectLoop

/-! ## Writing -/

/-- `write` is called. -/
def write (s : Client) : Client :=
  { s with writes := ⟨s.connFd, s.sockets s.connFd, s.fd, s.outBuf, s.inBuf⟩ :: s.writes }

/-- The rest of the round, for the result of `write_hook`. -/
def wrote (s : Client) (rt : Int) : Option Client :=
  if WriteResult s.outBuf.readAble rt then
    let s := { s with
      outBuf := s.outBuf.recycleRead rt
      soiled := s.soiled || s.outBuf.bringsBack rt }
    some (if s.outBuf.readAble ≤ 0 ∨ s.overTime then s.afterOutput else { s with pc := .output })
  else none

/-- A round of `output`, up to the `Yield` of `write_hook` if it gets there. Only the main coroutine gets
to see that nothing was written at once. -/
def output (s : Client) : IoRt → Option Client
  | .returned rt => if s.main ∨ 0 < rt then s.write.wrote rt else none
  | .blocked registered =>
    if s.main then none else some { s.write with pc := .suspended .write, registered := registered }

/-! ## Reading -/

/-- `clearClient`. -/
def clearClient (s : Client) : Client :=
  if s.state = .Closed then s else { s with sockets := update s.sockets s.connFd .closed, state := .Closed }

/-- Behind `input`. -/
def afterInput (s : Client) : Client :=
  if s.overTime then { s with isTimeout := true, pc := .errDeal }
  else if s.state = .Closed then { s with pc := .errDeal }
  else { s with pc := .execute }

/-- `getResPackageData`, and `input` up to its loop when the reply is not there. -/
def reply (s : Client) (found : Bool) : Client :=
  if found then { s.delTimerEvent (.rpc s.calls) with pc := .idle, result := .succ }
  else if s.overTime ∨ s.state = .Closed ∨ s.state = .NotConnected then s.afterInput
  else { s with pc := .input }

/-- The bytes of a read. -/
def received (s : Client) (rt : Int) : Client := if 0 < rt then { s with inBuf := s.inBuf.put rt } else s

/-- The close branch of `input`. In the main coroutine `Yield` does nothing. -/
def closeBranch (s : Client) : Client :=
  if s.main then { s.clearClient with canResume := false }.afterInput
  else { s.clearClient with canResume := false, pc := .parked }

/-- The rest of the round, for the result of `read_hook`; `full` says that it is all that was asked for. -/
def readBack (s : Client) (rt : Int) (full : Bool) : Client :=
  if s.overTime then (s.received rt).afterInput
  else if rt ≤ 0 then s.closeBranch
  else if full then { s.received rt with pc := .input }
  else (s.received rt).afterInput

/-- A round of `input`, up to the `Yield` of `read_hook` if it gets there. -/
def input (s : Client) (full : Bool) : IoRt → Option Client
  | .returned rt => if s.main ∨ 0 < rt then some (s.readBack rt full) else none
  | .blocked registered =>
    if s.main then none else some { s with pc := .suspended .read, registered := registered }

/-- A round of `execute`, where `decode` moves the read index by `n`, backwards if the length it has read
from the packet is negative; `succ` is `decode_succ`. -/
def execute (s : Client) (n : Int) (succ : Bool) : Option Client :=
  if s.inBuf.readAble ≤ 0 then some { s with pc := .reply }
  else if n ≤ s.inBuf.readAble then
    some { s with
      inBuf := s.inBuf.recycleRead n
      soiled := s.soiled || s.inBuf.bringsBack n
      pc := if succ then .execute else .reply }
  else none

/-! ## The loop of the reactor -/

/-- `Resume` of the caller. -/
def resume (s : Client) : Client :=
  if s.canResume then
    match s.pc with
    | .suspended hook => { s with pc := .woken hook, registered := false }
    | .parked => s.afterInput
    | _ => s
  else s

/-- The task of a call's event: of the running call, or of one that has returned. The latter writes to
a stack slot that is gone; `hits` says that the running call has it now, in the same coroutine. -/
def timeout (s : Client) (call : Nat) (hits : Bool) : Client :=
  if (call = s.calls ∨ hits) ∧ s.pc ≠ .idle then { s with overTime := true, isTimeout := true }.resume
  else { s with overTime := true }

/-- The next task that `onTimer` runs. -/
def runTask (s : Client) (hits : Bool) : Option Client :=
  match s.tasks with
  | [] => none
  | .rpc call :: tasks => some ({ s with tasks := tasks }.timeout call hits)
  | _ :: tasks => some { s with tasks := tasks }

def onTimer (s : Client) (now : Int) : Option Client :=
  if s.tasks = [] then
    (Timer.callerStep s.timer (now, .onTimer)).map fun t =>
      { s with timer := t, tasks := (s.timer.timer.onTimer now).2 }
  else none

end Client

/-! ## Steps -/

/-- A call of the timer about an event of others. -/
def foreign : Timer.Act Ev → Bool
  | .create (.other _) _ _ | .cancle (.other _) | .addTimerEvent (.other _) | .delTimerEvent (.other _) => true
  | _ => false

inductive CallerAct
  /-- The caller puts a request of `n` bytes into the write buffer. -/
  | encode (n : Nat)
  | call (main : Bool) (timeout now : Int)
  | connect (rt : ConnectRt)
  | connectBack (succ : Bool)
  | resetFd (n : Nat) (errno : Errno)
  | output (rt : IoRt)
  | writeBack (rt : Int)
  | reply (found : Bool)
  | input (full : Bool) (rt : IoRt)
  | readBack (rt : Int) (full : Bool)
  | execute (n : Int) (succ : Bool)
  | errDeal (n : Nat)

inductive LoopAct
  /-- The caller is resumed: by its descriptor, by the event of `connect_hook`, or by mistake. -/
  | resume
  /-- The loop takes the descriptor out of epoll: for an event it does not know, or to hand it over. -/
  | drop
  /-- Others use the timer. -/
  | timer (now : Int) (a : Timer.Act Ev)
  | onTimer (now : Int)
  | runTask (hits : Bool)

inductive Act
  | caller (a : CallerAct)
  | loop (a : LoopAct)

/-- `write_hook` is called at the head of the loop of `output`. -/
def Client.Writes (s : Client) : Prop := s.state = .Connected ∧ s.outBuf.readAble ≠ 0

instance (s : Client) : Decidable s.Writes := inferInstanceAs (Decidable (_ ∧ _))

/-- What the caller does, where it is. -/
def callerStep (s : Client) : CallerAct → Option Client
  | .encode n => if s.pc = .idle then some { s with outBuf := s.outBuf.put n } else none
  | .call main timeout now => if s.pc = .idle then s.call main timeout now else none
  | .connect rt => if s.pc = .connect then s.connect rt else none
  | .connectBack succ => if s.pc = .woken .connect then s.connectBack succ else none
  | .resetFd n errno => if s.pc = .resetFd then (s.resetFd n).map (·.afterReset errno) else none
  | .output rt => if s.pc = .output then if s.Writes then s.output rt else some s.afterOutput else none
  | .writeBack rt => if s.pc = .woken .write then s.write.wrote rt else none
  | .reply found => if s.pc = .reply then some (s.reply found) else none
  | .input full rt => if s.pc = .input then s.input full rt else none
  | .readBack rt full => if s.pc = .woken .read then some (s.readBack rt full) else none
  | .execute n succ => if s.pc = .execute then s.execute n succ else none
  | .errDeal n => if s.pc = .errDeal then s.errDeal n else none

/-- What the loop does. -/
def loopStep (s : Client) : LoopAct → Option Client
  | .resume => some s.resume
  | .drop => some { s with registered := false }
  | .timer now a => if foreign a then (Timer.callerStep s.timer (now, a)).map fun t => { s with timer := t } else none
  | .onTimer now => s.onTimer now
  | .runTask hits => s.runTask hits

/-- The loop goes on while the caller is outside a call or suspended in it. -/
def step (s : Client) : Act → Option Client
  | .caller a => callerStep s a
  | .loop a => if s.pc = .idle ∨ s.pc.waits = true then loopStep s a else none

end Flconc.TcpClient
