/-
`TcpServer::MainAcceptCorFunc` of net/tcp/tcp_server.cc over `accept_hook` of
coroutine/coroutine_hook.cc and the main reactor. The accept coroutine suspends in two places: in the
hook, behind `toEpoll`, and after an accept that failed, when the hook has already taken the
registration of the listening descriptor back. `epoll_ctl` succeeds.
-/
import Flconc.Lib.Run
import Flconc.Net.FdEvent

namespace Flconc.Accept

open Function Registration

/-! ## The model -/

/-- Where the accept coroutine is. -/
inductive Pc
  /-- Before the first `accept` of `accept_hook`. -/
  | call
  /-- Suspended in `accept_hook`. -/
  | hook
  /-- Its Yield has returned, before the second `accept`. -/
  | again
  /-- Suspended in `MainAcceptCorFunc`, `toAccept` having returned -1. -/
  | failed
  deriving DecidableEq

def Pc.suspended : Pc → Bool
  | .hook | .failed => true
  | _ => false

/-- The main reactor and the accept coroutine are the only ones. -/
structure State where
  registry : Registry Unit Unit
  pc : Pc
  /-- The descriptors handed to `addClient`. -/
  clients : List Int

inductive Act
  /-- `accept` returns. -/
  | accept (n : Int)
  /-- The loop handles an event of the listening descriptor. -/
  | event (events : BitVec 32)
  /-- The coroutine is resumed, for an event or otherwise. -/
  | resume
  deriving DecidableEq

/-- The event handling of the loop: an event that is neither EPOLLIN nor EPOLLOUT takes the
descriptor out, any other one leaves it where it is and gets its coroutine resumed. -/
def handleEvent (s : State) (listenfd : Int) (events : BitVec 32) : State :=
  if ¬ HasEvent events .read ∧ ¬ HasEvent events .write then
    { s with registry := { s.registry with
        reactors := fun _ => delEventInLoopThread (s.registry.reactors ()) listenfd } }
  else s

/-- `m_is_stop_accept` is never set. -/
def step (listenfd : Nat) (s : State) : Act → Option State
  | .accept n =>
    match s.pc with
    | .call =>
      let s := { s with registry := s.registry.claim () listenfd }
      if n > 0 then some { s with clients := s.clients ++ [n] }
      else some { s with registry := s.registry.toEpoll () listenfd .read (), pc := .hook }
    | .again =>
      if n = -1 then some { s with pc := .failed }
      else some { s with pc := .call, clients := s.clients ++ [n] }
    | _ => none
  | .event events =>
    if s.pc.suspended ∧ (listenfd : Int) ∈ (s.registry.reactors ()).fds then some (handleEvent s listenfd events)
    else none
  | .resume =>
    match s.pc with
    | .hook => some { s with registry := s.registry.yieldBack () listenfd .read, pc := .again }
    | .failed => some { s with pc := .call }
    | _ => none

/-- `start` resumes the accept coroutine before the main reactor loops. -/
def start (wakeFd : Int) : State where
  registry := { reactors := fun _ => Fds.new wakeFd wakeFd, fdEvents := fun _ => {} }
  pc := .call
  clients := []

/-! ## What a step keeps -/

/-- An `accept` behind the Yield does not fail, and no event of the listening descriptor is other
than EPOLLIN and EPOLLOUT. -/
def Accepts (s : State) : Act → Prop
  | .accept n => s.pc = .again → n ≠ -1
  | .event events => HasEvent events .read ∨ HasEvent events .write
  | .resume => True

structure Inv (listenfd : Nat) (s : State) : Prop where
  /-- Only the main thread registers here. -/
  adds : (s.registry.reactors ()).pendingAddFds = []
  dels : (s.registry.reactors ()).pendingDelFds = []
  listen : (s.registry.fdEvents listenfd).listenEvents = if s.pc = .hook then IOEvent.read.mask else 0
  coroutine : (s.registry.fdEvents listenfd).coroutine = if s.pc = .hook then some () else none

theorem inv_start (listenfd : Nat) (wakeFd : Int) : Inv listenfd (start wakeFd) := ⟨rfl, rfl, rfl, rfl⟩

theorem Inv.claim {listenfd : Nat} {s : State} (hi : Inv listenfd s) (clients : List Int) :
    Inv listenfd { s with registry := s.registry.claim () listenfd, clients := clients } := by
  refine ⟨hi.adds, hi.dels, ?_, ?_⟩
  · simpa [Registry.claim, Registry.setReactor, Registry.setFdEvent] using hi.listen
  · simpa [Registry.claim, Registry.setReactor, Registry.setFdEvent] using hi.coroutine

/-- The hook's Yield returns. -/
theorem resume_inv {listenfd : Nat} {s : State} (hi : Inv listenfd s) (hpc : s.pc = .hook) :
    Inv listenfd { s with registry := s.registry.yieldBack () listenfd .read, pc := .again } := by
  have hl := hi.listen
  rw [hpc, if_pos rfl] at hl
  have hfd := Registry.yieldBack_fdEvent hl () true
  have hown : s.registry.reactorOf () listenfd = () := rfl
  have hsame := Registry.samePending_yieldBack hown .read true ()
  exact ⟨hsame.1.trans hi.adds, hsame.2.trans hi.dels, by rw [hfd]; rfl, by rw [hfd]; rfl⟩

theorem Inv.move {listenfd : Nat} {s : State} (hi : Inv listenfd s) {pc : Pc} (h : s.pc ≠ .hook) (h' : pc ≠ .hook)
    (clients : List Int) : Inv listenfd { s with pc := pc, clients := clients } := by
  refine ⟨hi.adds, hi.dels, ?_, ?_⟩
  · rw [if_neg h', hi.listen, if_neg h]
  · rw [if_neg h', hi.coroutine, if_neg h]

end Flconc.Accept
