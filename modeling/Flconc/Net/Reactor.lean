/-
`Reactor::loop` of net/base/reactor.cc: any number of sub reactors with the one queue they share, and
the coroutines that suspend in the hooks of coroutine/coroutine_hook.cc. A step is one Resume, or one
move of a loop between two Resumes, or one thing a running coroutine does to the reactors. Every
Resume is logged with the suspension it was for and the one it ended.
-/
import Mathlib.Data.List.Nodup
import Mathlib.Logic.Function.Basic

namespace Flconc.Reactor

open Function

/-! ## The model -/

/-- What `epoll_wait` reports. -/
inductive Event (Fd : Type)
  /-- EPOLLIN or EPOLLOUT. -/
  | ready (f : Fd)
  /-- Neither of the two. -/
  | unknown (f : Fd)
  | timer
  | wakeup
  deriving DecidableEq

/-- The descriptors reported ready. -/
def Event.fd? {Fd : Type} : Event Fd → Option Fd
  | .ready f => some f
  | _ => none

/-- A timer callback that resumes a coroutine. The one of `connect_hook` is made for a suspension,
the one of `sendAndRecvFlconcPb` for no particular one. -/
structure TimerTask (Cor : Type) where
  cor : Cor
  sid : Option Nat

/-- Where a loop is in its iteration. -/
inductive Phase (Cor Fd : Type)
  | top
  /-- Popping the coroutine queue. -/
  | drain
  /-- Running the pending tasks it has swapped out. -/
  | tasks (rest : List Cor)
  /-- Handling a batch, each event with the suspension it belongs to, and the callbacks `onTimer`
  has collected. -/
  | batch (rest : List (Event Fd × Option Nat)) (due : List (TimerTask Cor))

namespace Phase

variable {Cor Fd : Type}

def rest : Phase Cor Fd → List (Event Fd × Option Nat)
  | .batch rest _ => rest
  | _ => []

/-- The task that runs next. -/
def nextTask : Phase Cor Fd → Option Cor
  | .tasks rest => rest.head?
  | _ => none

/-- The timer callback that runs next. -/
def nextDue : Phase Cor Fd → Option (TimerTask Cor)
  | .batch _ due => due.head?
  | _ => none

/-- The parts of an iteration in which `first_coroutine` can be set. -/
def keepsFirst : Phase Cor Fd → Bool
  | .top | .batch _ _ => true
  | _ => false

end Phase

/-- A Resume that had an effect: whether it was held back, the suspension it was for and the one it
ended. -/
structure Wake where
  deferred : Bool
  belongs : Option Nat
  hit : Option Nat
  deriving DecidableEq

structure State (R Cor Fd : Type) where
  /-- The coroutine that runs on the reactor's thread; `none` is the main coroutine. -/
  cur : R → Option Cor
  phase : R → Phase Cor Fd
  firstCoroutine : R → Option (Cor × Option Nat)
  /-- `CoroutineTaskQueue`, one for all threads. -/
  queue : List (Fd × Option Nat)
  /-- The Resume tasks among the pending tasks. -/
  pendingTasks : R → List Cor
  /-- The pending callbacks of the reactor's timer, in the order of their arrive times. -/
  timers : R → List (TimerTask Cor)
  canResume : Cor → Bool
  fdCoroutine : Fd → Option Cor
  fdReactor : Fd → Option R
  /-- The reactor that has the descriptor among its `m_fds`. What another thread asks for counts at
  once, and an event may be reported whatever the listen mask is. -/
  registered : Fd → Option R
  /-- The suspension a coroutine is in and the descriptor it waits for. -/
  hook : Cor → Option (Nat × Fd)
  /-- The number of the next suspension. -/
  next : Nat
  log : List Wake

variable {R Cor Fd : Type}

def init : State R Cor Fd where
  cur _ := none
  phase _ := .top
  firstCoroutine _ := none
  queue := []
  pendingTasks _ := []
  timers _ := []
  canResume _ := true
  fdCoroutine _ := none
  fdReactor _ := none
  registered _ := none
  hook _ := none
  next := 0
  log := []

/-- The suspension the coroutine is in. -/
def State.suspension (s : State R Cor Fd) (c : Cor) : Option Nat := (s.hook c).map Prod.fst

/-- The suspension an event belongs to when it is reported. -/
def State.owner (s : State R Cor Fd) : Event Fd → Option Nat
  | .ready f => (s.fdCoroutine f).bind s.suspension
  | _ => none

variable [DecidableEq R] [DecidableEq Cor] [DecidableEq Fd]

def State.setPhase (s : State R Cor Fd) (r : R) (p : Phase Cor Fd) : State R Cor Fd :=
  { s with phase := update s.phase r p }

omit [DecidableEq Cor] [DecidableEq Fd] in
@[simp] theorem setPhase_phase_self (s : State R Cor Fd) (r : R) (p : Phase Cor Fd) : (s.setPhase r p).phase r = p :=
  update_self ..

omit [DecidableEq Cor] [DecidableEq Fd] in
theorem setPhase_phase_of_ne (s : State R Cor Fd) {r r' : R} (p : Phase Cor Fd) (h : r' ≠ r) :
    (s.setPhase r p).phase r' = s.phase r' := update_of_ne h ..

/-- `updateToReactor` of a descriptor: it is registered with its reactor, by default the one of the
calling thread. -/
def updateToReactor (s : State R Cor Fd) (r : R) (f : Fd) : State R Cor Fd :=
  { s with
    fdReactor := update s.fdReactor f (some ((s.fdReactor f).getD r))
    registered := update s.registered f (some ((s.fdReactor f).getD r)) }

/-- What a hook does when its Yield returns: `delListenEvents`, `clearCoroutine` and, in
`connect_hook`, `delTimerEvent` of its timeout. -/
def hookReturn (s : State R Cor Fd) (r : R) (c : Cor) (k : Nat) (f : Fd) : State R Cor Fd :=
  { updateToReactor s r f with
    fdCoroutine := update s.fdCoroutine f none
    timers := fun r => (s.timers r).filter fun t => t.sid ≠ some k
    hook := update s.hook c none }

/-- `Coroutine::Resume` from the main coroutine of `r`. -/
def resume (s : State R Cor Fd) (r : R) (c : Cor) (deferred : Bool) (belongs : Option Nat) :
    State R Cor Fd :=
  if s.canResume c then
    let s' := { s with cur := update s.cur r (some c), log := s.log ++ [⟨deferred, belongs, s.suspension c⟩] }
    match s.hook c with
    | none => s'
    | some (k, f) => hookReturn s' r c k f
  else s

def delEventInLoopThread (s : State R Cor Fd) (r : R) (f : Fd) : State R Cor Fd :=
  if s.registered f = some r then { s with registered := update s.registered f none } else s

/-- The loop holds a coroutine back for its next iteration. -/
def remember (s : State R Cor Fd) (r : R) (c : Cor) (t : Option Nat) : State R Cor Fd :=
  { s with firstCoroutine := update s.firstCoroutine r (some (c, t)) }

/-- `setReactor(NULL)`, and the descriptor joins the queue. -/
def push (s : State R Cor Fd) (f : Fd) (t : Option Nat) : State R Cor Fd :=
  { s with fdReactor := update s.fdReactor f none, queue := s.queue ++ [(f, t)] }

/-- One event of a batch; of the pending callbacks, `onTimer` finds the first `n` due. -/
def handleEvent (s : State R Cor Fd) (r : R) (rest : List (Event Fd × Option Nat)) (n : Nat) :
    Event Fd × Option Nat → State R Cor Fd
  | (.wakeup, _) => s.setPhase r (.batch rest [])
  | (.unknown f, _) => delEventInLoopThread (s.setPhase r (.batch rest [])) r f
  | (.timer, _) =>
    { s.setPhase r (.batch rest ((s.timers r).take n)) with
      timers := update s.timers r ((s.timers r).drop n) }
  | (.ready f, t) =>
    let s := s.setPhase r (.batch rest [])
    match s.fdCoroutine f with
    -- the callbacks of a descriptor without coroutine resume nobody
    | none => s
    | some c =>
      match s.firstCoroutine r with
      | none => remember s r c t
      | some _ => push (delEventInLoopThread s r f) f t

/-- `epoll_wait` returns. -/
def epollWait (s : State R Cor Fd) (r : R) (evs : List (Event Fd)) : State R Cor Fd :=
  s.setPhase r (.batch (evs.map fun e => (e, s.owner e)) [])

/-- A coroutine suspends in `read_hook`, `write_hook` or, with the place of its timeout among the
pending callbacks, `connect_hook`. -/
def suspend (s : State R Cor Fd) (r : R) (c : Cor) (f : Fd) (timeout : Option Nat) : State R Cor Fd :=
  { updateToReactor s r f with
    cur := update s.cur r none
    fdCoroutine := update s.fdCoroutine f (some c)
    timers := match timeout with
      | none => s.timers
      | some i => update s.timers r ((s.timers r).insertIdx i ⟨c, some s.next⟩)
    hook := update s.hook c (some (s.next, f))
    next := s.next + 1 }

def maxEvents : Nat := 10

inductive Act (R Cor Fd : Type)
  /-- The head of an iteration. -/
  | resumeFirst (r : R)
  | pop (r : R)
  | runTask (r : R)
  /-- `epoll_wait` returns; a timeout or an error is the empty batch. -/
  | wait (r : R) (evs : List (Event Fd))
  /-- The next event of the batch, or its end. -/
  | event (r : R) (n : Nat)
  /-- `onTimer` runs the next callback it has collected. -/
  | timerTask (r : R)
  /-- The coroutine that runs on `r` suspends in a hook. -/
  | suspend (r : R) (f : Fd) (timeout : Option Nat)
  /-- It yields elsewhere, after `setCanResume`. -/
  | leave (r : R) (resumable : Bool)
  /-- It adds or deletes a callback of `sendAndRecvFlconcPb` on the timer of `r'`. -/
  | addTimerEvent (r r' : R) (i : Nat)
  | delTimerEvent (r r' : R) (i : Nat)
  | unregisterFromReactor (r : R) (f : Fd)
  /-- Any thread posts a Resume task. -/
  | addCoroutine (r : R) (c : Cor)
  /-- A coroutine of the pool gets a new function. -/
  | setCallBack (c : Cor)

def step (s : State R Cor Fd) : Act R Cor Fd → Option (State R Cor Fd)
  | .resumeFirst r =>
    match s.cur r, s.phase r with
    | none, .top =>
      match s.firstCoroutine r with
      | none => some (s.setPhase r .drain)
      | some (c, t) =>
        some (resume { s.setPhase r .drain with
          firstCoroutine := update s.firstCoroutine r none } r c true t)
    | _, _ => none
  | .pop r =>
    match s.cur r, s.phase r with
    | none, .drain =>
      match s.queue with
      | [] => some { s.setPhase r (.tasks (s.pendingTasks r)) with
          pendingTasks := update s.pendingTasks r [] }
      | (f, t) :: queue =>
        let s := { s with queue := queue, fdReactor := update s.fdReactor f (some r) }
        match s.fdCoroutine f with
        | none => some s
        | some c => some (resume s r c true t)
    | _, _ => none
  | .runTask r =>
    match s.cur r, s.phase r with
    | none, .tasks (c :: rest) =>
      some (resume (s.setPhase r (.tasks rest)) r c false (s.suspension c))
    | _, _ => none
  | .wait r evs =>
    match s.cur r, s.phase r with
    | none, .tasks [] =>
      if evs.length ≤ maxEvents ∧ (evs.filterMap Event.fd?).Nodup ∧
          ∀ f ∈ evs.filterMap Event.fd?, s.registered f = some r then
        some (epollWait s r evs)
      else none
    | _, _ => none
  | .event r n =>
    match s.cur r, s.phase r with
    | none, .batch [] [] => some (s.setPhase r .top)
    | none, .batch (e :: rest) [] => some (handleEvent s r rest n e)
    | _, _ => none
  | .timerTask r =>
    match s.cur r, s.phase r with
    | none, .batch rest (t :: due) =>
      some (resume (s.setPhase r (.batch rest due)) r t.cor false
        (if t.sid = none then s.suspension t.cor else t.sid))
    | _, _ => none
  | .suspend r f timeout => (s.cur r).map fun c => suspend s r c f timeout
  | .leave r b =>
    (s.cur r).map fun c => { s with cur := update s.cur r none, canResume := update s.canResume c b }
  | .addTimerEvent r r' i =>
    (s.cur r).map fun c => { s with timers := update s.timers r' ((s.timers r').insertIdx i ⟨c, none⟩) }
  | .delTimerEvent r r' i =>
    (s.cur r).map fun _ => { s with timers := update s.timers r' ((s.timers r').eraseIdx i) }
  | .unregisterFromReactor r f =>
    (s.cur r).map fun _ => { updateToReactor s r f with registered := update s.registered f none }
  | .addCoroutine r c => some { s with pendingTasks := update s.pendingTasks r (s.pendingTasks r ++ [c]) }
  | .setCallBack c => some { s with canResume := update s.canResume c true }

end Flconc.Reactor
