/-
Coroutines parked in the hooks, over the loops of several SubReactors with the task queue they share:
`Reactor::loop` of net/base/reactor.cc on every thread, statement by statement where another thread may
come between. A hook's `toEpoll` and its Yield are one step, and so is what it does when the Yield
returns; what a task or a timer does comes as the coroutine it resumes.
-/
import Flconc.Lib.Run
import Flconc.Net.FdEvent

namespace Flconc.Waiting

open Function Registration

variable {R Cor : Type} [DecidableEq R] [DecidableEq Cor]

/-! ## The model -/

/-- Where the loop of a reactor is. -/
inductive Phase
  /-- In front of the resumption of `first_coroutine`. -/
  | top
  /-- Popping the task queue. -/
  | queue
  /-- Running tasks, in front of `epoll_wait`. -/
  | tasks
  /-- With the events that are still to be handled. -/
  | batch (rest : List (Int × BitVec 32))

/-- The callbacks that may run are those of tasks and of the timer. -/
def Phase.callbacks : Phase → Bool
  | .tasks | .batch _ => true
  | _ => false

structure System (R Cor : Type) where
  registry : Registry R Cor
  phase : R → Phase
  /-- The coroutine that runs on the thread, if it is not the main one. -/
  cur : R → Option Cor
  firstCoroutine : R → Option Cor
  /-- `CoroutineTaskQueue`, an `FdEvent` by its descriptor. -/
  queue : List Int
  canResume : Cor → Bool
  /-- What a coroutine waits for behind the Yield of a hook. -/
  parked : Cor → Option (Int × IOEvent)

/-- An event that is neither EPOLLIN nor EPOLLOUT. -/
def Unknown (events : BitVec 32) : Prop := ¬ HasEvent events .read ∧ ¬ HasEvent events .write

instance (events : BitVec 32) : Decidable (Unknown events) := inferInstanceAs (Decidable (_ ∧ _))

namespace System

/-- `Coroutine::Resume` on the thread of `r`. A parked coroutine goes on behind the Yield of its hook, where
`ok` is for the `epoll_ctl`. -/
def resume (s : System R Cor) (r : R) (ok : Bool) : Option Cor → System R Cor
  | none => s
  | some c =>
    if ¬ s.canResume c then s
    else
      match s.parked c with
      | none => { s with cur := update s.cur r (some c) }
      | some (fd, event) =>
        { s with
          registry := s.registry.yieldBack r fd event ok
          parked := update s.parked c none
          cur := update s.cur r (some c) }

/-- `delEventInLoopThread`, from the loop. -/
def loopDelete (s : System R Cor) (r : R) (fd : Int) : System R Cor :=
  { s with registry := { s.registry with
      reactors := update s.registry.reactors r (delEventInLoopThread (s.registry.reactors r) fd) } }

/-- One event of the batch, in a SubReactor: `data.fd` is that of the wake descriptor, or `data.ptr` refers to the
`FdEvent` of `fd`. The callbacks of an event without a coroutine become tasks. -/
def handle (s : System R Cor) (r : R) (wakeFd fd : Int) (events : BitVec 32) : System R Cor :=
  if fd = wakeFd ∧ HasEvent events .read then s
  -- "need unregister this socket", whoever waits there
  else if Unknown events then s.loopDelete r fd
  else
    match (s.registry.fdEvents fd).coroutine with
    | none => s
    | some c =>
      match s.firstCoroutine r with
      -- its registration stays until it is resumed
      | none => { s with firstCoroutine := update s.firstCoroutine r (some c) }
      -- any loop may take it over
      | some _ =>
        let s := s.loopDelete r fd
        { s with registry := s.registry.setReactor fd none, queue := s.queue ++ [fd] }

/-- The end of an iteration: the pending lists are applied. -/
def loopDrain (s : System R Cor) (r : R) (ok : Int → Bool) : System R Cor :=
  { s with registry := { s.registry with
      reactors := update s.registry.reactors r (drain (s.registry.reactors r) ok) } }

def close (s : System R Cor) (fd : Int) : System R Cor :=
  { s with registry := { s.registry with reactors := fun r => Registration.close (s.registry.reactors r) fd } }

def setPhase (s : System R Cor) (r : R) (p : Phase) : System R Cor := { s with phase := update s.phase r p }

/-- The top of an iteration: `first_coroutine` is about to be resumed. -/
def takeFirst (s : System R Cor) (r : R) : System R Cor :=
  { s with firstCoroutine := update s.firstCoroutine r none, phase := update s.phase r .queue }

/-- The queue's front comes off for `r`. -/
def popQueue (s : System R Cor) (r : R) (fd : Int) (queue : List Int) : System R Cor :=
  { s with registry := s.registry.setReactor fd (some r), queue := queue }

/-- `toEpoll` and the Yield behind it. -/
def park (s : System R Cor) (r : R) (fd : Int) (event : IOEvent) (c : Cor) (ok : Bool) : System R Cor :=
  { s with
    registry := s.registry.toEpoll r fd event c ok
    parked := update s.parked c (some (fd, event))
    cur := update s.cur r none }

end System

/-- Where the step calls `epoll_ctl` to add or change a descriptor, `ok` says that it succeeds. -/
inductive Act (R Cor : Type)
  | resumeFirst (r : R) (ok : Bool)
  | pop (r : R) (ok : Bool)
  /-- A task or the timer resumes the coroutine. -/
  | callback (r : R) (c : Cor) (ok : Bool)
  /-- `epoll_wait` returns. -/
  | wait (r : R) (events : List (Int × BitVec 32))
  | waitError (r : R)
  | event (r : R)
  | drain (r : R) (ok : Int → Bool)
  /-- The running coroutine yields in a hook. -/
  | suspend (r : R) (fd : Int) (event : IOEvent) (ok : Bool)
  /-- The running coroutine yields elsewhere, or for good. -/
  | leave (r : R) (canResume : Bool)
  | unregister (r : R) (fd : Int)
  | setReactor (fd : Int) (r : R)
  | setCallBack (c : Cor)
  /-- A descriptor is closed; its number may be used again. -/
  | close (fd : Int)

def MAX_EVENTS : Nat := 10

variable (wakeFd : R → Int)

/-- The loop goes on when its thread runs the main coroutine. -/
def step (s : System R Cor) : Act R Cor → Option (System R Cor)
  | .resumeFirst r ok =>
    match s.cur r, s.phase r with
    | none, .top => some ((s.takeFirst r).resume r ok (s.firstCoroutine r))
    | _, _ => none
  | .pop r ok =>
    match s.cur r, s.phase r with
    | none, .queue =>
      match s.queue with
      | [] => some (s.setPhase r .tasks)
      | fd :: queue => some ((s.popQueue r fd queue).resume r ok (s.registry.fdEvents fd).coroutine)
    | _, _ => none
  | .callback r c ok =>
    match s.cur r with
    | none => if (s.phase r).callbacks then some (s.resume r ok (some c)) else none
    | some _ => none
  | .wait r events =>
    match s.cur r, s.phase r with
    | none, .tasks =>
      -- the kernel reports what is in its list, once each
      if events.length ≤ MAX_EVENTS ∧ (events.map Prod.fst).Nodup ∧
          ∀ p ∈ events, ((s.registry.reactors r).epoll p.1).isSome then
        some (s.setPhase r (.batch events))
      else none
    | _, _ => none
  | .waitError r =>
    match s.cur r, s.phase r with
    | none, .tasks => some (s.setPhase r .top)
    | _, _ => none
  | .event r =>
    match s.cur r, s.phase r with
    | none, .batch ((fd, events) :: rest) => some ((s.setPhase r (.batch rest)).handle r (wakeFd r) fd events)
    | _, _ => none
  | .drain r ok =>
    match s.cur r, s.phase r with
    | none, .batch [] => some ((s.setPhase r .top).loopDrain r ok)
    | _, _ => none
  | .suspend r fd event ok =>
    match s.cur r with
    | none => none
    | some c =>
      if 0 ≤ fd ∧ s.canResume c ∧ s.parked c = none then some (s.park r fd event c ok) else none
  | .leave r canResume =>
    match s.cur r with
    | none => none
    | some c =>
      if s.parked c = none then
        some { s with cur := update s.cur r none, canResume := update s.canResume c (s.canResume c && canResume) }
      else none
  | .unregister r fd => some { s with registry := s.registry.unregisterFromReactor r fd }
  | .setReactor fd r => some { s with registry := s.registry.setReactor fd (some r) }
  | .setCallBack c => some { s with canResume := update s.canResume c true }
  | .close fd => some (s.close fd)

/-- Nothing is registered but the wake descriptors, and no coroutine has run. -/
def start : System R Cor where
  registry := { reactors := fun r => Fds.new (wakeFd r) (wakeFd r), fdEvents := fun _ => {} }
  phase := fun _ => .top
  cur := fun _ => none
  firstCoroutine := fun _ => none
  queue := []
  canResume := fun _ => true
  parked := fun _ => none

/-! ## Never forgotten -/

/-- A loop has the coroutine in `first_coroutine`, or its `FdEvent` is in the task queue. -/
def Scheduled (s : System R Cor) (c : Cor) : Prop :=
  (∃ r, s.firstCoroutine r = some c) ∨ ∃ fd ∈ s.queue, (s.registry.fdEvents fd).coroutine = some c

/-- A parked coroutine has its event registered, or is scheduled. -/
def Remembered (s : System R Cor) : Prop :=
  ∀ c fd event, s.parked c = some (fd, event) → s.registry.Registered fd event ∨ Scheduled s c

/-- A coroutine parks where its event is or will be registered, or is about to be resumed anyway. A
descriptor with an unknown event, or with a delete pending, has no coroutine that is not; and so has one
whose pending add is refused, or that is closed, if nothing else is registered for its event. -/
def Keeps (s : System R Cor) : Act R Cor → Prop
  | .suspend r fd event ok => ∀ c, s.cur r = some c →
      s.registry.Registered fd event ∨
        s.registry.Unopposed (s.registry.reactorOf r fd) fd event ∧ (s.registry.reactorOf r fd = r → ok = true) ∨
        (∃ r', s.firstCoroutine r' = some c) ∨ fd ∈ s.queue
  | .event r => ∀ fd events rest, s.phase r = .batch ((fd, events) :: rest) → Unknown events →
      fd ∈ (s.registry.reactors r).fds → ∀ c, (s.registry.fdEvents fd).coroutine = some c → Scheduled s c
  | .drain r ok =>
      (∀ fd ∈ (s.registry.reactors r).pendingDelFds,
        (fd ∈ (s.registry.reactors r).fds ∨
          fd ∈ (s.registry.reactors r).pendingAddFds.map Prod.fst ∧ ok fd = true) →
        ∀ c, (s.registry.fdEvents fd).coroutine = some c → Scheduled s c) ∧
      ∀ fd ∈ (s.registry.reactors r).pendingAddFds.map Prod.fst, ok fd = false →
        ∀ c event, s.parked c = some (fd, event) → s.registry.RegisteredBeside r fd event ∨ Scheduled s c
  | .close fd => ∀ c event, s.parked c = some (fd, event) →
      (∃ r ev, fd ∉ (s.registry.reactors r).pendingDelFds ∧
        (s.registry.reactors r).pendingAddFds.lookup fd = some ev ∧ HasEvent ev.events event) ∨ Scheduled s c
  | _ => True

/-- Nobody parks on a descriptor where a coroutine is parked, or unregisters it. -/
def Exclusive (s : System R Cor) : Act R Cor → Prop
  | .suspend _ fd _ _ | .unregister _ fd => (s.registry.fdEvents fd).coroutine = none
  | _ => True

instance (s : System R Cor) : (a : Act R Cor) → Decidable (Exclusive s a)
  | .suspend _ fd _ _ | .unregister _ fd => inferInstanceAs (Decidable ((s.registry.fdEvents fd).coroutine = none))
  | .resumeFirst .. | .pop .. | .callback .. | .wait .. | .waitError _ | .event _ | .drain .. | .leave ..
  | .setReactor .. | .setCallBack _ | .close _ => .isTrue trivial

/-- What holds then in every state: a coroutine is parked where its `FdEvent` says so, and that listens for its
event. -/
structure Inv (s : System R Cor) : Prop where
  parked : ∀ c fd event, s.parked c = some (fd, event) →
    fd ≠ -1 ∧ s.canResume c ∧ (s.registry.fdEvents fd).coroutine = some c ∧
      (s.registry.fdEvents fd).listenEvents = event.mask
  coroutine : ∀ fd c, (s.registry.fdEvents fd).coroutine = some c → ∃ event, s.parked c = some (fd, event)
  idle : ∀ fd, (s.registry.fdEvents fd).coroutine = none → (s.registry.fdEvents fd).listenEvents = 0

/-! ## Registrations under the loop -/

omit [DecidableEq Cor] in
/-- What the drain leaves registered with its reactor; with the others nothing changes. -/
theorem listens_loopDrain (s : System R Cor) (r : R) (ok : Int → Bool) (r' : R) (fd : Int) :
    (s.loopDrain r ok).registry.listens r' fd =
      if r' = r then ((drain (s.registry.reactors r) ok).epoll fd).map EpollEvent.events
      else s.registry.listens r' fd := by
  unfold Registry.listens System.loopDrain
  dsimp only
  split
  · rename_i hr
    obtain ⟨hadd, hdel⟩ := drain_pending (s.registry.reactors r) ok
    rw [hr, update_self, drain_epoll (drain _ ok), hadd, hdel]
    rfl
  · rw [update_of_ne ‹_›]

section

variable {s : System R Cor} {r : R} {fd : Int} {event : IOEvent} {ok : Int → Bool}

omit [DecidableEq Cor] in
theorem RegisteredBeside.loopDrain (h : s.registry.RegisteredBeside r fd event) (hok : ok fd = false)
    (hdel : fd ∉ (s.registry.reactors r).pendingDelFds) : (s.loopDrain r ok).registry.Registered fd event := by
  rcases h with ⟨r', m, hr, hm, hhas⟩ | ⟨ev, hev, hhas⟩
  · exact ⟨r', m, by rw [listens_loopDrain, if_neg hr]; exact hm, hhas⟩
  · refine ⟨r, ev.events, ?_, hhas⟩
    rw [listens_loopDrain, if_pos rfl, drain_epoll_of, if_neg hdel, hok, hev]
    rfl

end

/-- The coroutine is not parked, or is remembered. -/
def Kept (s : System R Cor) (c : Cor) : Prop :=
  ∀ fd event, s.parked c = some (fd, event) → s.registry.Registered fd event ∨ Scheduled s c

omit [DecidableEq R] [DecidableEq Cor] in
theorem Inv.ne {s : System R Cor} (hi : Inv s) {c d : Cor} {fd g : Int} {event : IOEvent}
    (hc : s.parked c = some (fd, event)) (hd : (s.registry.fdEvents g).coroutine = some d) (hne : d ≠ c) :
    g ≠ fd := by
  rintro rfl
  rw [(hi.parked c g event hc).2.2.1] at hd
  exact hne (Option.some.inj hd).symm

theorem resume_inv {s : System R Cor} (hi : Inv s) (r : R) (ok : Bool) (oc : Option Cor) : Inv (s.resume r ok oc) := by
  cases oc with
  | none => exact hi
  | some c =>
    unfold System.resume
    dsimp only
    split
    · exact hi
    split
    · exact ⟨hi.parked, hi.coroutine, hi.idle⟩
    · rename_i fd event hc
      obtain ⟨hfd, -, hcor, hlisten⟩ := hi.parked c fd event hc
      have helse := Registry.elsewhere_yieldBack s.registry r hfd event ok
      have hself := Registry.yieldBack_fdEvent hlisten r ok
      refine ⟨fun d g event' hd => ?_, fun g d hd => ?_, fun g hg => ?_⟩
      · have hd : update s.parked c none d = some (g, event') := hd
        have hne : d ≠ c := by
          rintro rfl
          rw [update_self] at hd
          cases hd
        rw [update_of_ne hne] at hd
        obtain ⟨hg, hres, hcor', hlisten'⟩ := hi.parked d g event' hd
        have hgfd : g ≠ fd := hi.ne hc hcor' hne
        show g ≠ -1 ∧ s.canResume d = true ∧ ((s.registry.yieldBack r fd event ok).fdEvents g).coroutine = some d ∧
          ((s.registry.yieldBack r fd event ok).fdEvents g).listenEvents = event'.mask
        rw [helse.fdEvents g hgfd]
        exact ⟨hg, hres, hcor', hlisten'⟩
      · have hd : ((s.registry.yieldBack r fd event ok).fdEvents g).coroutine = some d := hd
        have hgfd : g ≠ fd := by
          rintro rfl
          rw [hself] at hd
          cases hd
        rw [helse.fdEvents g hgfd] at hd
        obtain ⟨event', hp⟩ := hi.coroutine g d hd
        have hne : d ≠ c := by
          rintro rfl
          rw [hc] at hp
          cases hp
          exact hgfd rfl
        exact ⟨event', (update_of_ne hne ..).trans hp⟩
      · have hg : ((s.registry.yieldBack r fd event ok).fdEvents g).coroutine = none := hg
        show ((s.registry.yieldBack r fd event ok).fdEvents g).listenEvents = 0
        by_cases hgfd : g = fd
        · rw [hgfd, hself]
        · rw [helse.fdEvents g hgfd] at hg ⊢
          exact hi.idle g hg

omit [DecidableEq R] [DecidableEq Cor] in
theorem Inv.setReactor {s : System R Cor} (hi : Inv s) (fd : Int) (r : Option R) :
    Inv { s with registry := s.registry.setReactor fd r } := by
  refine ⟨fun c g event hc => ?_, fun g c hc => ?_, fun g hg => ?_⟩
  · show g ≠ -1 ∧ s.canResume c = true ∧ ((s.registry.setReactor fd r).fdEvents g).coroutine = some c ∧
      ((s.registry.setReactor fd r).fdEvents g).listenEvents = event.mask
    rw [Registry.setReactor_coroutine, Registry.setReactor_listenEvents]
    exact hi.parked c g event hc
  · exact hi.coroutine g c ((Registry.setReactor_coroutine ..).symm.trans hc)
  · exact (Registry.setReactor_listenEvents ..).trans
      (hi.idle g ((Registry.setReactor_coroutine ..).symm.trans hg))

omit [DecidableEq Cor] in
theorem Inv.setPhase {s : System R Cor} (hi : Inv s) (r : R) (p : Phase) : Inv (s.setPhase r p) :=
  ⟨hi.parked, hi.coroutine, hi.idle⟩

omit [DecidableEq Cor] in
theorem Inv.takeFirst {s : System R Cor} (hi : Inv s) (r : R) : Inv (s.takeFirst r) :=
  ⟨hi.parked, hi.coroutine, hi.idle⟩

omit [DecidableEq R] [DecidableEq Cor] in
theorem Inv.popQueue {s : System R Cor} (hi : Inv s) (r : R) (fd : Int) (queue : List Int) :
    Inv (s.popQueue r fd queue) :=
  have hi' := hi.setReactor fd (some r)
  ⟨hi'.parked, hi'.coroutine, hi'.idle⟩

/-! ## One step -/

omit [DecidableEq Cor] in
theorem handle_inv {s : System R Cor} (hi : Inv s) (r : R) (wakeFd fd : Int) (events : BitVec 32) :
    Inv (s.handle r wakeFd fd events) := by
  unfold System.handle
  split
  · exact hi
  split
  · exact ⟨hi.parked, hi.coroutine, hi.idle⟩
  split
  · exact hi
  split
  · exact ⟨hi.parked, hi.coroutine, hi.idle⟩
  · have hi : Inv (s.loopDelete r fd) := ⟨hi.parked, hi.coroutine, hi.idle⟩
    have hi := hi.setReactor fd none
    exact ⟨hi.parked, hi.coroutine, hi.idle⟩

/-- A coroutine parks in a hook. -/
theorem park_inv {s : System R Cor} (hi : Inv s) (r : R) {fd : Int} (hfd : 0 ≤ fd) (event : IOEvent) {c : Cor}
    (hres : s.canResume c = true) (hc : s.parked c = none) (hfree : (s.registry.fdEvents fd).coroutine = none)
    (ok : Bool) : Inv (s.park r fd event c ok) := by
  have hfd : fd ≠ -1 := by omega
  have helse := Registry.elsewhere_toEpoll s.registry r hfd event c ok
  have hself := Registry.toEpoll_fdEvent (hi.idle fd hfree) r event c ok
  refine ⟨fun d g event' hd => ?_, fun g d hd => ?_, fun g hg => ?_⟩
  · have hd : update s.parked c (some (fd, event)) d = some (g, event') := hd
    show g ≠ -1 ∧ s.canResume d = true ∧ ((s.registry.toEpoll r fd event c ok).fdEvents g).coroutine = some d ∧
      ((s.registry.toEpoll r fd event c ok).fdEvents g).listenEvents = event'.mask
    by_cases hdc : d = c
    · subst hdc
      rw [update_self] at hd
      cases hd
      rw [hself]
      exact ⟨hfd, hres, rfl, rfl⟩
    · rw [update_of_ne hdc] at hd
      obtain ⟨hg, hres', hcor, hlisten⟩ := hi.parked d g event' hd
      have hgfd : g ≠ fd := by
        rintro rfl
        rw [hfree] at hcor
        cases hcor
      rw [helse.fdEvents g hgfd]
      exact ⟨hg, hres', hcor, hlisten⟩
  · have hd : ((s.registry.toEpoll r fd event c ok).fdEvents g).coroutine = some d := hd
    show ∃ event', update s.parked c (some (fd, event)) d = some (g, event')
    by_cases hgfd : g = fd
    · subst hgfd
      rw [hself] at hd
      cases hd
      exact ⟨event, update_self ..⟩
    · rw [helse.fdEvents g hgfd] at hd
      obtain ⟨event', hp⟩ := hi.coroutine g d hd
      have hdc : d ≠ c := by
        rintro rfl
        rw [hc] at hp
        cases hp
      exact ⟨event', (update_of_ne hdc ..).trans hp⟩
  · have hg : ((s.registry.toEpoll r fd event c ok).fdEvents g).coroutine = none := hg
    have hgfd : g ≠ fd := by
      rintro rfl
      rw [hself] at hg
      cases hg
    show ((s.registry.toEpoll r fd event c ok).fdEvents g).listenEvents = 0
    rw [helse.fdEvents g hgfd] at hg ⊢
    exact hi.idle g hg

omit [DecidableEq Cor] in
/-- A descriptor where nobody is parked is unregistered. -/
theorem unregister_ok {s : System R Cor} (hi : Inv s) (r : R) {fd : Int}
    (hfree : (s.registry.fdEvents fd).coroutine = none) :
    Inv { s with registry := s.registry.unregisterFromReactor r fd } ∧
      (Remembered s → Remembered { s with registry := s.registry.unregisterFromReactor r fd }) := by
  have helse := Registry.elsewhere_unregisterFromReactor s.registry r fd
  have hself := Registry.unregisterFromReactor_fdEvent s.registry r fd
  have hother : ∀ c g, (s.registry.fdEvents g).coroutine = some c → g ≠ fd := by
    rintro c g hcor rfl
    rw [hfree] at hcor
    cases hcor
  have hcoroutine : ∀ g, ((s.registry.unregisterFromReactor r fd).fdEvents g).coroutine =
      (s.registry.fdEvents g).coroutine := by
    intro g
    by_cases hgfd : g = fd
    · rw [hgfd, hself]
    · rw [helse.fdEvents g hgfd]
  refine ⟨⟨fun c g event hc => ?_, fun g c hc => ?_, fun g hg => ?_⟩, fun h c g event hc => ?_⟩
  · obtain ⟨hg, hres, hcor, hlisten⟩ := hi.parked c g event hc
    refine ⟨hg, hres, (hcoroutine g).trans hcor, ?_⟩
    show ((s.registry.unregisterFromReactor r fd).fdEvents g).listenEvents = event.mask
    rw [helse.fdEvents g (hother c g hcor)]
    exact hlisten
  · exact hi.coroutine g c ((hcoroutine g).symm.trans hc)
  · show ((s.registry.unregisterFromReactor r fd).fdEvents g).listenEvents = 0
    by_cases hgfd : g = fd
    · rw [hgfd, hself]
    · rw [helse.fdEvents g hgfd]
      exact hi.idle g ((hcoroutine g).symm.trans hg)
  · rcases h c g event hc with hreg | hfirst | ⟨g', hg', hcor⟩
    · exact .inl ((helse.registered (hother c g (hi.parked c g event hc).2.2.1) event).2 hreg)
    · exact .inr (.inl hfirst)
    · exact .inr (.inr ⟨g', hg', (hcoroutine g').trans hcor⟩)

/-- What a step does, and the part of its condition that matters here. -/
inductive Does (s : System R Cor) : Act R Cor → System R Cor → Prop
  | resumeFirst (r : R) (ok : Bool) :
      Does s (.resumeFirst r ok) ((s.takeFirst r).resume r ok (s.firstCoroutine r))
  | popNone (r : R) (ok : Bool) : Does s (.pop r ok) (s.setPhase r .tasks)
  | pop (r : R) (ok : Bool) {fd : Int} {queue : List Int} (hq : s.queue = fd :: queue) :
      Does s (.pop r ok) ((s.popQueue r fd queue).resume r ok (s.registry.fdEvents fd).coroutine)
  | callback (r : R) (c : Cor) (ok : Bool) : Does s (.callback r c ok) (s.resume r ok (some c))
  | wait (r : R) (events : List (Int × BitVec 32)) : Does s (.wait r events) (s.setPhase r (.batch events))
  | waitError (r : R) : Does s (.waitError r) (s.setPhase r .top)
  | event (r : R) {fd : Int} {events : BitVec 32} {rest : List (Int × BitVec 32)}
      (hphase : s.phase r = .batch ((fd, events) :: rest)) :
      Does s (.event r) ((s.setPhase r (.batch rest)).handle r (wakeFd r) fd events)
  | drain (r : R) (ok : Int → Bool) : Does s (.drain r ok) ((s.setPhase r .top).loopDrain r ok)
  | suspend (r : R) {fd : Int} (hfd : 0 ≤ fd) (event : IOEvent) (ok : Bool) {c : Cor} (hcur : s.cur r = some c)
      (hres : s.canResume c = true) (hc : s.parked c = none) :
      Does s (.suspend r fd event ok) (s.park r fd event c ok)
  | leave (r : R) (canResume : Bool) {c : Cor} (hc : s.parked c = none) : Does s (.leave r canResume)
      { s with cur := update s.cur r none, canResume := update s.canResume c (s.canResume c && canResume) }
  | unregister (r : R) (fd : Int) :
      Does s (.unregister r fd) { s with registry := s.registry.unregisterFromReactor r fd }
  | setReactor (fd : Int) (r : R) : Does s (.setReactor fd r) { s with registry := s.registry.setReactor fd (some r) }
  | setCallBack (c : Cor) : Does s (.setCallBack c) { s with canResume := update s.canResume c true }
  | close (fd : Int) : Does s (.close fd) (s.close fd)

theorem step_does {s s' : System R Cor} {a : Act R Cor} (hs : step wakeFd s a = some s') : Does wakeFd s a s' := by
  cases a <;> simp only [step] at hs
  case resumeFirst r ok =>
    split at hs
    · cases hs
      exact .resumeFirst r ok
    · cases hs
  case pop r ok =>
    split at hs
    · split at hs
      · cases hs
        exact .popNone r ok
      · cases hs
        exact .pop r ok ‹_›
    · cases hs
  case callback r c ok =>
    split at hs
    · obtain ⟨-, hs⟩ := Option.ite_none_right_eq_some.1 hs
      cases hs
      exact .callback r c ok
    · cases hs
  case wait r events =>
    split at hs
    · obtain ⟨-, hs⟩ := Option.ite_none_right_eq_some.1 hs
      cases hs
      exact .wait r events
    · cases hs
  case waitError r =>
    split at hs
    · cases hs
      exact .waitError r
    · cases hs
  case event r =>
    split at hs
    · cases hs
      exact .event r ‹_›
    · cases hs
  case drain r ok =>
    split at hs
    · cases hs
      exact .drain r ok
    · cases hs
  case suspend r fd event ok =>
    split at hs
    · cases hs
    · obtain ⟨⟨hfd, hres, hc⟩, hs⟩ := Option.ite_none_right_eq_some.1 hs
      cases hs
      exact .suspend r hfd event ok ‹_› hres hc
  case leave r canResume =>
    split at hs
    · cases hs
    · obtain ⟨hc, hs⟩ := Option.ite_none_right_eq_some.1 hs
      cases hs
      exact .leave r canResume hc
  case unregister r fd =>
    cases hs
    exact .unregister r fd
  case setReactor fd r =>
    cases hs
    exact .setReactor fd r
  case setCallBack c =>
    cases hs
    exact .setCallBack c
  case close fd =>
    cases hs
    exact .close fd

omit [DecidableEq R] in
/-- What may be resumed changes for coroutines that are not parked, or for the better. -/
theorem Inv.setCanResume {s : System R Cor} (hi : Inv s) (cur : R → Option Cor) {c : Cor} {b : Bool}
    (h : s.parked c = none ∨ b = true) : Inv { s with cur := cur, canResume := update s.canResume c b } := by
  refine ⟨fun d fd event hd => ?_, hi.coroutine, hi.idle⟩
  obtain ⟨hfd, hres, hrest⟩ := hi.parked d fd event hd
  refine ⟨hfd, ?_, hrest⟩
  show update s.canResume c b d = true
  by_cases hdc : d = c
  · subst hdc
    rw [update_self]
    refine h.resolve_left fun hnone => ?_
    rw [show s.parked d = some (fd, event) from hd] at hnone
    cases hnone
  · rwa [update_of_ne hdc]

theorem step_inv (s : System R Cor) (a : Act R Cor) (s' : System R Cor) (hi : Inv s) (he : Exclusive s a)
    (hs : step wakeFd s a = some s') : Inv s' := by
  cases step_does wakeFd hs with
  | resumeFirst r ok => exact resume_inv (hi.takeFirst r) r ok _
  | popNone r ok => exact hi.setPhase r _
  | pop r ok hq => exact resume_inv (hi.popQueue ..) r ok _
  | callback r c ok => exact resume_inv hi r ok _
  | wait r events => exact hi.setPhase r _
  | waitError r => exact hi.setPhase r _
  | event r hphase => exact handle_inv (hi.setPhase r _) r _ _ _
  | drain r ok => exact ⟨hi.parked, hi.coroutine, hi.idle⟩
  | suspend r hfd event ok hcur hres hc => exact park_inv hi r hfd event hres hc he ok
  | leave r canResume hc => exact hi.setCanResume _ (.inl hc)
  | unregister r fd => exact (unregister_ok hi r he).1
  | setReactor fd r => exact hi.setReactor fd (some r)
  | setCallBack c => exact hi.setCanResume _ (.inr rfl)
  | close fd => exact ⟨hi.parked, hi.coroutine, hi.idle⟩

omit [DecidableEq R] [DecidableEq Cor] in
theorem start_inv : Inv (start wakeFd : System R Cor) := ⟨nofun, nofun, fun _ _ => rfl⟩

/-- A file, which `epoll_ctl` does not take: the coroutine that reads it parks with nothing registered. -/
example : ¬ Lts.Always (step fun _ : Unit => 4) Remembered (start fun _ => 4)
    [.resumeFirst () true, .pop () true, .callback () () true, .suspend () 5 .read false] := by
  intro h
  obtain ⟨s, hs⟩ : ∃ s, Lts.run (step fun _ : Unit => 4) (start fun _ => 4)
      [.resumeFirst () true, .pop () true, .callback () () true, .suspend () 5 .read false] = some s := ⟨_, rfl⟩
  have hr := h.last hs
  cases hs
  rcases hr () 5 .read rfl with ⟨r, m, hm, -⟩ | ⟨r, hfirst⟩ | ⟨fd, hq, -⟩
  · cases hm
  · cases hfirst
  · cases hq

end Flconc.Waiting
