/-
`FdEvent` of net/base/fd_event.cc and the part of the hooks of coroutine/coroutine_hook.cc that
registers a descriptor and takes the registration back. A thread is named by its reactor: what it
asks another reactor for waits in that reactor's pending lists.
-/
import Flconc.Net.Registration

namespace Flconc

open Function Registration

/-- `IOEvent`, as far as a coroutine waits for it. -/
inductive IOEvent
  | read
  | write
  deriving DecidableEq

def IOEvent.mask : IOEvent → BitVec 32
  | .read => READ
  | .write => WRITE

/-- `events & event`. -/
def HasEvent (events : BitVec 32) (event : IOEvent) : Prop := events &&& event.mask ≠ 0

instance (events : BitVec 32) (event : IOEvent) : Decidable (HasEvent events event) :=
  inferInstanceAs (Decidable (_ ≠ _))

structure FdEvent (R Cor : Type) where
  listenEvents : BitVec 32 := 0
  reactor : Option R := none
  coroutine : Option Cor := none

/-- The reactors with what they have registered, and the `FdEvent` of every descriptor. The `data`
of an event refers to the `FdEvent` by its descriptor. -/
structure Registry (R Cor : Type) where
  reactors : R → Fds Int
  fdEvents : Int → FdEvent R Cor

namespace Registry

variable {R Cor : Type} [DecidableEq R]

def setFdEvent (s : Registry R Cor) (fd : Int) (ev : FdEvent R Cor) : Registry R Cor :=
  { s with fdEvents := update s.fdEvents fd ev }

def setReactor (s : Registry R Cor) (fd : Int) (r : Option R) : Registry R Cor :=
  s.setFdEvent fd { s.fdEvents fd with reactor := r }

def setCoroutine (s : Registry R Cor) (fd : Int) (c : Option Cor) : Registry R Cor :=
  s.setFdEvent fd { s.fdEvents fd with coroutine := c }

def clearCoroutine (s : Registry R Cor) (fd : Int) : Registry R Cor := s.setCoroutine fd none

/-- The reactor of a descriptor, by default the one of the calling thread `t`. -/
def reactorOf (s : Registry R Cor) (t : R) (fd : Int) : R := (s.fdEvents fd).reactor.getD t

/-- What `updateToReactor` and `unregisterFromReactor` do when the descriptor has no reactor yet. -/
def claim (s : Registry R Cor) (t : R) (fd : Int) : Registry R Cor := s.setReactor fd (some (s.reactorOf t fd))

/-- `ok` is for the `epoll_ctl` of the reactor's own thread. -/
def updateToReactor (s : Registry R Cor) (t : R) (fd : Int) (ok : Bool := true) : Registry R Cor :=
  let r := s.reactorOf t fd
  { s.claim t fd with
    reactors := update s.reactors r (addEvent (s.reactors r) (r = t) fd ⟨(s.fdEvents fd).listenEvents, fd⟩ ok) }

def addListenEvents (s : Registry R Cor) (t : R) (fd : Int) (event : IOEvent) (ok : Bool := true) : Registry R Cor :=
  -- the reactor is not asked again for what it has been asked for
  if HasEvent (s.fdEvents fd).listenEvents event then s
  else (s.setFdEvent fd { s.fdEvents fd with
    listenEvents := (s.fdEvents fd).listenEvents ||| event.mask }).updateToReactor t fd ok

def delListenEvents (s : Registry R Cor) (t : R) (fd : Int) (event : IOEvent) (ok : Bool := true) : Registry R Cor :=
  if HasEvent (s.fdEvents fd).listenEvents event then
    (s.setFdEvent fd { s.fdEvents fd with
      listenEvents := (s.fdEvents fd).listenEvents &&& ~~~event.mask }).updateToReactor t fd ok
  else s

def unregisterFromReactor (s : Registry R Cor) (t : R) (fd : Int) : Registry R Cor :=
  let r := s.reactorOf t fd
  { (s.claim t fd).setFdEvent fd { (s.claim t fd).fdEvents fd with listenEvents := 0 } with
    reactors := update s.reactors r (delEvent (s.reactors r) (r = t) fd) }

/-- `toEpoll`, from the coroutine `c`. -/
def toEpoll (s : Registry R Cor) (t : R) (fd : Int) (event : IOEvent) (c : Cor) (ok : Bool := true) :
    Registry R Cor :=
  (s.setCoroutine fd (some c)).addListenEvents t fd event ok

/-- What a hook does when its Yield returns. -/
def yieldBack (s : Registry R Cor) (t : R) (fd : Int) (event : IOEvent) (ok : Bool := true) : Registry R Cor :=
  (s.delListenEvents t fd event ok).clearCoroutine fd

/-- The mask a reactor has the descriptor registered with, once it has looked at its pending lists and
nothing there has been refused. -/
def listens (s : Registry R Cor) (r : R) (fd : Int) : Option (BitVec 32) :=
  ((drain (s.reactors r)).epoll fd).map EpollEvent.events

/-- Some reactor listens for the event. -/
def Registered (s : Registry R Cor) (fd : Int) (event : IOEvent) : Prop :=
  ∃ r m, s.listens r fd = some m ∧ HasEvent m event

/-- Some reactor listens for the event even if this one is refused the add it has pending. -/
def RegisteredBeside (s : Registry R Cor) (r : R) (fd : Int) (event : IOEvent) : Prop :=
  (∃ r' m, r' ≠ r ∧ s.listens r' fd = some m ∧ HasEvent m event) ∨
    ∃ ev, (s.reactors r).epoll fd = some ev ∧ HasEvent ev.events event

/-- Nothing that is pending for the descriptor at a reactor stands against the event. -/
def Unopposed (s : Registry R Cor) (r : R) (fd : Int) (event : IOEvent) : Prop :=
  fd ∉ (s.reactors r).pendingDelFds ∧
    ∀ ev, (s.reactors r).pendingAddFds.lookup fd = some ev → HasEvent ev.events event

omit [DecidableEq R] in
@[simp] theorem setReactor_coroutine (s : Registry R Cor) (fd : Int) (r : Option R) (g : Int) :
    ((s.setReactor fd r).fdEvents g).coroutine = (s.fdEvents g).coroutine := by
  show (update s.fdEvents fd _ g).coroutine = _
  by_cases hg : g = fd
  · rw [hg, update_self]
  · rw [update_of_ne hg]

omit [DecidableEq R] in
@[simp] theorem setReactor_listenEvents (s : Registry R Cor) (fd : Int) (r : Option R) (g : Int) :
    ((s.setReactor fd r).fdEvents g).listenEvents = (s.fdEvents g).listenEvents := by
  show (update s.fdEvents fd _ g).listenEvents = _
  by_cases hg : g = fd
  · rw [hg, update_self]
  · rw [update_of_ne hg]

/-! ## Other descriptors -/

/-- Nothing changes but what concerns `fd`. -/
structure Elsewhere (fd : Int) (s s' : Registry R Cor) : Prop where
  fdEvents : ∀ g, g ≠ fd → s'.fdEvents g = s.fdEvents g
  listens : ∀ r g, g ≠ fd → s'.listens r g = s.listens r g

omit [DecidableEq R] in
theorem Elsewhere.refl (fd : Int) (s : Registry R Cor) : Elsewhere fd s s :=
  ⟨fun _ _ => rfl, fun _ _ _ => rfl⟩

omit [DecidableEq R] in
theorem Elsewhere.trans {fd : Int} {s₁ s₂ s₃ : Registry R Cor} (h₁ : Elsewhere fd s₁ s₂)
    (h₂ : Elsewhere fd s₂ s₃) : Elsewhere fd s₁ s₃ :=
  ⟨fun g hg => (h₂.fdEvents g hg).trans (h₁.fdEvents g hg),
    fun r g hg => (h₂.listens r g hg).trans (h₁.listens r g hg)⟩

omit [DecidableEq R] in
theorem Elsewhere.registered {fd g : Int} {s s' : Registry R Cor} (h : Elsewhere fd s s') (hg : g ≠ fd)
    (event : IOEvent) : s'.Registered g event ↔ s.Registered g event := by
  unfold Registered
  simp only [h.listens _ g hg]

omit [DecidableEq R] in
theorem elsewhere_setFdEvent (s : Registry R Cor) (fd : Int) (ev : FdEvent R Cor) :
    Elsewhere fd s (s.setFdEvent fd ev) :=
  ⟨fun _ hg => update_of_ne hg .., fun _ _ _ => rfl⟩

/-- On the descriptor's own thread an `epoll_ctl` is refused, or the reactor has been asked. -/
theorem refused_or (t r : R) (ok : Bool) :
    (decide (r = t) = true ∧ ok = false) ∨ (decide (r = t) = true → ok = true) := by
  cases ok with
  | true => exact .inr fun _ => rfl
  | false =>
    by_cases h : r = t
    · exact .inl ⟨decide_eq_true h, rfl⟩
    · exact .inr fun h' => absurd (of_decide_eq_true h') h

theorem elsewhere_updateToReactor (s : Registry R Cor) (t : R) {fd : Int} (hfd : fd ≠ -1) (ok : Bool) :
    Elsewhere fd s (s.updateToReactor t fd ok) := by
  refine ⟨fun g hg => update_of_ne hg .., fun r g hg => ?_⟩
  unfold listens updateToReactor
  dsimp only
  by_cases hr : r = s.reactorOf t fd
  · subst hr
    rw [update_self]
    rcases refused_or t (s.reactorOf t fd) ok with ⟨ht, rfl⟩ | hok
    · rw [ht, addEvent_refused]
    · rw [drain_addEvent _ hok hfd, if_neg hg]
  · rw [update_of_ne hr]

theorem elsewhere_addListenEvents (s : Registry R Cor) (t : R) {fd : Int} (hfd : fd ≠ -1) (event : IOEvent)
    (ok : Bool) : Elsewhere fd s (s.addListenEvents t fd event ok) := by
  unfold addListenEvents
  split
  · exact .refl fd s
  · exact (elsewhere_setFdEvent ..).trans (elsewhere_updateToReactor _ t hfd ok)

theorem elsewhere_delListenEvents (s : Registry R Cor) (t : R) {fd : Int} (hfd : fd ≠ -1) (event : IOEvent)
    (ok : Bool) : Elsewhere fd s (s.delListenEvents t fd event ok) := by
  unfold delListenEvents
  split
  · exact (elsewhere_setFdEvent ..).trans (elsewhere_updateToReactor _ t hfd ok)
  · exact .refl fd s

theorem elsewhere_toEpoll (s : Registry R Cor) (t : R) {fd : Int} (hfd : fd ≠ -1) (event : IOEvent) (c : Cor)
    (ok : Bool) : Elsewhere fd s (s.toEpoll t fd event c ok) :=
  (elsewhere_setFdEvent ..).trans (elsewhere_addListenEvents _ t hfd event ok)

theorem elsewhere_yieldBack (s : Registry R Cor) (t : R) {fd : Int} (hfd : fd ≠ -1) (event : IOEvent) (ok : Bool) :
    Elsewhere fd s (s.yieldBack t fd event ok) :=
  (elsewhere_delListenEvents s t hfd event ok).trans (elsewhere_setFdEvent ..)

theorem elsewhere_unregisterFromReactor (s : Registry R Cor) (t : R) (fd : Int) :
    Elsewhere fd s (s.unregisterFromReactor t fd) := by
  refine ⟨fun g hg => ?_, fun r g hg => ?_⟩
  · show update (update s.fdEvents fd _) fd _ g = _
    rw [update_of_ne hg, update_of_ne hg]
  · unfold listens unregisterFromReactor
    dsimp only
    by_cases hr : r = s.reactorOf t fd
    · subst hr
      rw [update_self, drain_delEvent_of_ne _ _ hg]
    · rw [update_of_ne hr]

/-! ## On the reactor's own thread -/

/-- Nothing is asked of another thread. -/
def SamePending (s s' : Registry R Cor) : Prop :=
  ∀ r, (s'.reactors r).pendingAddFds = (s.reactors r).pendingAddFds ∧
    (s'.reactors r).pendingDelFds = (s.reactors r).pendingDelFds

theorem samePending_updateToReactor {s : Registry R Cor} {t : R} {fd : Int} (h : s.reactorOf t fd = t) (ok : Bool) :
    SamePending s (s.updateToReactor t fd ok) := by
  intro r
  unfold updateToReactor
  dsimp only
  rw [h]
  by_cases hr : r = t
  · subst hr
    rw [update_self, decide_eq_true rfl]
    unfold addEvent addEventInLoopThread
    cases ok <;> split <;> exact ⟨rfl, rfl⟩
  · rw [update_of_ne hr]
    exact ⟨rfl, rfl⟩

theorem samePending_yieldBack {s : Registry R Cor} {t : R} {fd : Int} (h : s.reactorOf t fd = t)
    (event : IOEvent) (ok : Bool) : SamePending s (s.yieldBack t fd event ok) := by
  unfold yieldBack delListenEvents
  split
  · exact samePending_updateToReactor (by simpa [reactorOf, setFdEvent] using h) ok
  · exact fun r => ⟨rfl, rfl⟩

/-! ## The descriptor itself -/

theorem has_mask (event : IOEvent) : HasEvent event.mask event := by cases event <;> decide

theorem not_has_zero (event : IOEvent) : ¬ HasEvent 0 event := by cases event <;> decide

section

variable {s : Registry R Cor} {fd : Int}

/-- Waiting on a descriptor that listens for nothing, whatever `epoll_ctl` says. -/
theorem toEpoll_fdEvent (h0 : (s.fdEvents fd).listenEvents = 0) (t : R) (event : IOEvent) (c : Cor) (ok : Bool) :
    (s.toEpoll t fd event c ok).fdEvents fd = ⟨event.mask, some (s.reactorOf t fd), some c⟩ := by
  have hl : ((s.setCoroutine fd (some c)).fdEvents fd).listenEvents = 0 := by
    simpa [setCoroutine, setFdEvent] using h0
  unfold toEpoll addListenEvents
  rw [hl, if_neg (not_has_zero event)]
  simp [updateToReactor, claim, setReactor, setCoroutine, setFdEvent, reactorOf]

end

/-- After the wait the descriptor listens for nothing. -/
theorem yieldBack_fdEvent {s : Registry R Cor} {fd : Int} {event : IOEvent}
    (h : (s.fdEvents fd).listenEvents = event.mask) (t : R) (ok : Bool) :
    (s.yieldBack t fd event ok).fdEvents fd = ⟨0, some (s.reactorOf t fd), none⟩ := by
  have h0 : event.mask &&& ~~~event.mask = 0 := by cases event <;> decide
  unfold yieldBack delListenEvents
  rw [h, if_pos (has_mask event), h0]
  simp [updateToReactor, claim, setReactor, clearCoroutine, setCoroutine, setFdEvent, reactorOf]

theorem unregisterFromReactor_fdEvent (s : Registry R Cor) (t : R) (fd : Int) :
    (s.unregisterFromReactor t fd).fdEvents fd =
      ⟨0, some (s.reactorOf t fd), (s.fdEvents fd).coroutine⟩ := by
  simp [unregisterFromReactor, claim, setReactor, setFdEvent, reactorOf]

end Registry

end Flconc
