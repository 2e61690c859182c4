/-
How the thread of an `AsyncLogger` waits, in comm/log.cc: the lock, the condition and the flag of `excute`, against
`push` and `stop`, statement by statement and in any order.

`push` fills the queue under the lock, so no batch waits for a thread that sleeps. `stop` sets the flag without the
lock: when its signal comes between the thread's look at the flag and its sleep, the thread sleeps for good, and
whoever joins it waits for good as well. That is the only way.

A thread that is not told to stop writes whatever is queued. One that is told to ends behind its next batch, with
more in the queue perhaps, or by taking the front of an empty queue.
-/
import Flconc.Comm.Log
import Flconc.Lib.Monitor

namespace Flconc.LogWait

universe u

/-! ## The model -/

/-- Where `excute` is. -/
inductive Thread (β : Type u)
  /-- At the lock. -/
  | acquire
  /-- With the lock, at the condition of the wait. -/
  | check
  /-- With the lock, behind the condition, before `pthread_cond_wait`. -/
  | sleep
  | waiting
  /-- In `pthread_cond_wait`, to take the lock again. -/
  | woken
  /-- The batch is off the queue, and the lock released. -/
  | write (tmp : β) (isStop : Bool)
  | exited
  /-- It took the front of an empty queue. -/
  | faulted

/-- The queue, the flag, and the signals of `push` and `stop` that have yet to come. -/
structure AsyncLogger (β : Type u) where
  tasks : List β := []
  stop : Bool := false
  thread : Thread β := .acquire
  signals : Nat := 0

inductive Act (β : Type u)
  | lock
  | check
  | sleep
  /-- The thread gets up by itself. -/
  | wake
  | write
  /-- `push`, up to the signal. -/
  | push (buffer : β)
  /-- `stop`, up to the signal. -/
  | stop
  | signal

variable {β : Type u}

/-- `excute` has the lock. -/
def Thread.holds : Thread β → Bool
  | .check => true
  | .sleep => true
  | _ => false

namespace AsyncLogger

def lock (s : AsyncLogger β) : Option (AsyncLogger β) :=
  match s.thread with
  | .acquire => some { s with thread := .check }
  | .woken => some { s with thread := .check }
  | _ => none

def check (s : AsyncLogger β) : Option (AsyncLogger β) :=
  match s.thread, s.tasks with
  | .check, [] => some { s with thread := if s.stop then .faulted else .sleep }
  | .check, tmp :: tasks => some { s with tasks := tasks, thread := .write tmp s.stop }
  | _, _ => none

def sleep (s : AsyncLogger β) : Option (AsyncLogger β) :=
  match s.thread with
  | .sleep => some { s with thread := .waiting }
  | _ => none

def wake (s : AsyncLogger β) : Option (AsyncLogger β) :=
  match s.thread with
  | .waiting => some { s with thread := .woken }
  | _ => none

def write (s : AsyncLogger β) : Option (AsyncLogger β) :=
  match s.thread with
  | .write _ isStop => some { s with thread := if isStop then .exited else .acquire }
  | _ => none

def push (s : AsyncLogger β) (buffer : β) : Option (AsyncLogger β) :=
  if s.thread.holds then none else some { s with tasks := s.tasks ++ [buffer], signals := s.signals + 1 }

/-- Without the lock. -/
def setStop (s : AsyncLogger β) : AsyncLogger β :=
  if s.stop then s else { s with stop := true, signals := s.signals + 1 }

def signal (s : AsyncLogger β) : Option (AsyncLogger β) :=
  if s.signals = 0 then none
  else match s.thread with
    | .waiting => some { s with thread := .woken, signals := s.signals - 1 }
    | _ => some { s with signals := s.signals - 1 }

end AsyncLogger

def step (s : AsyncLogger β) : Act β → Option (AsyncLogger β)
  | .lock => s.lock
  | .check => s.check
  | .sleep => s.sleep
  | .wake => s.wake
  | .write => s.write
  | .push buffer => s.push buffer
  | .stop => some s.setStop
  | .signal => s.signal

/-! ## What a step does -/

inductive StepCases (s : AsyncLogger β) : Act β → AsyncLogger β → Prop
  | lock : s.thread = .acquire ∨ s.thread = .woken → StepCases s .lock { s with thread := .check }
  | fault : s.thread = .check → s.tasks = [] → s.stop = true → StepCases s .check { s with thread := .faulted }
  | idle : s.thread = .check → s.tasks = [] → s.stop = false → StepCases s .check { s with thread := .sleep }
  | take (tmp : β) (tasks : List β) : s.thread = .check → s.tasks = tmp :: tasks →
    StepCases s .check { s with tasks := tasks, thread := .write tmp s.stop }
  | sleep : s.thread = .sleep → StepCases s .sleep { s with thread := .waiting }
  | wake : s.thread = .waiting → StepCases s .wake { s with thread := .woken }
  | exit (tmp : β) : s.thread = .write tmp true → StepCases s .write { s with thread := .exited }
  | next (tmp : β) : s.thread = .write tmp false → StepCases s .write { s with thread := .acquire }
  | push (buffer : β) : s.thread.holds = false →
    StepCases s (.push buffer) { s with tasks := s.tasks ++ [buffer], signals := s.signals + 1 }
  | stop : s.stop = false → StepCases s .stop { s with stop := true, signals := s.signals + 1 }
  | stopped : s.stop = true → StepCases s .stop s
  | signal : s.thread = .waiting → 0 < s.signals →
    StepCases s .signal { s with thread := .woken, signals := s.signals - 1 }
  | unheard : s.thread ≠ .waiting → 0 < s.signals → StepCases s .signal { s with signals := s.signals - 1 }

variable {s s' : AsyncLogger β} {a : Act β}

theorem step_cases (h : step s a = some s') : StepCases s a s' := by
  cases a with
  | lock =>
    change s.lock = some s' at h
    unfold AsyncLogger.lock at h
    split at h
    · cases h
      exact .lock (.inl ‹_›)
    · cases h
      exact .lock (.inr ‹_›)
    · cases h
  | check =>
    change s.check = some s' at h
    unfold AsyncLogger.check at h
    split at h
    · rename_i hthread htasks
      cases h
      split
      · exact .fault hthread htasks ‹_›
      · exact .idle hthread htasks (Bool.eq_false_iff.2 ‹_›)
    · rename_i hthread htasks
      cases h
      exact .take _ _ hthread htasks
    · cases h
  | sleep =>
    change s.sleep = some s' at h
    unfold AsyncLogger.sleep at h
    split at h
    · cases h
      exact .sleep ‹_›
    · cases h
  | wake =>
    change s.wake = some s' at h
    unfold AsyncLogger.wake at h
    split at h
    · cases h
      exact .wake ‹_›
    · cases h
  | write =>
    change s.write = some s' at h
    unfold AsyncLogger.write at h
    split at h
    · rename_i tmp isStop hthread
      cases h
      cases isStop with
      | true => exact .exit tmp hthread
      | false => exact .next tmp hthread
    · cases h
  | push buffer =>
    change s.push buffer = some s' at h
    obtain ⟨hholds, h⟩ := Option.ite_none_left_eq_some.1 h
    cases h
    exact .push buffer (Bool.eq_false_iff.2 hholds)
  | stop =>
    change some s.setStop = some s' at h
    cases h
    unfold AsyncLogger.setStop
    split
    · exact .stopped ‹_›
    · exact .stop (Bool.eq_false_iff.2 ‹_›)
  | signal =>
    change s.signal = some s' at h
    unfold AsyncLogger.signal at h
    obtain ⟨hne, h⟩ := Option.ite_none_left_eq_some.1 h
    have hpos : 0 < s.signals := Nat.pos_of_ne_zero hne
    split at h
    · cases h
      exact .signal ‹_› hpos
    · cases h
      exact .unheard ‹_› hpos

/-! ## No batch waits for a thread that sleeps -/

def Thread.isAwake : Thread β → Bool
  | .acquire => true
  | .check => true
  | .sleep => true
  | .woken => true
  | _ => false

def Thread.isWaiting : Thread β → Bool
  | .waiting => true
  | _ => false

theorem isWaiting_iff {t : Thread β} : t.isWaiting = true ↔ t = .waiting := by
  cases t <;> simp [Thread.isWaiting]

def AsyncLogger.counts (s : AsyncLogger β) : Monitor.Counts :=
  ⟨s.tasks.length, s.thread.isAwake.toNat, s.thread.isWaiting.toNat, s.signals⟩

/-- The queue has been seen empty, and the lock is still held. -/
def SawEmpty (s : AsyncLogger β) : Prop := s.thread = .sleep → s.tasks = []

theorem SawEmpty.new : SawEmpty ({} : AsyncLogger β) := nofun

theorem SawEmpty.step (he : SawEmpty s) (h : step s a = some s') : SawEmpty s' := by
  cases step_cases h with
  | idle hthread htasks => exact fun _ => htasks
  | push buffer hholds =>
    intro hthread
    change s.thread = .sleep at hthread
    rw [hthread] at hholds
    cases hholds
  | stop | stopped | unheard => exact he
  | _ => intro hthread; cases hthread

/-- One thread at a queue with a condition variable. -/
theorem moves_step (he : SawEmpty s) (h : step s a = some s') : Monitor.Moves s.counts s'.counts := by
  unfold AsyncLogger.counts
  cases step_cases h with
  | lock hthread => rcases hthread with hthread | hthread <;> exact .inl (by rw [hthread]; rfl)
  | idle hthread => exact .inl (by rw [hthread]; rfl)
  | fault hthread htasks => exact .inr ⟨.leave, by rw [hthread, htasks]; rfl⟩
  | take tmp tasks hthread htasks =>
    refine .inr ⟨.take, ?_⟩
    rw [hthread, htasks]
    simp [Monitor.step, Thread.isAwake, Thread.isWaiting]
  | sleep hthread => exact .inr ⟨.sleep, by rw [hthread, he hthread]; rfl⟩
  | wake hthread => exact .inr ⟨.wake, by rw [hthread]; rfl⟩
  | exit tmp hthread => exact .inl (by rw [hthread]; rfl)
  | next tmp hthread => exact .inr ⟨.come, by rw [hthread]; rfl⟩
  | push buffer => exact .inr ⟨.put, by simp [Monitor.step]⟩
  | stop => exact .inr ⟨.ring, rfl⟩
  | stopped => exact .inl rfl
  | signal hthread hs =>
    refine .inr ⟨.signal, ?_⟩
    rw [hthread]
    simp [Monitor.step, hs, Thread.isAwake, Thread.isWaiting]
  | unheard hthread hs =>
    have hnot : s.thread.isWaiting = false := by
      cases ht : s.thread <;> first | rfl | exact absurd ht hthread
    exact .inr ⟨.signal, by rw [hnot]; simp [Monitor.step, hs]⟩

/-- Whatever `stop` does, no batch is left to a thread that sleeps and gets no signal any more. -/
theorem noBatchLeft_always (acts : List (Act β)) :
    Lts.Always step (fun s => s.thread.isWaiting = true → s.signals = 0 → s.tasks = []) ({} : AsyncLogger β) acts := by
  refine (Lts.always_invariant (I := fun s => SawEmpty s ∧ Monitor.Served s.counts)
    (fun _ _ _ hi h => ⟨hi.1.step h, (moves_step hi.1 h).served hi.2⟩) ⟨SawEmpty.new, .inl rfl⟩).imp fun s hi => ?_
  intro hwaiting hsignals
  have hthread := isWaiting_iff.1 hwaiting
  have hempty := hi.2.empty (by simp [AsyncLogger.counts, hthread, Thread.isAwake]) hsignals
    (by simp [AsyncLogger.counts, hthread, Thread.isWaiting])
  exact List.eq_nil_of_length_eq_zero hempty

/-! ## And no flag, unless its signal comes too early -/

/-- A thread that sleeps has nothing to do, or is to be signalled. -/
def Attended (s : AsyncLogger β) : Prop :=
  s.thread.isWaiting = true → s.tasks = [] ∧ s.stop = false ∨ 0 < s.signals

/-- The thread goes to sleep with the flag clear, or before the signal that tells of it. -/
def InTime (s : AsyncLogger β) : Act β → Prop
  | .sleep => s.stop = false ∨ 0 < s.signals
  | _ => True

instance decidableInTime (s : AsyncLogger β) : (a : Act β) → Decidable (InTime s a)
  | .sleep => inferInstanceAs (Decidable (_ ∨ _))
  | .lock | .check | .wake | .write | .push _ | .stop | .signal => .isTrue trivial

theorem attended_iff_inTime (he : SawEmpty s) (ha : Attended s) (h : step s a = some s') :
    Attended s' ↔ InTime s a := by
  cases step_cases h with
  | sleep hthread =>
    constructor
    · intro hatt
      exact (hatt rfl).imp_left And.right
    · intro htime _
      exact htime.imp_left fun hstop => ⟨he hthread, hstop⟩
  | push buffer => exact iff_of_true (fun _ => .inr (Nat.succ_pos _)) trivial
  | stop => exact iff_of_true (fun _ => .inr (Nat.succ_pos _)) trivial
  | stopped => exact iff_of_true ha trivial
  | unheard hthread => exact iff_of_true (fun hw => absurd (isWaiting_iff.1 hw) hthread) trivial
  | _ => exact iff_of_true (fun hw => by cases hw) trivial

/-- From a thread that has just been made: it never sleeps on a batch or on the flag, just when it goes to sleep in
time whenever it does. -/
theorem attended_iff (acts : List (Act β)) :
    Lts.Always step Attended ({} : AsyncLogger β) acts ↔ Lts.Along step InTime ({} : AsyncLogger β) acts := by
  refine Lts.always_iff_along (fun _ _ _ he h => SawEmpty.step he h) (fun _ _ _ he ha h => attended_iff_inTime he ha h)
    SawEmpty.new ?_
  intro h
  cases h

-- the signal of `stop` comes behind the look at the flag, and the thread sleeps with the flag set
example : (Lts.run step ({} : AsyncLogger Nat) [.lock, .check, .stop, .signal, .sleep]).map
    (fun s => (s.stop, s.thread.isWaiting, s.signals)) = some (true, true, 0) := by decide

/-! ## The thread ends -/

def Thread.rank : Thread β → Nat
  | .acquire => 4
  | .check => 3
  | .sleep => 2
  | .waiting => 1
  | .woken => 4
  | .write _ _ => 6
  | .exited => 0
  | .faulted => 0

/-- The thread goes on, or a signal comes; not a new batch, not `stop`, and not a thread that gets up by itself. -/
def Productive : Act β → Prop
  | .wake => False
  | .push _ => False
  | .stop => False
  | _ => True

def AsyncLogger.distance (s : AsyncLogger β) : Nat := 10 * s.tasks.length + 5 * s.signals + s.thread.rank

theorem distance_step (hp : Productive a) (h : step s a = some s') : s'.distance < s.distance := by
  unfold AsyncLogger.distance
  cases step_cases h with
  | lock hthread => rcases hthread with hthread | hthread <;> rw [hthread] <;> simp [Thread.rank]
  | fault hthread | idle hthread | sleep hthread | exit tmp hthread | next tmp hthread =>
    rw [hthread]
    simp [Thread.rank]
  | take tmp tasks hthread htasks =>
    rw [hthread, htasks, List.length_cons]
    simp only [Thread.rank]
    omega
  | signal hthread hs =>
    rw [hthread]
    simp only [Thread.rank]
    omega
  | unheard hthread hs =>
    dsimp only
    omega
  | wake | push | stop | stopped => exact hp.elim

/-- A thread with something to do, or told to stop, goes on. -/
theorem enabled (ha : Attended s) (hwork : s.tasks ≠ [] ∨ s.stop = true) (hexit : s.thread ≠ .exited)
    (hfault : s.thread ≠ .faulted) : ∃ a, Productive a ∧ step s a ≠ none := by
  cases hthread : s.thread with
  | acquire | woken =>
    refine ⟨.lock, trivial, ?_⟩
    change s.lock ≠ none
    simp [AsyncLogger.lock, hthread]
  | check =>
    refine ⟨.check, trivial, ?_⟩
    change s.check ≠ none
    unfold AsyncLogger.check
    rw [hthread]
    cases s.tasks <;> simp
  | sleep =>
    refine ⟨.sleep, trivial, ?_⟩
    change s.sleep ≠ none
    simp [AsyncLogger.sleep, hthread]
  | waiting =>
    -- it is to be signalled
    have hsignal : 0 < s.signals := by
      refine (ha (isWaiting_iff.2 hthread)).resolve_left fun hidle => ?_
      rcases hwork with htasks | hstop
      · exact htasks hidle.1
      · rw [hidle.2] at hstop
        cases hstop
    refine ⟨.signal, trivial, ?_⟩
    change s.signal ≠ none
    unfold AsyncLogger.signal
    rw [if_neg (by omega), hthread]
    simp
  | write tmp isStop =>
    refine ⟨.write, trivial, ?_⟩
    change s.write ≠ none
    simp [AsyncLogger.write, hthread]
  | exited => exact absurd hthread hexit
  | faulted => exact absurd hthread hfault

/-- The thread has seen the flag. -/
def Thread.isTold : Thread β → Bool
  | .write _ isStop => isStop
  | .exited => true
  | .faulted => true
  | _ => false

/-- The flag is not cleared again. -/
def Told (s : AsyncLogger β) : Prop := s.thread.isTold = true → s.stop = true

theorem Told.new : Told ({} : AsyncLogger β) := nofun

theorem Told.step (ht : Told s) (h : step s a = some s') : Told s' := by
  cases step_cases h with
  | fault hthread htasks hstop => exact fun _ => hstop
  | take tmp tasks hthread htasks => exact id
  | exit tmp hthread => exact fun _ => ht (by rw [hthread]; rfl)
  | push | stopped | unheard => exact ht
  | stop => exact fun _ => rfl
  | _ => exact nofun

/-- The thread comes to rest. It does not while there is a batch in the queue or the flag is set, unless it is at
its end; and it is not at its end before the flag is set. -/
structure Ends (s : AsyncLogger β) : Prop where
  ends : Lts.Ends step (fun _ a => Productive a) s
  goesOn : s.tasks ≠ [] ∨ s.stop = true → s.thread ≠ .exited → s.thread ≠ .faulted →
    ∃ a, Productive a ∧ step s a ≠ none
  runs : s.stop = false → s.thread ≠ .exited ∧ s.thread ≠ .faulted

/-- Of a thread that goes to sleep in time whenever it does. -/
theorem ends_of_inTime {acts : List (Act β)} (hk : Lts.Along step InTime ({} : AsyncLogger β) acts) :
    Lts.Always step Ends ({} : AsyncLogger β) acts := by
  have htold : Lts.Always step Told ({} : AsyncLogger β) acts :=
    Lts.always_invariant (fun _ _ _ ht h => ht.step h) Told.new
  refine (((attended_iff acts).2 hk).and htold).imp fun s ⟨ha, ht⟩ =>
    ⟨?_, fun hwork hexit hfault => enabled ha hwork hexit hfault, fun hstop => ?_⟩
  · exact Lts.ends_of_measure Nat.lt_wfRel.wf (I := fun _ => True) (fun _ _ _ _ _ _ => trivial) AsyncLogger.distance
      (fun _ _ _ _ hp h => distance_step hp h) trivial
  · refine ⟨fun hthread => ?_, fun hthread => ?_⟩ <;>
      exact absurd (ht (by rw [hthread]; rfl)) (by rw [hstop]; decide)

/-- A batch gets the thread up, and is written; `stop` ends the thread behind the next one, with one more in the
queue. -/
theorem ends_small :
    Lts.Always step Ends ({} : AsyncLogger Nat) [.lock, .check, .sleep, .push 1, .signal, .lock, .check, .write,
      .push 2, .push 3, .stop, .lock, .check, .write] ∧
    (Lts.run step ({} : AsyncLogger Nat) [.lock, .check, .sleep, .push 1, .signal, .lock, .check, .write,
      .push 2, .push 3, .stop, .lock, .check, .write]).map (fun s => (s.thread.isTold, s.tasks)) = some (true, [3]) :=
  ⟨ends_of_inTime (by decide), by decide⟩

/-! ## The wait as one step -/

/-- Where the thread is, for who does not look into the wait. -/
def Thread.outside : Thread (List String) → Log.Thread
  | .write tmp isStop => .write tmp isStop
  | .exited => .exited
  | .faulted => .faulted
  | _ => .wait

/-- The channel as `Logger` sees it. -/
structure Agrees (s : AsyncLogger (List String)) (c : Log.Channel) : Prop where
  tasks : c.tasks = s.tasks
  stop : c.stop = s.stop
  thread : c.thread = s.thread.outside

/-- Inside the wait nothing changes for `Logger`; what gets out of it is a `take`. -/
theorem Agrees.step {s s' : AsyncLogger (List String)} {a : Act (List String)} {c : Log.Channel} (hc : Agrees s c)
    (h : step s a = some s') : Agrees s' c ∨ (∃ c', c.take = some c' ∧ Agrees s' c') ∨
      (∃ c', c.write = some c' ∧ Agrees s' c') ∨
      (∃ buffer, a = .push buffer ∧ Agrees s' { c with tasks := c.tasks ++ [buffer] }) ∨
      a = .stop ∧ Agrees s' c.setStop := by
  obtain ⟨htasks, hstop, hout⟩ := hc
  cases step_cases h with
  | lock hthread =>
    refine .inl ⟨htasks, hstop, hout.trans ?_⟩
    rcases hthread with hthread | hthread <;> rw [hthread] <;> rfl
  | idle hthread | sleep hthread | wake hthread | signal hthread =>
    refine .inl ⟨htasks, hstop, hout.trans ?_⟩
    rw [hthread]
    rfl
  | fault hthread hnil hset =>
    rw [hthread] at hout
    rw [hnil] at htasks
    exact .inr (.inl ⟨_, Log.Channel.take_empty hout htasks (hstop.trans hset), htasks.trans hnil.symm, hstop, rfl⟩)
  | take tmp tasks hthread hcons =>
    rw [hthread] at hout
    rw [hcons] at htasks
    refine .inr (.inl ⟨_, Log.Channel.take_front hout htasks, rfl, hstop, ?_⟩)
    rw [hstop]
    rfl
  | exit tmp hthread | next tmp hthread =>
    rw [hthread] at hout
    refine .inr (.inr (.inl ⟨{ c with written := c.written ++ Log.lines tmp, thread := _ }, ?_, htasks, hstop, rfl⟩))
    unfold Log.Channel.write
    rw [hout]
    rfl
  | push buffer => exact .inr (.inr (.inr (.inl ⟨buffer, rfl, by rw [htasks], hstop, hout⟩)))
  | stop => exact .inr (.inr (.inr (.inr ⟨rfl, htasks, rfl, hout⟩)))
  | stopped | unheard => exact .inl ⟨htasks, hstop, hout⟩

end Flconc.LogWait
