/-
`ThreadPool` of comm/thread_pool.cc: its threads in `MainFunction` and the callers of `addTask`, any number of
both, whose steps come in any order; a thread that waits may also get up by itself.

Every task is started once, in the order of the calls. A task in the queue never waits for threads that sleep, so
long as no thread enters `MainFunction` while another one waits: it initialises the condition a second time there.
`stop` ends a thread at its next look at the flag, so behind it each thread starts one more task at most, and one
that waits does not end without.
-/
import Flconc.Lib.Monitor
import Mathlib.Algebra.BigOperators.Group.List.Basic
import Mathlib.Data.List.Perm.Basic
import Mathlib.Tactic.Ring

namespace Flconc.ThreadPool

universe u

/-! ## The model -/

/-- Where a thread is in `MainFunction`. -/
inductive Worker (τ : Type u)
  /-- Before `pthread_cond_init`. -/
  | created
  /-- At `while (!pool->m_is_stop)`. -/
  | check
  /-- At the lock. -/
  | acquire
  /-- With the lock, before `m_tasks.empty()`. -/
  | holding
  /-- In `pthread_cond_wait`, asleep. -/
  | waiting
  /-- In `pthread_cond_wait`, to take the lock again. -/
  | woken
  /-- In `cb()`. -/
  | running (cb : τ)
  | exited

/-- Who has `m_mutex`. -/
inductive Owner (τ : Type u)
  | worker (i : Nat)
  /-- A call of `addTask`. -/
  | caller (cb : τ)

/-- The pool, with the calls of `addTask` that have yet to signal. The tasks pushed, started and finished, the
threads as `stop` found them and those that have started a task since are history. -/
structure State (τ : Type u) where
  workers : List (Worker τ)
  tasks : List τ := []
  owner : Option (Owner τ) := none
  signals : Nat := 0
  isStop : Bool := false
  faulted : Bool := false
  pushed : List τ := []
  started : List τ := []
  finished : List τ := []
  atStop : List (Worker τ) := []
  late : List Nat := []

inductive Act (τ : Type u)
  | enter (i : Nat)
  | check (i : Nat)
  | lock (i : Nat)
  /-- The rest of what the lock guards. -/
  | look (i : Nat)
  /-- `cb()` returns. -/
  | finish (i : Nat)
  /-- A call of `addTask` gets the lock. -/
  | addTask (cb : τ)
  | push
  /-- The signal of a call, which gets this thread up if one waits. -/
  | signal (i : Nat)
  | wake (i : Nat)
  | stop

variable {τ : Type u}

def Worker.isWaiting : Worker τ → Bool
  | .waiting => true
  | _ => false

namespace State

/-- The constructor, and `start`. -/
def new (τ : Type u) (size : Nat) : State τ := { workers := List.replicate size .created }

def setWorker (s : State τ) (i : Nat) (w : Worker τ) : State τ := { s with workers := s.workers.set i w }

/-- Initialising a condition that others wait on is undefined. -/
def enter (s : State τ) (i : Nat) : Option (State τ) :=
  match s.workers[i]? with
  | some .created => some { s.setWorker i .check with faulted := s.faulted || s.workers.any Worker.isWaiting }
  | _ => none

def check (s : State τ) (i : Nat) : Option (State τ) :=
  match s.workers[i]? with
  | some .check => some (s.setWorker i (if s.isStop then .exited else .acquire))
  | _ => none

def lock (s : State τ) (i : Nat) : Option (State τ) :=
  match s.owner, s.workers[i]? with
  | none, some .acquire => some { s.setWorker i .holding with owner := some (.worker i) }
  | none, some .woken => some { s.setWorker i .holding with owner := some (.worker i) }
  | _, _ => none

/-- An empty queue puts the thread to sleep, else the front comes off; the lock is released either way. -/
def look (s : State τ) (i : Nat) : Option (State τ) :=
  match s.workers[i]?, s.tasks with
  | some .holding, [] => some { s.setWorker i .waiting with owner := none }
  | some .holding, cb :: tasks =>
    some { s.setWorker i (.running cb) with
      owner := none, tasks := tasks, started := s.started ++ [cb], late := if s.isStop then s.late ++ [i] else s.late }
  | _, _ => none

def finish (s : State τ) (i : Nat) : Option (State τ) :=
  match s.workers[i]? with
  | some (.running cb) => some { s.setWorker i .check with finished := s.finished ++ [cb] }
  | _ => none

def addTask (s : State τ) (cb : τ) : Option (State τ) :=
  match s.owner with
  | none => some { s with owner := some (.caller cb) }
  | some _ => none

/-- `m_tasks.push(cb)`, and the lock is released; the signal is to come. -/
def push (s : State τ) : Option (State τ) :=
  match s.owner with
  | some (.caller cb) =>
    some { s with owner := none, tasks := s.tasks ++ [cb], pushed := s.pushed ++ [cb], signals := s.signals + 1 }
  | _ => none

/-- `pthread_cond_signal`: some thread that waits, if there is one. -/
def signal (s : State τ) (i : Nat) : Option (State τ) :=
  if s.signals = 0 then none
  else match s.workers[i]? with
    | some .waiting => some { s.setWorker i .woken with signals := s.signals - 1 }
    | _ => if s.workers.any Worker.isWaiting then none else some { s with signals := s.signals - 1 }

def wake (s : State τ) (i : Nat) : Option (State τ) :=
  match s.workers[i]? with
  | some .waiting => some (s.setWorker i .woken)
  | _ => none

def stop (s : State τ) : State τ := if s.isStop then s else { s with isStop := true, atStop := s.workers }

end State

def step (s : State τ) : Act τ → Option (State τ)
  | .enter i => s.enter i
  | .check i => s.check i
  | .lock i => s.lock i
  | .look i => s.look i
  | .finish i => s.finish i
  | .addTask cb => s.addTask cb
  | .push => s.push
  | .signal i => s.signal i
  | .wake i => s.wake i
  | .stop => some s.stop

/-! ## What a step does -/

/-- Every way a step changes the pool. -/
inductive StepCases (s : State τ) : Act τ → State τ → Prop
  | enter (i : Nat) : s.workers[i]? = some .created →
    StepCases s (.enter i) { s.setWorker i .check with faulted := s.faulted || s.workers.any Worker.isWaiting }
  | exit (i : Nat) : s.workers[i]? = some .check → s.isStop = true → StepCases s (.check i) (s.setWorker i .exited)
  | check (i : Nat) : s.workers[i]? = some .check → s.isStop = false → StepCases s (.check i) (s.setWorker i .acquire)
  | lock (i : Nat) (w : Worker τ) : s.workers[i]? = some w → w = .acquire ∨ w = .woken → s.owner = none →
    StepCases s (.lock i) { s.setWorker i .holding with owner := some (.worker i) }
  | sleep (i : Nat) : s.workers[i]? = some .holding → s.tasks = [] →
    StepCases s (.look i) { s.setWorker i .waiting with owner := none }
  | take (i : Nat) (cb : τ) (tasks : List τ) : s.workers[i]? = some .holding → s.tasks = cb :: tasks →
    StepCases s (.look i) { s.setWorker i (.running cb) with
      owner := none, tasks := tasks, started := s.started ++ [cb], late := if s.isStop then s.late ++ [i] else s.late }
  | finish (i : Nat) (cb : τ) : s.workers[i]? = some (.running cb) →
    StepCases s (.finish i) { s.setWorker i .check with finished := s.finished ++ [cb] }
  | addTask (cb : τ) : s.owner = none → StepCases s (.addTask cb) { s with owner := some (.caller cb) }
  | push (cb : τ) : s.owner = some (.caller cb) → StepCases s .push
      { s with owner := none, tasks := s.tasks ++ [cb], pushed := s.pushed ++ [cb], signals := s.signals + 1 }
  | signal (i : Nat) : s.workers[i]? = some .waiting → 0 < s.signals →
    StepCases s (.signal i) { s.setWorker i .woken with signals := s.signals - 1 }
  | unheard (i : Nat) : s.workers.any Worker.isWaiting = false → 0 < s.signals →
    StepCases s (.signal i) { s with signals := s.signals - 1 }
  | wake (i : Nat) : s.workers[i]? = some .waiting → StepCases s (.wake i) (s.setWorker i .woken)
  | stop : s.isStop = false → StepCases s .stop { s with isStop := true, atStop := s.workers }
  | stopped : s.isStop = true → StepCases s .stop s

theorem step_cases {s s' : State τ} {a : Act τ} (h : step s a = some s') : StepCases s a s' := by
  cases a with
  | enter i =>
    change s.enter i = some s' at h
    unfold State.enter at h
    split at h
    · cases h
      exact .enter i ‹_›
    · cases h
  | check i =>
    change s.check i = some s' at h
    unfold State.check at h
    split at h
    · cases h
      split
      · exact .exit i ‹_› ‹_›
      · exact .check i ‹_› (Bool.eq_false_iff.2 ‹_›)
    · cases h
  | lock i =>
    change s.lock i = some s' at h
    unfold State.lock at h
    split at h
    · cases h
      exact .lock i _ ‹_› (.inl rfl) ‹_›
    · cases h
      exact .lock i _ ‹_› (.inr rfl) ‹_›
    · cases h
  | look i =>
    change s.look i = some s' at h
    unfold State.look at h
    split at h
    · cases h
      exact .sleep i ‹_› ‹_›
    · cases h
      exact .take i _ _ ‹_› ‹_›
    · cases h
  | finish i =>
    change s.finish i = some s' at h
    unfold State.finish at h
    split at h
    · cases h
      exact .finish i _ ‹_›
    · cases h
  | addTask cb =>
    change s.addTask cb = some s' at h
    unfold State.addTask at h
    split at h
    · cases h
      exact .addTask cb ‹_›
    · cases h
  | push =>
    change s.push = some s' at h
    unfold State.push at h
    split at h
    · cases h
      exact .push _ ‹_›
    · cases h
  | signal i =>
    change s.signal i = some s' at h
    unfold State.signal at h
    split at h
    · cases h
    · have hpos : 0 < s.signals := Nat.pos_of_ne_zero ‹_›
      split at h
      · cases h
        exact .signal i ‹_› hpos
      · split at h
        · cases h
        · cases h
          exact .unheard i (Bool.eq_false_iff.2 ‹_›) hpos
  | wake i =>
    change s.wake i = some s' at h
    unfold State.wake at h
    split at h
    · cases h
      exact .wake i ‹_›
    · cases h
  | stop =>
    change some s.stop = some s' at h
    cases h
    unfold State.stop
    split
    · exact .stopped ‹_›
    · exact .stop (Bool.eq_false_iff.2 ‹_›)

/-! ## One thread of many -/

section Set

variable {α β : Type*} {l : List α} {i : Nat} {a b : α}

theorem getElem?_set_of (h : l[i]? = some a) (j : Nat) : (l.set i b)[j]? = if i = j then some b else l[j]? := by
  rw [List.getElem?_set, if_pos (List.getElem?_eq_some_iff.1 h).1]

theorem mem_of_set {x : α} (h : l[i]? = some a) (hx : x ∈ l.set i b) : x = b ∨ x ∈ l := by
  obtain ⟨j, hj⟩ := List.mem_iff_getElem?.1 hx
  rw [getElem?_set_of h] at hj
  split at hj
  · exact .inl (Option.some.inj hj).symm
  · exact .inr (List.mem_of_getElem? hj)

theorem sum_map_set (f : α → Nat) (h : l[i]? = some a) : ((l.set i b).map f).sum + f a = (l.map f).sum + f b := by
  induction l generalizing i with
  | nil => simp at h
  | cons x l ih =>
    cases i with
    | zero =>
      cases h
      simp only [List.set_cons_zero, List.map_cons, List.sum_cons]
      omega
    | succ i =>
      have := ih h
      simp only [List.set_cons_succ, List.map_cons, List.sum_cons]
      omega

theorem countP_set_of (p : α → Bool) (h : l[i]? = some a) :
    (l.set i b).countP p + (p a).toNat = l.countP p + (p b).toNat := by
  induction l generalizing i with
  | nil => simp at h
  | cons x l ih =>
    cases i with
    | zero =>
      cases h
      rw [List.set_cons_zero, List.countP_cons, List.countP_cons]
      cases p b <;> cases p a <;> simp
    | succ i =>
      have := ih h
      simp only [List.set_cons_succ, List.countP_cons]
      omega

theorem filterMap_set_perm (f : α → Option β) (h : l[i]? = some a) :
    ((f a).toList ++ (l.set i b).filterMap f).Perm ((f b).toList ++ l.filterMap f) := by
  induction l generalizing i with
  | nil => simp at h
  | cons x l ih =>
    have hcons : ∀ (y : α) (k : List α), (y :: k).filterMap f = (f y).toList ++ k.filterMap f := by
      intro y k
      cases hy : f y <;> simp [hy]
    cases i with
    | zero =>
      cases h
      simp only [List.set_cons_zero, hcons]
      exact List.perm_append_comm_assoc _ _ _
    | succ i =>
      simp only [List.set_cons_succ, hcons]
      refine (List.perm_append_comm_assoc _ _ _).trans ?_
      exact ((ih h).append_left _).trans (List.perm_append_comm_assoc _ _ _)

end Set

/-! ## The lock and the queue -/

def Worker.task : Worker τ → Option τ
  | .running cb => some cb
  | _ => none

/-- The tasks that are being run. -/
def State.running (s : State τ) : List τ := s.workers.filterMap Worker.task

/-- The lock is with the thread that is behind it: not with another one, nor with a call of `addTask`. -/
def Locked (s : State τ) : Prop := ∀ i : Nat, s.workers[i]? = some .holding ↔ s.owner = some (.worker i)

/-- Every task is started once, in the order of the calls, and one party at most has the lock. -/
structure OnceInOrder (s : State τ) : Prop where
  fifo : s.started ++ s.tasks = s.pushed
  ran : (s.finished ++ s.running).Perm s.started
  exclusive : Locked s

variable {s s' : State τ} {a : Act τ}

/-- A step of a thread that neither had nor gets the lock. -/
theorem Locked.set (hl : Locked s) {i : Nat} {w w' : Worker τ} (h : s.workers[i]? = some w) (hw : w ≠ .holding)
    (hw' : w' ≠ .holding) (j : Nat) : (s.workers.set i w')[j]? = some .holding ↔ s.owner = some (.worker j) := by
  rw [← hl j, getElem?_set_of h]
  split
  · rename_i hij
    subst hij
    rw [h]
    simp [hw, hw']
  · exact .rfl

/-- A step that gives the lock back. -/
theorem Locked.release (hl : Locked s) {i : Nat} {w' : Worker τ} (h : s.workers[i]? = some .holding)
    (hw' : w' ≠ .holding) (j : Nat) : (s.workers.set i w')[j]? ≠ some .holding := by
  rw [getElem?_set_of h]
  split
  · simpa using hw'
  · intro hj
    have howner := (hl i).1 h
    rw [(hl j).1 hj] at howner
    simp_all

theorem Locked.step (hl : Locked s) (h : step s a = some s') : Locked s' := by
  intro j
  cases step_cases h with
  | enter i hi | exit i hi | check i hi | finish i cb hi | signal i hi | wake i hi =>
    exact hl.set hi (by simp) (by simp) j
  | lock i w hi hw howner =>
    show (s.workers.set i .holding)[j]? = some .holding ↔ some (Owner.worker i) = some (Owner.worker j)
    rw [getElem?_set_of hi]
    split
    · simp_all
    · rename_i hij
      rw [hl j, howner]
      simp [hij]
  | sleep i hi | take i cb tasks hi =>
    exact iff_of_false (hl.release hi (by simp) j) (by simp)
  | addTask cb howner | push cb howner =>
    refine iff_of_false (fun hj => ?_) (by simp)
    have hworker := (hl j).1 hj
    rw [howner] at hworker
    simp at hworker
  | unheard | stop | stopped => exact hl j

/-- What threads run changes with the one that takes a step. -/
theorem running_set {i : Nat} {w w' : Worker τ} (h : s.workers[i]? = some w) :
    (w.task.toList ++ (s.setWorker i w').running).Perm (w'.task.toList ++ s.running) :=
  filterMap_set_perm Worker.task h

theorem fifo_step (hf : s.started ++ s.tasks = s.pushed) (h : step s a = some s') :
    s'.started ++ s'.tasks = s'.pushed := by
  cases step_cases h with
  | take i cb tasks hi ht => simpa [State.setWorker, ht] using hf
  | push cb =>
    show s.started ++ (s.tasks ++ [cb]) = s.pushed ++ [cb]
    rw [← List.append_assoc, hf]
  | _ => exact hf

theorem ran_step (hr : (s.finished ++ s.running).Perm s.started) (h : step s a = some s') :
    (s'.finished ++ s'.running).Perm s'.started := by
  cases step_cases h with
  | enter i hi | exit i hi | check i hi | sleep i hi | signal i hi | wake i hi =>
    exact ((running_set hi).append_left _).trans hr
  | lock i w hi hw =>
    have hset : (w.task.toList ++ (s.setWorker i .holding).running).Perm ([] ++ s.running) := running_set hi
    rcases hw with rfl | rfl
    · exact (hset.append_left _).trans hr
    · exact (hset.append_left _).trans hr
  | take i cb tasks hi =>
    have hset : (s.setWorker i (.running cb)).running.Perm (cb :: s.running) := running_set hi
    show (s.finished ++ (s.setWorker i (.running cb)).running).Perm (s.started ++ [cb])
    refine (hset.append_left _).trans ?_
    refine (List.perm_middle.trans (hr.cons cb)).trans ?_
    exact (List.perm_append_singleton cb s.started).symm
  | finish i cb hi =>
    have hset : (cb :: (s.setWorker i .check).running).Perm s.running := running_set hi
    show (s.finished ++ [cb] ++ (s.setWorker i .check).running).Perm s.started
    rw [List.append_assoc]
    exact (hset.append_left _).trans hr
  | addTask | push | unheard | stop | stopped => exact hr

theorem locked_new (size : Nat) : Locked (State.new τ size) := by
  intro i
  refine iff_of_false (fun h => ?_) (by simp [State.new])
  have hmem := List.mem_of_getElem? h
  simp [State.new] at hmem

/-- In every interleaving, whatever the tasks are and whoever calls. -/
theorem onceInOrder_always (size : Nat) (acts : List (Act τ)) :
    Lts.Always step OnceInOrder (.new τ size) acts := by
  have hran : (State.new τ size).running = [] := by simp [State.running, State.new, Worker.task]
  refine Lts.Always.imp (P := fun s => Locked s ∧ s.started ++ s.tasks = s.pushed ∧
    (s.finished ++ s.running).Perm s.started) (fun s hs => ⟨hs.2.1, hs.2.2, hs.1⟩) ?_
  refine Lts.always_invariant (fun s a s' hs h => ?_) ⟨locked_new size, rfl, ?_⟩
  · exact ⟨hs.1.step h, fifo_step hs.2.1 h, ran_step hs.2.2 h⟩
  · rw [hran]
    exact .nil

/-! ## No task waits for threads that sleep -/

/-- Behind the look at the flag, and before the look at the queue. -/
def Worker.isAwake : Worker τ → Bool
  | .acquire => true
  | .holding => true
  | .woken => true
  | _ => false

def State.counts (s : State τ) : Monitor.Counts :=
  ⟨s.tasks.length, s.workers.countP Worker.isAwake, s.workers.countP Worker.isWaiting, s.signals⟩

section Counts

variable {i : Nat} {w w' : Worker τ}

theorem awake_set (h : s.workers[i]? = some w) :
    (s.setWorker i w').counts.awake + w.isAwake.toNat = s.counts.awake + w'.isAwake.toNat :=
  countP_set_of _ h

theorem asleep_set (h : s.workers[i]? = some w) :
    (s.setWorker i w').counts.asleep + w.isWaiting.toNat = s.counts.asleep + w'.isWaiting.toNat :=
  countP_set_of _ h

theorem counts_set (h : s.workers[i]? = some w) (ha : w'.isAwake = w.isAwake) (hw : w'.isWaiting = w.isWaiting) :
    (s.setWorker i w').counts = s.counts := by
  have hawake : (s.setWorker i w').counts.awake + w.isAwake.toNat = s.counts.awake + w'.isAwake.toNat := awake_set h
  have hasleep : (s.setWorker i w').counts.asleep + w.isWaiting.toNat = s.counts.asleep + w'.isWaiting.toNat :=
    asleep_set h
  rw [ha] at hawake
  rw [hw] at hasleep
  exact Monitor.Counts.ext rfl (Nat.add_right_cancel hawake) (Nat.add_right_cancel hasleep) rfl

end Counts

theorem asleep_eq_zero (h : s.workers.any Worker.isWaiting = false) : s.counts.asleep = 0 := by
  rw [List.any_eq_false] at h
  exact List.countP_eq_zero.2 h

/-- The pool is a queue with a condition variable. -/
theorem moves_step (h : step s a = some s') : Monitor.Moves s.counts s'.counts := by
  cases step_cases h with
  | enter i hi | exit i hi | finish i cb hi => exact .inl (counts_set hi rfl rfl)
  | lock i w hi hw => rcases hw with rfl | rfl <;> exact .inl (counts_set hi rfl rfl)
  | check i hi =>
    have hawake : (s.setWorker i .acquire).counts.awake = s.counts.awake + 1 := awake_set hi
    have hasleep : (s.setWorker i .acquire).counts.asleep = s.counts.asleep := asleep_set hi
    exact .inr ⟨.come, congrArg some (Monitor.Counts.ext rfl hawake.symm hasleep.symm rfl)⟩
  | sleep i hi ht =>
    have hawake : (s.setWorker i .waiting).counts.awake + 1 = s.counts.awake := awake_set hi
    have hasleep : (s.setWorker i .waiting).counts.asleep = s.counts.asleep + 1 := asleep_set hi
    have hitems : s.counts.items = 0 := by simp [State.counts, ht]
    refine .inr ⟨.sleep, (if_pos ⟨hitems, by omega⟩).trans (congrArg some (Monitor.Counts.ext rfl ?_ hasleep.symm rfl))⟩
    show s.counts.awake - 1 = (s.setWorker i .waiting).counts.awake
    omega
  | take i cb tasks hi ht =>
    have hawake : (s.setWorker i (.running cb)).counts.awake + 1 = s.counts.awake := awake_set hi
    have hasleep : (s.setWorker i (.running cb)).counts.asleep = s.counts.asleep := asleep_set hi
    have hitems : s.counts.items = tasks.length + 1 := by simp [State.counts, ht]
    refine .inr ⟨.take, (if_pos (by omega)).trans (congrArg some (Monitor.Counts.ext ?_ ?_ hasleep.symm rfl))⟩
    · show s.counts.items - 1 = tasks.length
      omega
    · show s.counts.awake - 1 = (s.setWorker i (.running cb)).counts.awake
      omega
  | push cb => exact .inr ⟨.put, congrArg some (Monitor.Counts.ext (by simp [State.counts]) rfl rfl rfl)⟩
  | signal i hi hs =>
    have hawake : (s.setWorker i .woken).counts.awake = s.counts.awake + 1 := awake_set hi
    have hasleep : (s.setWorker i .woken).counts.asleep + 1 = s.counts.asleep := asleep_set hi
    refine .inr ⟨.signal, (if_pos hs).trans (congrArg some ?_)⟩
    rw [if_pos (by omega)]
    refine Monitor.Counts.ext rfl hawake.symm ?_ rfl
    show s.counts.asleep - 1 = (s.setWorker i .woken).counts.asleep
    omega
  | unheard i hnone hs =>
    refine .inr ⟨.signal, (if_pos hs).trans (congrArg some ?_)⟩
    rw [if_neg (by rw [asleep_eq_zero hnone]; omega)]
    rfl
  | wake i hi =>
    have hawake : (s.setWorker i .woken).counts.awake = s.counts.awake + 1 := awake_set hi
    have hasleep : (s.setWorker i .woken).counts.asleep + 1 = s.counts.asleep := asleep_set hi
    refine .inr ⟨.wake, (if_pos (by omega)).trans (congrArg some (Monitor.Counts.ext rfl hawake.symm ?_ rfl))⟩
    show s.counts.asleep - 1 = (s.setWorker i .woken).counts.asleep
    omega
  | addTask | stop | stopped => exact .inl rfl

/-- No thread enters `MainFunction` while another one waits. -/
def Enters (s : State τ) : Act τ → Prop
  | .enter _ => s.workers.any Worker.isWaiting = false
  | _ => True

/-- Not a new call, not `stop`, and not a thread that gets up by itself. -/
def Productive : Act τ → Prop
  | .addTask _ => False
  | .wake _ => False
  | .stop => False
  | _ => True

def Worker.rank : Worker τ → Nat
  | .created => 4
  | .check => 3
  | .acquire => 2
  | .holding => 1
  | .waiting => 0
  | .woken => 2
  | .running _ => 4
  | .exited => 0

def Owner.rank : Owner τ → Nat
  | .worker _ => 0
  | .caller _ => 8

/-- What is left to do, without the tasks that are yet to come. -/
def State.distance (s : State τ) : Nat :=
  4 * s.tasks.length + 3 * s.signals + (s.workers.map Worker.rank).sum + (s.owner.map Owner.rank).getD 0

/-- A thread that gets on. -/
theorem distance_set {i : Nat} {w w' : Worker τ} (hi : s.workers[i]? = some w) (hrank : w'.rank < w.rank) :
    (s.setWorker i w').distance < s.distance := by
  have hsum : ((s.workers.set i w').map Worker.rank).sum + w.rank = (s.workers.map Worker.rank).sum + w'.rank :=
    sum_map_set _ hi
  unfold State.distance
  simp only [State.setWorker]
  omega

theorem distance_step (hp : Productive a) (h : step s a = some s') : s'.distance < s.distance := by
  have hset : ∀ {i : Nat} {w : Worker τ} (w' : Worker τ), s.workers[i]? = some w →
      ((s.workers.set i w').map Worker.rank).sum + w.rank = (s.workers.map Worker.rank).sum + w'.rank :=
    fun _ hi => sum_map_set _ hi
  cases step_cases h with
  | enter i hi | exit i hi | check i hi | finish i cb hi =>
    apply distance_set hi
    simp [Worker.rank]
  | lock i w hi hw howner =>
    have := hset .holding hi
    have hrank : w.rank = 2 := by rcases hw with rfl | rfl <;> rfl
    rw [hrank] at this
    simp only [State.distance, State.setWorker, Worker.rank, howner, Option.map_some, Option.map_none, Owner.rank,
      Option.getD_some, Option.getD_none] at this ⊢
    omega
  | sleep i hi =>
    have := hset .waiting hi
    simp only [State.distance, State.setWorker, Worker.rank, Option.map_none, Option.getD_none] at this ⊢
    omega
  | take i cb tasks hi ht =>
    have := hset (.running cb) hi
    simp only [State.distance, State.setWorker, Worker.rank, ht, List.length_cons, Option.map_none,
      Option.getD_none] at this ⊢
    omega
  | push cb howner =>
    simp only [State.distance, howner, List.length_append, List.length_singleton, Option.map_some, Option.map_none,
      Owner.rank, Option.getD_some, Option.getD_none]
    omega
  | signal i hi hs =>
    have := hset .woken hi
    simp only [State.distance, State.setWorker, Worker.rank] at this ⊢
    omega
  | unheard i hnone hs =>
    unfold State.distance
    dsimp only
    omega
  | addTask | wake | stop | stopped => exact hp.elim

theorem ends (s : State τ) : Lts.Ends step (fun s a => Enters s a ∧ Productive a) s :=
  Lts.ends_of_measure Nat.lt_wfRel.wf (I := fun _ => True) (fun _ _ _ _ _ _ => trivial) State.distance
    (fun _ _ _ _ ha h => distance_step ha.2 h) trivial

/-- A signal gets up who waits, or nobody. -/
theorem signal_enabled (hs : s.signals ≠ 0) : ∃ a, Productive a ∧ Enters s a ∧ step s a ≠ none := by
  cases hany : s.workers.any Worker.isWaiting with
  | true =>
    obtain ⟨w, hmem, hw⟩ := List.any_eq_true.1 hany
    obtain ⟨i, hi⟩ := List.mem_iff_getElem?.1 hmem
    refine ⟨.signal i, trivial, trivial, ?_⟩
    change s.signal i ≠ none
    unfold State.signal
    rw [if_neg hs, hi]
    cases w with
    | waiting => simp
    | _ => cases hw
  | false =>
    refine ⟨.signal 0, trivial, trivial, ?_⟩
    change s.signal 0 ≠ none
    unfold State.signal
    rw [if_neg hs, hany]
    split <;> simp

/-- Whoever has the lock goes on. -/
theorem owner_enabled (hl : Locked s) {o : Owner τ} (howner : s.owner = some o) :
    ∃ a, Productive a ∧ Enters s a ∧ step s a ≠ none := by
  cases o with
  | worker j =>
    have hj := (hl j).2 howner
    refine ⟨.look j, trivial, trivial, ?_⟩
    change s.look j ≠ none
    unfold State.look
    rw [hj]
    cases s.tasks <;> simp
  | caller cb =>
    refine ⟨.push, trivial, trivial, ?_⟩
    change s.push ≠ none
    simp [State.push, howner]

/-- Whoever is up gets the lock when it is free. -/
theorem awake_enabled (hl : Locked s) {w : Worker τ} (hmem : w ∈ s.workers) (hw : w.isAwake = true) :
    ∃ a, Productive a ∧ Enters s a ∧ step s a ≠ none := by
  cases howner : s.owner with
  | some o => exact owner_enabled hl howner
  | none =>
    obtain ⟨i, hi⟩ := List.mem_iff_getElem?.1 hmem
    refine ⟨.lock i, trivial, trivial, ?_⟩
    change s.lock i ≠ none
    unfold State.lock
    rw [howner, hi]
    cases w with
    | acquire | woken => simp
    | holding =>
      have hworker := (hl i).1 hi
      rw [howner] at hworker
      cases hworker
    | _ => cases hw

/-- Somebody is up, or a signal is to come: a step is possible. -/
theorem busy_enabled (hl : Locked s) (h : 0 < s.counts.awake + s.counts.signals) :
    ∃ a, Productive a ∧ Enters s a ∧ step s a ≠ none := by
  by_cases hs : s.signals = 0
  · have hawake : 0 < s.workers.countP Worker.isAwake := by
      change 0 < s.counts.awake + s.signals at h
      rw [hs] at h
      exact h
    obtain ⟨w, hmem, hw⟩ := List.countP_pos_iff.1 hawake
    exact awake_enabled hl hmem hw
  · exact signal_enabled hs

/-- While there is a task, and a thread that has not ended, a step is possible. -/
theorem task_enabled (hl : Locked s) (hs : Monitor.Served s.counts) (ht : s.tasks ≠ []) {w : Worker τ}
    (hmem : w ∈ s.workers) (hw : w ≠ .exited) : ∃ a, Productive a ∧ Enters s a ∧ step s a ≠ none := by
  rcases Nat.eq_zero_or_pos (s.counts.awake + s.counts.signals) with hidle | hbusy
  · have hasleep : s.workers.countP Worker.isWaiting = 0 := by
      by_contra hpos
      have hitems := hs.empty (by omega) (by omega) (Nat.pos_of_ne_zero hpos)
      exact ht (List.eq_nil_of_length_eq_zero hitems)
    have hnone : s.workers.any Worker.isWaiting = false := by
      rw [List.any_eq_false]
      exact List.countP_eq_zero.1 hasleep
    have hawake : w.isAwake ≠ true := List.countP_eq_zero.1 (by change s.counts.awake = 0; omega) w hmem
    obtain ⟨i, hi⟩ := List.mem_iff_getElem?.1 hmem
    cases w with
    | created =>
      refine ⟨.enter i, trivial, hnone, ?_⟩
      change s.enter i ≠ none
      simp [State.enter, hi]
    | check =>
      refine ⟨.check i, trivial, trivial, ?_⟩
      change s.check i ≠ none
      simp [State.check, hi]
    | running cb =>
      refine ⟨.finish i, trivial, trivial, ?_⟩
      change s.finish i ≠ none
      simp [State.finish, hi]
    | waiting => exact absurd rfl (List.countP_eq_zero.1 hasleep _ hmem)
    | exited => exact absurd rfl hw
    | acquire | holding | woken => exact absurd rfl hawake
  · exact busy_enabled hl hbusy

/-- Threads end only behind `stop`. -/
def Running (s : State τ) : Prop := .exited ∈ s.workers → s.isStop = true

theorem Running.step (hr : Running s) (h : step s a = some s') : Running s' := by
  cases step_cases h with
  | enter i hi | check i hi | sleep i hi | take i cb tasks hi | finish i cb hi | signal i hi | wake i hi =>
    intro hmem
    exact hr ((mem_of_set hi hmem).resolve_left (by simp))
  | lock i w hi =>
    intro hmem
    exact hr ((mem_of_set hi hmem).resolve_left (by simp))
  | exit i hi hstop => exact fun _ => hstop
  | stop => exact fun _ => rfl
  | addTask | push | unheard | stopped => exact hr

/-- The queue drains: the steps of the threads come to an end, and until then every task in the queue has a step
to come, unless all threads have ended behind `stop`. -/
structure Drains (s : State τ) : Prop where
  sound : s.faulted = false
  ends : Lts.Ends step (fun s a => Enters s a ∧ Productive a) s
  moves : s.tasks ≠ [] → (∃ w ∈ s.workers, w ≠ .exited) → ∃ a, Productive a ∧ Enters s a ∧ step s a ≠ none
  running : .exited ∈ s.workers → s.isStop = true

theorem faulted_step (hf : s.faulted = false) (he : Enters s a) (h : step s a = some s') : s'.faulted = false := by
  cases step_cases h with
  | enter i hi =>
    change (s.faulted || s.workers.any Worker.isWaiting) = false
    rw [hf, he]
    rfl
  | _ => exact hf

theorem drains_of_enters (size : Nat) {acts : List (Act τ)} (hk : Lts.Along step Enters (.new τ size) acts) :
    Lts.Always step Drains (.new τ size) acts := by
  have hserved : Monitor.Served (State.new τ size).counts := by
    left
    exact List.countP_eq_zero.2 fun w hw => by simp [(List.mem_replicate.1 hw).2, Worker.isWaiting]
  have hrunning : Running (State.new τ size) := fun h => by simp [State.new] at h
  have hinv : Lts.Always step (fun s => s.faulted = false ∧ Locked s ∧ Monitor.Served s.counts ∧ Running s)
      (State.new τ size) acts := by
    refine Lts.always_of_along (fun s a s' hs ha h => ?_) ⟨rfl, locked_new size, hserved, hrunning⟩ hk
    exact ⟨faulted_step hs.1 ha h, hs.2.1.step h, (moves_step h).served hs.2.2.1, hs.2.2.2.step h⟩
  refine hinv.imp fun s hs => ⟨hs.1, ends s, fun ht hex => ?_, hs.2.2.2⟩
  obtain ⟨w, hmem, hw⟩ := hex
  exact task_enabled hs.2.1 hs.2.2.1 ht hmem hw

instance decidableEnters (s : State τ) : (a : Act τ) → Decidable (Enters s a)
  | .enter _ => inferInstanceAs (Decidable (_ = _))
  | .check _ | .lock _ | .look _ | .finish _ | .addTask _ | .push | .signal _ | .wake _ | .stop => .isTrue trivial

/-- Two threads, of which one waits when the task comes. -/
theorem drains_two : Lts.Always step Drains (.new Nat 2)
    [.enter 0, .enter 1, .check 0, .lock 0, .look 0, .addTask 7, .push, .signal 0] :=
  drains_of_enters 2 (by decide +kernel)

-- the second thread initialises the condition that the first one waits on
example : (Lts.run step (.new Nat 2) [.enter 0, .check 0, .lock 0, .look 0, .enter 1]).map (·.faulted) = some true := by
  decide +kernel

/-! ## Behind `stop` -/

/-- Behind the look at the flag, with no task yet. -/
def Worker.isWithin : Worker τ → Bool
  | .acquire => true
  | .holding => true
  | .waiting => true
  | .woken => true
  | _ => false

/-- Behind the first task. -/
def Worker.isDone : Worker τ → Bool
  | .check => true
  | .running _ => true
  | .exited => true
  | _ => false

/-- Behind `stop` each thread starts one task at most, and one that was behind its look at the flag, asleep or
not, does not end without. -/
structure StopsSoon (s : State τ) : Prop where
  once : s.late.Nodup
  threads : ∀ i ∈ s.late, i < s.workers.length
  waits : ∀ (i : Nat) (w : Worker τ), s.atStop[i]? = some w → w.isWithin = true → s.workers[i]? = some .exited →
    i ∈ s.late

/-- The threads that have started a task since `stop` are behind it; the ones that were to start one still are. -/
structure Late (isStop : Bool) (late : List Nat) (atStop workers : List (Worker τ)) : Prop where
  before : isStop = false → late = [] ∧ atStop = []
  nodup : late.Nodup
  done : ∀ i ∈ late, ∃ w, workers[i]? = some w ∧ w.isDone = true
  within : ∀ (i : Nat) (w : Worker τ), atStop[i]? = some w → w.isWithin = true →
    i ∈ late ∨ ∃ w', workers[i]? = some w' ∧ w'.isWithin = true

namespace Late

variable {isStop : Bool} {late : List Nat} {atStop workers : List (Worker τ)} {i : Nat} {w w' : Worker τ}

theorem set (hl : Late isStop late atStop workers) (hi : workers[i]? = some w)
    (hdone : i ∈ late → w.isDone = true → w'.isDone = true) (hwithin : w.isWithin = true → w'.isWithin = true) :
    Late isStop late atStop (workers.set i w') := by
  refine ⟨hl.before, hl.nodup, fun j hj => ?_, fun j v hv hw => ?_⟩
  · rw [getElem?_set_of hi]
    obtain ⟨v, hv, hd⟩ := hl.done j hj
    split
    · rename_i hij
      subst hij
      rw [hi] at hv
      cases hv
      exact ⟨w', rfl, hdone hj hd⟩
    · exact ⟨v, hv, hd⟩
  · rw [getElem?_set_of hi]
    rcases hl.within j v hv hw with hmem | ⟨v', hv', hw'⟩
    · exact .inl hmem
    · refine .inr ?_
      split
      · rename_i hij
        subst hij
        rw [hi] at hv'
        cases hv'
        exact ⟨w', rfl, hwithin hw'⟩
      · exact ⟨v', hv', hw'⟩

/-- The thread that takes a task was not behind one. -/
theorem take (hl : Late isStop late atStop workers) (hi : workers[i]? = some .holding) (cb : τ) :
    Late isStop (if isStop then late ++ [i] else late) atStop (workers.set i (.running cb)) := by
  have hnot : i ∉ late := by
    intro hmem
    obtain ⟨v, hv, hd⟩ := hl.done i hmem
    rw [hi] at hv
    cases hv
    cases hd
  cases isStop with
  | false =>
    obtain ⟨rfl, rfl⟩ := hl.before rfl
    exact ⟨fun _ => ⟨rfl, rfl⟩, .nil, by simp, by simp⟩
  | true =>
    refine ⟨by simp, ?_, fun j hj => ?_, fun j v hv hw => ?_⟩
    · rw [if_pos rfl, List.nodup_append]
      exact ⟨hl.nodup, by simp, by simpa using fun j hj => ne_of_mem_of_not_mem hj hnot⟩
    · rw [getElem?_set_of hi]
      split
      · exact ⟨_, rfl, rfl⟩
      · rename_i hij
        exact hl.done j ((List.mem_append.1 hj).resolve_right (by simpa using Ne.symm hij))
    · rw [getElem?_set_of hi, if_pos rfl, List.mem_append]
      rcases hl.within j v hv hw with hmem | hex
      · exact .inl (.inl hmem)
      · by_cases hij : i = j
        · exact .inl (.inr (by simp [hij]))
        · rw [if_neg hij]
          exact .inr hex

end Late

theorem late_step (hl : Late s.isStop s.late s.atStop s.workers) (h : step s a = some s') :
    Late s'.isStop s'.late s'.atStop s'.workers := by
  cases step_cases h with
  | enter i hi | exit i hi | sleep i hi | finish i cb hi | signal i hi | wake i hi =>
    exact hl.set hi (by simp [Worker.isDone]) (by simp [Worker.isWithin])
  | check i hi hstop =>
    refine hl.set hi (fun hmem => ?_) (by simp [Worker.isWithin])
    rw [(hl.before hstop).1] at hmem
    cases hmem
  | lock i w hi hw => rcases hw with rfl | rfl <;> exact hl.set hi (by simp [Worker.isDone]) (by simp [Worker.isWithin])
  | take i cb tasks hi => exact hl.take hi cb
  | addTask | push | unheard | stopped => exact hl
  | stop hstop =>
    obtain ⟨hlate, -⟩ := hl.before hstop
    refine ⟨by simp, hl.nodup, hl.done, fun i w hi hw => .inr ⟨w, hi, hw⟩⟩

/-- In every interleaving. -/
theorem stopsSoon_always (size : Nat) (acts : List (Act τ)) : Lts.Always step StopsSoon (.new τ size) acts := by
  have hnew : Late false [] [] (State.new τ size).workers := ⟨fun _ => ⟨rfl, rfl⟩, .nil, by simp, by simp⟩
  have hinv : Lts.Always step (fun s => Late s.isStop s.late s.atStop s.workers) (State.new τ size) acts :=
    Lts.always_invariant (fun _ _ _ hl h => late_step hl h) hnew
  refine hinv.imp fun s hl => ⟨hl.nodup, fun i hi => ?_, fun i w hi hw hexit => ?_⟩
  · obtain ⟨w, hw, -⟩ := hl.done i hi
    exact (List.getElem?_eq_some_iff.1 hw).1
  · refine (hl.within i w hi hw).resolve_right ?_
    rintro ⟨w', hw', hwithin⟩
    rw [hexit] at hw'
    cases hw'
    cases hwithin

end Flconc.ThreadPool
