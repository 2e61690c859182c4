/-
The pending tasks of a reactor, net/base/reactor.cc: any number of threads and running tasks call
`addTask`, which pushes under the lock, tests `m_is_looping` and writes the eventfd, while `loop` swaps
the list out, runs it, waits for events and drains the eventfd.

A wake-up is lost when the loop goes to wait although something is pending and nobody is going to write.
The loop swaps the list after it has drained and before it waits, so what is pending while it waits was
pushed after the swap; and `m_is_looping` is set before the first swap, so its producer writes.
-/
import Flconc.Lib.Run
import Mathlib.Algebra.Ring.Nat
import Mathlib.Logic.Function.Basic
import Mathlib.Data.List.Basic
import Mathlib.Data.List.Range

namespace Flconc.Tasks

open Function

/-! ## The model -/

/-- Where a producer is in `addTask`: outside, behind its push, or behind its test of `m_is_looping`
and before its write. The task is the one it pushed. -/
inductive Call
  | idle
  | pushed (task : Nat)
  | waking (task : Nat)
  deriving DecidableEq

/-- The call that pushed the task has not returned. -/
def Call.holds (task : Nat) : Call → Bool
  | .idle => false
  | .pushed t => t = task
  | .waking t => t = task

/-- Where `loop` is: not entered, at the head of its loop before the swap, running the swapped tasks,
in `epoll_wait`, or handling what that returned. -/
inductive Phase
  | notLooping
  | head
  | running
  | waiting
  | batch
  deriving DecidableEq

/-- A task as it was pushed: by a producer, or (none) by the loop as the callback of a descriptor; an
empty `std::function` is not called. -/
structure Posted (π : Type) where
  owner : Option π
  callable : Bool

/-- The reactor with the producers; a task is known by its place among all that were pushed. -/
structure State (π : Type) where
  isLooping : Bool := false
  eventfd : Nat := 0
  pending : List Nat := []
  /-- `tmp_tasks`, from the one that runs next on. -/
  taken : List Nat := []
  phase : Phase := .notLooping
  call : π → Call := fun _ => .idle
  posted : List (Posted π) := []
  /-- The tasks the loop has got through, and the calls it made. -/
  done : List Nat := []
  ran : List Nat := []

inductive Act (π : Type)
  | push (p : π) (callable : Bool)
  | test (p : π)
  | write (p : π)
  /-- `m_is_looping` is set. -/
  | start
  | swap
  | run
  /-- The last task has run. -/
  | wait
  /-- `epoll_wait` returns: the eventfd is ready, or something else, or the time is over. -/
  | wake
  /-- One read of the eventfd. -/
  | drain
  /-- The callback of a descriptor that is ready. -/
  | callback (callable : Bool)
  /-- The batch has been handled. -/
  | next

section

variable {π : Type}

/-- The list after a push under the lock. -/
def State.post (s : State π) (owner : Option π) (callable : Bool) : State π :=
  { s with pending := s.pending ++ [s.posted.length], posted := s.posted ++ [⟨owner, callable⟩] }

/-- A write of 1 to the eventfd, which refuses to pass its largest value. -/
def bump (eventfd : Nat) : Nat := if eventfd < 2 ^ 64 - 2 then eventfd + 1 else eventfd

/-- The task is called if there is something to call. -/
def State.callable (s : State π) (task : Nat) : Bool := s.posted[task]?.any (·.callable)

def runTask (s : State π) : Option (State π) :=
  match s.taken with
  | [] => none
  | t :: rest => some { s with
      taken := rest, done := s.done ++ [t], ran := if s.callable t then s.ran ++ [t] else s.ran }

variable [DecidableEq π]

/-- A producer's step of `addTask(task, true)`. -/
def testLooping (s : State π) (p : π) : Option (State π) :=
  match s.call p with
  | .pushed t => some { s with call := update s.call p (if s.isLooping then .waking t else .idle) }
  | _ => none

def writeEventfd (s : State π) (p : π) : Option (State π) :=
  match s.call p with
  | .waking _ => some { s with call := update s.call p .idle, eventfd := bump s.eventfd }
  | _ => none

def step (s : State π) : Act π → Option (State π)
  | .push p callable =>
    if s.call p = .idle then
      some { s.post (some p) callable with call := update s.call p (.pushed s.posted.length) }
    else none
  | .test p => testLooping s p
  | .write p => writeEventfd s p
  | .start => if s.phase = .notLooping then some { s with isLooping := true, phase := .head } else none
  | .swap => if s.phase = .head then some { s with taken := s.pending, pending := [], phase := .running } else none
  | .run => if s.phase = .running then runTask s else none
  | .wait => if s.phase = .running ∧ s.taken = [] then some { s with phase := .waiting } else none
  | .wake => if s.phase = .waiting then some { s with phase := .batch } else none
  | .drain => if s.phase = .batch then some { s with eventfd := 0 } else none
  | .callback callable => if s.phase = .batch then some (s.post none callable) else none
  | .next => if s.phase = .batch then some { s with phase := .head } else none

end

/-! ## Neither lost, nor doubled, nor stranded -/

variable {π : Type}

/-- The task was pushed by a producer whose call has not returned. -/
def InCall (s : State π) (task : Nat) : Prop :=
  ∃ p callable, s.posted[task]? = some ⟨some p, callable⟩ ∧ (s.call p).holds task = true

/-- What holds in every state. -/
structure Kept (s : State π) : Prop where
  /-- Every task is done, swapped out or pending, in push order. -/
  order : s.done ++ (s.taken ++ s.pending) = List.range s.posted.length
  /-- The calls are those of the tasks that are done, as far as there is something to call. -/
  called : s.ran = s.done.filter fun task => s.posted[task]?.any (·.callable)
  /-- Every task is called at most once, in push order. -/
  once : s.ran.Pairwise (· < ·)
  /-- While the loop is blocked, whoever pushed a pending task is still in `addTask`. -/
  awake : s.phase = .waiting → s.eventfd = 0 → ∀ t ∈ s.pending, InCall s t

/-- The invariant: the tasks in order, and from the swap to the end of the wait everything pending is
covered by a call or by a write that nobody has drained. -/
structure Inv (s : State π) : Prop where
  order : s.done ++ (s.taken ++ s.pending) = List.range s.posted.length
  called : s.ran = s.done.filter s.callable
  looping : s.phase ≠ .notLooping → s.isLooping = true
  settled : s.phase = .head ∨ s.phase = .waiting ∨ s.phase = .batch → s.taken = []
  entered : s.phase = .notLooping → s.taken = []
  covered : s.phase = .running ∨ s.phase = .waiting → s.eventfd = 0 → ∀ t ∈ s.pending, InCall s t

theorem Inv.kept {s : State π} (h : Inv s) : Kept s := by
  refine ⟨h.order, h.called, ?_, fun hp => h.covered (.inr hp)⟩
  have hsub : s.ran.Sublist (List.range s.posted.length) := by
    rw [h.called, ← h.order]
    exact List.filter_sublist.trans (List.sublist_append_left _ _)
  exact List.pairwise_lt_range.sublist hsub

theorem inv_start : Inv ({} : State π) :=
  ⟨rfl, rfl, fun h => absurd rfl h, fun _ => rfl, fun _ => rfl, fun h => by rcases h with h | h <;> cases h⟩

/-! ## Producers -/

theorem lt_of_done {s : State π} (h : s.done ++ (s.taken ++ s.pending) = List.range s.posted.length) {t : Nat}
    (ht : t ∈ s.done) : t < s.posted.length := by
  rw [← List.mem_range, ← h]
  exact List.mem_append_left _ ht

/-- A push appends to what is pending. -/
theorem post_order {s : State π} (h : Inv s) (owner : Option π) (callable : Bool) :
    (s.post owner callable).done ++ ((s.post owner callable).taken ++ (s.post owner callable).pending) =
      List.range (s.post owner callable).posted.length := by
  show s.done ++ (s.taken ++ (s.pending ++ [s.posted.length])) = List.range (s.posted ++ [_]).length
  rw [List.length_append, List.length_singleton, List.range_succ, ← h.order]
  simp only [List.append_assoc]

theorem post_called {s : State π} (h : Inv s) (owner : Option π) (callable : Bool) :
    s.ran = s.done.filter (s.post owner callable).callable := by
  rw [h.called]
  refine List.filter_congr fun t ht => ?_
  show s.posted[t]?.any _ = (s.posted ++ [_])[t]?.any _
  rw [List.getElem?_append_left (lt_of_done h.order ht)]

theorem InCall.post {s : State π} {t : Nat} (h : InCall s t) (owner : Option π) (callable : Bool) :
    InCall (s.post owner callable) t := by
  obtain ⟨p, c, hp, hc⟩ := h
  refine ⟨p, c, ?_, hc⟩
  show (s.posted ++ [_])[t]? = _
  rw [List.getElem?_append_left (List.getElem?_eq_some_iff.1 hp).1, hp]

/-- Running the next task. -/
theorem inv_run {s s' : State π} (h : Inv s) (hphase : s.phase = .running) (hs : runTask s = some s') : Inv s' := by
  unfold runTask at hs
  split at hs
  · cases hs
  · rename_i t rest htaken
    cases hs
    have hnot : ¬ (s.phase = .head ∨ s.phase = .waiting ∨ s.phase = .batch) := by
      rw [hphase]
      rintro (hc | hc | hc) <;> cases hc
    refine ⟨?_, ?_, h.looping, fun hc => absurd hc hnot, fun hc => ?_, h.covered⟩
    · show s.done ++ [t] ++ (rest ++ s.pending) = _
      rw [← h.order, htaken]
      simp
    · show (if s.callable t then s.ran ++ [t] else s.ran) = (s.done ++ [t]).filter s.callable
      rw [List.filter_append, List.filter_singleton, ← h.called]
      cases s.callable t <;> simp
    · change s.phase = .notLooping at hc
      rw [hphase] at hc
      cases hc

variable [DecidableEq π]

/-- Another producer's move leaves a call as it is. -/
theorem InCall.update {s : State π} {t : Nat} (h : InCall s t) {p : π} {c : Call}
    (hp : (s.call p).holds t = true → c.holds t = true) :
    InCall { s with call := Function.update s.call p c } t := by
  obtain ⟨q, callable, hq, hc⟩ := h
  refine ⟨q, callable, hq, ?_⟩
  show (Function.update s.call p c q).holds t = true
  by_cases hqp : q = p
  · subst hqp
    rw [Function.update_self]
    exact hp hc
  · rw [Function.update_of_ne hqp]
    exact hc

theorem inv_push {s : State π} (h : Inv s) {p : π} (hidle : s.call p = .idle) (callable : Bool) :
    Inv { s.post (some p) callable with call := update s.call p (.pushed s.posted.length) } := by
  refine ⟨post_order h _ _, post_called h _ _, h.looping, h.settled, h.entered, fun hphase h0 t ht => ?_⟩
  rcases List.mem_append.1 ht with ht | ht
  · refine InCall.update ((h.covered hphase h0 t ht).post (some p) callable) fun hholds => ?_
    change (s.call p).holds t = true at hholds
    rw [hidle] at hholds
    cases hholds
  · -- the new task: its producer has just pushed it
    obtain rfl := List.mem_singleton.1 ht
    refine ⟨p, callable, ?_, ?_⟩
    · show (s.posted ++ [_])[s.posted.length]? = _
      simp
    · show (update s.call p _ p).holds _ = true
      rw [update_self]
      exact decide_eq_true rfl

theorem inv_test {s s' : State π} (h : Inv s) {p : π} (hs : testLooping s p = some s') : Inv s' := by
  unfold testLooping at hs
  split at hs
  · rename_i t hcall
    cases hs
    refine ⟨h.order, h.called, h.looping, h.settled, h.entered, fun hphase h0 u hu => ?_⟩
    have hlooping : s.isLooping = true := by
      refine h.looping fun hno => ?_
      change s.phase = .running ∨ s.phase = .waiting at hphase
      rw [hno] at hphase
      rcases hphase with hphase | hphase <;> cases hphase
    refine InCall.update (h.covered hphase h0 u hu) fun hholds => ?_
    rw [hcall] at hholds
    rw [if_pos hlooping]
    exact hholds
  · cases hs

theorem bump_pos (n : Nat) : 0 < bump n := by
  unfold bump
  split <;> omega

theorem inv_write {s s' : State π} (h : Inv s) {p : π} (hs : writeEventfd s p = some s') : Inv s' := by
  unfold writeEventfd at hs
  split at hs
  · cases hs
    refine ⟨h.order, h.called, h.looping, h.settled, h.entered, fun _ h0 => ?_⟩
    exact absurd h0 (Nat.ne_of_gt (bump_pos _))
  · cases hs

/-! ## The loop -/

omit [DecidableEq π] in
/-- In the batch no pending task has to be covered. -/
theorem not_covered {s : State π} (hphase : s.phase = .batch) : ¬ (s.phase = .running ∨ s.phase = .waiting) := by
  rw [hphase]
  rintro (hc | hc) <;> cases hc

theorem inv_step {s s' : State π} {a : Act π} (h : Inv s) (hs : step s a = some s') : Inv s' := by
  cases a with
  | push p callable =>
    obtain ⟨hidle, hs⟩ := Option.ite_none_right_eq_some.1 hs
    cases hs
    exact inv_push h hidle callable
  | test p => exact inv_test h hs
  | write p => exact inv_write h hs
  | run =>
    obtain ⟨hphase, hs⟩ := Option.ite_none_right_eq_some.1 hs
    exact inv_run h hphase hs
  | start =>
    obtain ⟨hphase, hs⟩ := Option.ite_none_right_eq_some.1 hs
    cases hs
    exact ⟨h.order, h.called, fun _ => rfl, fun _ => h.entered hphase, nofun, nofun⟩
  | swap =>
    obtain ⟨hphase, hs⟩ := Option.ite_none_right_eq_some.1 hs
    cases hs
    have htaken := h.settled (.inl hphase)
    refine ⟨?_, h.called, fun _ => h.looping (by rw [hphase]; nofun), nofun, nofun, fun _ _ => nofun⟩
    show s.done ++ (s.pending ++ []) = _
    rw [← h.order, htaken, List.append_nil, List.nil_append]
  | wait =>
    obtain ⟨hphase, hs⟩ := Option.ite_none_right_eq_some.1 hs
    cases hs
    exact ⟨h.order, h.called, fun _ => h.looping (by rw [hphase.1]; nofun), fun _ => hphase.2, nofun,
      fun _ => h.covered (.inl hphase.1)⟩
  | wake =>
    obtain ⟨hphase, hs⟩ := Option.ite_none_right_eq_some.1 hs
    cases hs
    exact ⟨h.order, h.called, fun _ => h.looping (by rw [hphase]; nofun),
      fun _ => h.settled (.inr (.inl hphase)), nofun, nofun⟩
  | drain =>
    obtain ⟨hphase, hs⟩ := Option.ite_none_right_eq_some.1 hs
    cases hs
    exact ⟨h.order, h.called, h.looping, h.settled, h.entered, fun hc => absurd hc (not_covered hphase)⟩
  | callback callable =>
    obtain ⟨hphase, hs⟩ := Option.ite_none_right_eq_some.1 hs
    cases hs
    exact ⟨post_order h _ _, post_called h _ _, h.looping, h.settled, h.entered,
      fun hc => absurd hc (not_covered hphase)⟩
  | next =>
    obtain ⟨hphase, hs⟩ := Option.ite_none_right_eq_some.1 hs
    cases hs
    exact ⟨h.order, h.called, fun _ => h.looping (by rw [hphase]; nofun),
      fun _ => h.settled (.inr (.inr hphase)), nofun, nofun⟩

/-- Over every interleaving of any number of producers with the loop. -/
theorem tasks_kept {s : State π} (hr : Lts.Reachable step ({} : State π) s) : Kept s :=
  (hr.invariant inv_start fun _ _ _ h hs => inv_step h hs).kept

/-- A task posted before the loop starts, whose producer finds that it does not loop, an empty one behind it, one
posted while it runs, and the loop waiting with that one's wake-up on its way: the first has been called. -/
theorem tasks_kept_two : ∃ s, Lts.run step ({} : State (Fin 2))
      [.push 0 true, .test 0, .push 0 false, .test 0, .start, .swap, .push 1 true, .run, .run, .test 1, .wait] =
        some s ∧
    s.phase = .waiting ∧ s.eventfd = 0 ∧ s.pending = [2] ∧ s.done = [0, 1] ∧ s.ran = [0] ∧ Kept s := by
  obtain ⟨s, hs, h1, h2, h3, h4, h5⟩ : ∃ s, Lts.run step ({} : State (Fin 2))
      [.push 0 true, .test 0, .push 0 false, .test 0, .start, .swap, .push 1 true, .run, .run, .test 1, .wait] =
        some s ∧
    s.phase = .waiting ∧ s.eventfd = 0 ∧ s.pending = [2] ∧ s.done = [0, 1] ∧ s.ran = [0] :=
    ⟨_, rfl, rfl, rfl, rfl, rfl, rfl⟩
  exact ⟨s, hs, h1, h2, h3, h4, h5, tasks_kept ⟨_, hs⟩⟩

end Flconc.Tasks
