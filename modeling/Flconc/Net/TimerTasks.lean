/-
The tasks of net/base/timer.cc: which of them `onTimer` runs, and what may happen to the timer while
it runs them.

`onTimer` collects from the front of the map, up to the first entry that is not due or is cancelled.
So it runs exactly the tasks of the due live entries when no cancelled entry stands in front of one.
It takes a copy of every task before it runs the first, so an event that is deleted by a task of
its own batch still has its copy run.
-/
import Flconc.Net.Timer
import Flconc.Lib.Loop

namespace Flconc.Timer

open Function

variable {ε : Type}

/-! ## What is due -/

/-- The entry is due and its event is not cancelled. -/
def live (t : Timer ε) (now : Int) (p : Int × ε) : Bool := decide (p.1 ≤ now) && !(t.events p.2).isCancled

theorem live_iff {t : Timer ε} {now : Int} {p : Int × ε} :
    t.live now p = true ↔ p.1 ≤ now ∧ (t.events p.2).isCancled = false := by
  simp [live]

/-- No cancelled entry stands in front of an entry that is due and not cancelled. -/
def NoneBehindCancled (t : Timer ε) (now : Int) : Prop :=
  t.pendingEvents.entries.Pairwise fun p q =>
    (t.events p.2).isCancled = true → q.1 ≤ now → (t.events q.2).isCancled = true

instance (t : Timer ε) (now : Int) : Decidable (t.NoneBehindCancled now) := by
  unfold NoneBehindCancled
  infer_instance

/-- The collected entries are the due live ones exactly when none of these is behind a cancelled one. -/
theorem due_eq_filter_iff (t : Timer ε) (now : Int) :
    t.due now = t.pendingEvents.entries.filter (t.live now) ↔ t.NoneBehindCancled now := by
  show t.pendingEvents.entries.takeWhile (t.live now) = _ ↔ _
  rw [Loop.takeWhile_eq_filter_iff]
  simp only [live_iff]
  constructor
  · intro h
    refine h.imp fun {p q} hpq hc hq => ?_
    by_contra hne
    have := (hpq ⟨hq, Bool.eq_false_of_not_eq_true hne⟩).2
    rw [hc] at this
    cases this
  · intro h
    refine (h.and t.pendingEvents.sorted).imp ?_
    rintro p q ⟨hpq, hle⟩ ⟨hq, hlive⟩
    refine ⟨hle.trans hq, Bool.eq_false_of_not_eq_true fun hc => ?_⟩
    rw [hpq hc hq] at hlive
    cases hlive

/-! ## Queueing again -/

variable [DecidableEq ε]

theorem requeue_interval (now : Int) (t : Timer ε) (p : Int × ε) (e : ε) :
    ((requeue now t p).events e).interval = (t.events e).interval ∧
      ((requeue now t p).events e).isRepeated = (t.events e).isRepeated := by
  unfold requeue
  split
  · rw [addTimerEvent_events]
    by_cases he : e = p.2
    · subst he
      simp [TimerEvent.resetTime]
    · simp [he]
  · exact ⟨rfl, rfl⟩

/-- Of an event, queueing the entries again changes the arrive time and the flag, if it is repeated
and among them. -/
theorem foldl_requeue_events (now : Int) (e : ε) : ∀ (l : List (Int × ε)) (t : Timer ε),
    (l.foldl (requeue now) t).events e =
      if (t.events e).isRepeated = true ∧ e ∈ l.map (·.2) then (t.events e).resetTime now else t.events e
  | [], t => by simp
  | p :: l, t => by
    obtain ⟨hint, hrep⟩ := requeue_interval now t p e
    rw [List.foldl_cons, foldl_requeue_events now e l, hrep]
    by_cases hr : (t.events e).isRepeated = true
    · by_cases he : e = p.2
      · subst he
        have hev : (requeue now t p).events p.2 = (t.events p.2).resetTime now := by
          simp [requeue, hr]
        simp [hr, hev, TimerEvent.resetTime]
      · have hev : (requeue now t p).events e = t.events e := by
          unfold requeue
          split
          · simp [he]
          · rfl
        have hmem : e ∈ (p :: l).map (·.2) ↔ e ∈ l.map (·.2) := by simp [he]
        rw [hev]
        simp only [hmem]
    · have hev : (requeue now t p).events e = t.events e := by
        unfold requeue
        split
        · rename_i hp
          have he : e ≠ p.2 := fun h => hr (h ▸ hp)
          simp [he]
        · rfl
      simp only [hr, hev, Bool.false_eq_true, false_and, if_false]

/-- The entries of the repeated events come back under `now` plus their intervals. -/
theorem foldl_requeue_entries (now : Int) : ∀ (l : List (Int × ε)) (t : Timer ε),
    (l.foldl (requeue now) t).pendingEvents.entries.Perm (t.pendingEvents.entries ++
      (l.filter fun p => (t.events p.2).isRepeated).map fun p => (now + (t.events p.2).interval, p.2))
  | [], t => by simp
  | p :: l, t => by
    have ih := foldl_requeue_entries now l (requeue now t p)
    simp only [fun q : Int × ε => (requeue_interval now t p q.2).1,
      fun q : Int × ε => (requeue_interval now t p q.2).2] at ih
    rw [List.foldl_cons]
    refine ih.trans ?_
    by_cases hr : (t.events p.2).isRepeated = true
    · have hent : (requeue now t p).pendingEvents.entries.Perm
          ((now + (t.events p.2).interval, p.2) :: t.pendingEvents.entries) := by
        unfold requeue
        rw [if_pos hr, addTimerEvent_pendingEvents]
        have harr : (update t.events p.2 ((t.events p.2).resetTime now) p.2).arriveTime =
            now + (t.events p.2).interval := by simp [TimerEvent.resetTime]
        unfold insert
        rw [harr]
        exact t.pendingEvents.emplace_perm _ _
      rw [List.filter_cons, if_pos hr, List.map_cons]
      exact (hent.append_right _).trans List.perm_middle.symm
    · have hent : (requeue now t p).pendingEvents.entries = t.pendingEvents.entries := by
        simp [requeue, hr]
      rw [List.filter_cons, if_neg hr, hent]

theorem onTimer_entries (t : Timer ε) (now : Int) : (t.onTimer now).1.pendingEvents.entries.Perm
    (t.pendingEvents.entries.drop (t.due now).length ++
      ((t.due now).filter fun p => (t.events p.2).isRepeated).map fun p => (now + (t.events p.2).interval, p.2)) := by
  unfold onTimer
  rw [resetArriveTime_pendingEvents]
  exact foldl_requeue_entries now _ _

theorem onTimer_events (t : Timer ε) (now : Int) (e : ε) : (t.onTimer now).1.events e =
    if (t.events e).isRepeated = true ∧ e ∈ (t.onTimer now).2 then (t.events e).resetTime now else t.events e := by
  unfold onTimer
  rw [resetArriveTime_events]
  exact foldl_requeue_events now e _ _

/-! ## One `onTimer` -/

/-- `onTimer` runs the tasks of the due live entries, each once and in the order of the map, which is
the order of the arrive times. What is not due stays, each repeated event that was run is queued
once under its new arrive time, and of the rest only cancelled entries that are due may stay. -/
structure FiresDue (t : Timer ε) (now : Int) : Prop where
  ran : (t.onTimer now).2 = (t.pendingEvents.entries.filter (t.live now)).map (·.2)
  pending : ∃ rest, rest.Sublist (t.pendingEvents.entries.filter fun p =>
      decide (p.1 ≤ now) && (t.events p.2).isCancled) ∧
    (t.onTimer now).1.pendingEvents.entries.Perm
      (t.pendingEvents.entries.filter (fun p => decide (now < p.1)) ++
        (((t.pendingEvents.entries.filter (t.live now)).filter fun p => (t.events p.2).isRepeated).map
          fun p => (now + (t.events p.2).interval, p.2)) ++ rest)
  arrive : ∀ p ∈ t.pendingEvents.entries, t.live now p = true → (t.events p.2).isRepeated = true →
    ((t.onTimer now).1.events p.2).arriveTime = now + (t.events p.2).interval

omit [DecidableEq ε] in
/-- Behind the collected entries stands what is not due, and the due entries that are cancelled. -/
theorem drop_due_perm {t : Timer ε} {now : Int} (h : t.due now = t.pendingEvents.entries.filter (t.live now)) :
    (t.pendingEvents.entries.drop (t.due now).length).Perm
      (t.pendingEvents.entries.filter (fun p => decide (now < p.1)) ++
        t.pendingEvents.entries.filter fun p => decide (p.1 ≤ now) && (t.events p.2).isCancled) := by
  have hsplit := due_append_rest t now
  generalize t.pendingEvents.entries.drop (t.due now).length = rest at hsplit
  have hdue : ∀ p ∈ t.due now, t.live now p = true := fun p hp => by
    rw [h] at hp
    exact (List.mem_filter.1 hp).2
  have hrest : ∀ p ∈ rest, t.live now p = false := by
    have hnil : rest.filter (t.live now) = [] := by
      rw [← hsplit, List.filter_append, List.filter_eq_self.2 hdue] at h
      exact List.self_eq_append_right.1 h
    exact fun p hp => Bool.eq_false_of_not_eq_true (List.filter_eq_nil_iff.1 hnil p hp)
  have hlate : t.pendingEvents.entries.filter (fun p => decide (now < p.1)) =
      rest.filter fun p => decide (now < p.1) := by
    rw [← hsplit, List.filter_append, List.filter_eq_nil_iff.2, List.nil_append]
    intro p hp
    simpa using (live_iff.1 (hdue p hp)).1
  have hcancled : t.pendingEvents.entries.filter (fun p => decide (p.1 ≤ now) && (t.events p.2).isCancled) =
      rest.filter fun p => !decide (now < p.1) := by
    rw [← hsplit, List.filter_append, List.filter_eq_nil_iff.2, List.nil_append]
    · refine List.filter_congr fun p hp => ?_
      have hp := hrest p hp
      simp only [live, Bool.and_eq_false_iff, Bool.not_eq_eq_eq_not, Bool.not_false] at hp
      by_cases hle : p.1 ≤ now
      · simp [hle, not_lt.2 hle, hp.resolve_left (by simp [hle])]
      · simp [hle, lt_of_not_ge hle]
    · intro p hp
      simp [(live_iff.1 (hdue p hp)).2]
  rw [hlate, hcancled]
  exact (List.filter_append_perm _ rest).symm

/-- `onTimer` fires exactly the due events when none of them is behind a cancelled one. -/
theorem firesDue_iff (t : Timer ε) (now : Int) : t.FiresDue now ↔ t.NoneBehindCancled now := by
  rw [← due_eq_filter_iff]
  constructor
  · intro h
    have hlen := congrArg List.length h.ran
    rw [List.length_map] at hlen
    have hsub : (t.due now).Sublist (t.pendingEvents.entries.filter (t.live now)) := by
      have hdue : (t.due now).filter (t.live now) = t.due now :=
        List.filter_eq_self.2 fun p hp => List.mem_takeWhile_imp hp
      rw [← hdue]
      exact (List.takeWhile_sublist _).filter _
    refine hsub.eq_of_length ?_
    rw [← hlen]
    exact (List.length_map _).symm
  · intro h
    refine ⟨by rw [← h]; rfl, ⟨_, List.Sublist.refl _, ?_⟩, fun p hp hlive hrep => ?_⟩
    · have hent := (onTimer_entries t now).trans ((drop_due_perm h).append_right _)
      rw [h] at hent
      refine hent.trans ?_
      rw [List.append_assoc, List.append_assoc]
      exact List.perm_append_comm.append_left _
    · have hmem : p.2 ∈ (t.onTimer now).2 := by
        show p.2 ∈ (t.due now).map (·.2)
        rw [h]
        exact List.mem_map_of_mem (List.mem_filter.2 ⟨hp, hlive⟩)
      rw [onTimer_events, if_pos ⟨hrep, hmem⟩]
      rfl

/-- Two events for 100, the first of them cancelled at 50. -/
def cancledAhead : Clocked Nat :=
  (Lts.run callerStep idle [(0, .create 0 100 false), (0, .addTimerEvent 0), (0, .create 1 100 false),
    (0, .addTimerEvent 1), (50, .cancle 0)]).getD idle

theorem not_firesDue_cancledAhead : ¬ ∀ (t : Timer Nat) (now : Int), t.FiresDue now := by
  intro h
  -- the second event is due and live, and its task is not run
  have hran := (h cancledAhead.timer 100).ran
  exact absurd hran (by decide)

/-! ## Running the tasks -/

/-- A timer and the tasks `onTimer` has still to run, with what has been deleted and not added since. -/
structure Batch (ε : Type) where
  timer : Timer ε
  clock : Int
  tasks : List ε
  deleted : ε → Bool

inductive BatchAct (ε : Type)
  /-- A call, from the task that is running or from outside; `onTimer` up to its tasks. -/
  | call (a : Act ε)
  /-- `onTimer` runs the next task. -/
  | runTask

namespace Batch

/-- A new object is made under a name nobody has, and `onTimer` is not called from its tasks. -/
def Enabled (s : Batch ε) : Act ε → Prop
  | .create e _ _ => ¬ s.timer.Pending e ∧ e ∉ s.tasks
  | .onTimer => s.tasks = []
  | _ => True

instance (s : Batch ε) (a : Act ε) : Decidable (s.Enabled a) := by
  cases a <;> unfold Enabled <;> infer_instance

def call (s : Batch ε) (now : Int) (a : Act ε) : Batch ε where
  timer := s.timer.after now a
  clock := now
  tasks := match a with
    | .onTimer => (s.timer.onTimer now).2
    | _ => s.tasks
  deleted := match a with
    | .create e _ _ | .addTimerEvent e => update s.deleted e false
    | .delTimerEvent e => update s.deleted e true
    | _ => s.deleted

def step (s : Batch ε) (na : Int × BatchAct ε) : Option (Batch ε) :=
  let (now, a) := na
  if now < s.clock then none
  else
    match a with
    | .call a => if s.Enabled a then some (s.call now a) else none
    | .runTask =>
      match s.tasks with
      | [] => none
      | _ :: tasks => some { s with clock := now, tasks := tasks }

/-- A timer just made, outside `onTimer`. -/
def init (events : ε → TimerEvent) (clock : Int) : Batch ε :=
  ⟨⟨events, .empty, none⟩, clock, [], fun _ => false⟩

/-! ## Deleted events -/

/-- No task of a deleted event is among those that `onTimer` goes on to run. -/
def NoneDeleted (s : Batch ε) : Prop := ∀ e ∈ s.tasks, s.deleted e = false

/-- The task that is run is not of a deleted event. -/
def RunsLive (s : Batch ε) (na : Int × BatchAct ε) : Prop :=
  na.2 = .runTask → ∀ e ∈ s.tasks.head?, s.deleted e = false

instance (s : Batch ε) : (na : Int × BatchAct ε) → Decidable (RunsLive s na)
  | (_, .call _) => .isTrue nofun
  | (_, .runTask) => decidable_of_iff (∀ e ∈ s.tasks.head?, s.deleted e = false) (by simp [RunsLive])

/-- An event is not deleted while its task is copied and has still to run. -/
def DeletesOutside (s : Batch ε) (na : Int × BatchAct ε) : Prop :=
  ∀ e, na.2 = .call (.delTimerEvent e) → e ∉ s.tasks

/-- A deleted event stays cancelled, so it is not collected. -/
def Inv (s : Batch ε) : Prop := ∀ e, s.deleted e = true → (s.timer.events e).isCancled = true

/-- What a step does. -/
theorem step_cases {s s' : Batch ε} {now : Int} {a : BatchAct ε} (h : step s (now, a) = some s') :
    (∃ c, a = .call c ∧ s.Enabled c ∧ s' = s.call now c) ∨
      ∃ e tasks, a = .runTask ∧ s.tasks = e :: tasks ∧ s' = { s with clock := now, tasks := tasks } := by
  unfold step at h
  obtain ⟨-, h⟩ := Option.ite_none_left_eq_some.1 h
  cases a with
  | call c =>
    obtain ⟨hen, h⟩ := Option.ite_none_right_eq_some.1 h
    exact .inl ⟨c, rfl, hen, (Option.some.inj h).symm⟩
  | runTask =>
    cases ht : s.tasks with
    | nil =>
      rw [ht] at h
      cases h
    | cons e tasks =>
      rw [ht] at h
      exact .inr ⟨e, tasks, rfl, rfl, (Option.some.inj h).symm⟩

omit [DecidableEq ε] in
/-- A cancelled event is not collected. -/
theorem not_mem_due {t : Timer ε} {now : Int} {e : ε} (h : (t.events e).isCancled = true) :
    e ∉ (t.due now).map (·.2) := by
  intro hm
  obtain ⟨p, hp, rfl⟩ := List.mem_map.1 hm
  have hlive : t.live now p = true := List.mem_takeWhile_imp hp
  rw [(live_iff.1 hlive).2] at h
  cases h

theorem step_inv (s : Batch ε) (na : Int × BatchAct ε) (s' : Batch ε) (hi : s.Inv) (h : step s na = some s') :
    s'.Inv := by
  obtain ⟨now, a⟩ := na
  rcases step_cases h with ⟨c, rfl, -, rfl⟩ | ⟨e, tasks, rfl, -, rfl⟩
  · intro e he
    cases c with
    | create e' interval isRepeated =>
      have hne : e ≠ e' := by
        rintro rfl
        simp [call] at he
      simp only [call, update_of_ne hne] at he
      simpa [call, after, hne] using hi e he
    | cancle e' =>
      show (update s.timer.events e' (s.timer.events e').cancle e).isCancled = true
      by_cases heq : e = e'
      · subst heq
        simp [TimerEvent.cancle]
      · rw [update_of_ne heq]
        exact hi e he
    | addTimerEvent e' =>
      have hne : e ≠ e' := by
        rintro rfl
        simp [call] at he
      simp only [call, update_of_ne hne] at he
      show ((s.timer.addTimerEvent e' true now).events e).isCancled = true
      rw [addTimerEvent_events]
      exact hi e he
    | delTimerEvent e' =>
      show (update s.timer.events e' (s.timer.events e').cancle e).isCancled = true
      by_cases heq : e = e'
      · subst heq
        simp [TimerEvent.cancle]
      · simp only [call, update_of_ne heq] at he
        rw [update_of_ne heq]
        exact hi e he
    | onTimer =>
      have hc := hi e he
      show ((s.timer.onTimer now).1.events e).isCancled = true
      rw [onTimer_events, if_neg fun hr => not_mem_due hc hr.2]
      exact hc
  · exact hi

/-- The step lemma: no task of a deleted event is left to run exactly when the step deletes none of
those whose task is. -/
theorem step_noneDeleted (s : Batch ε) (na : Int × BatchAct ε) (s' : Batch ε) (hi : s.Inv)
    (hn : s.NoneDeleted) (h : step s na = some s') : s'.NoneDeleted ↔ DeletesOutside s na := by
  obtain ⟨now, a⟩ := na
  rcases step_cases h with ⟨c, rfl, hen, rfl⟩ | ⟨e, tasks, rfl, ht, rfl⟩
  · cases c with
    | create e' interval isRepeated =>
      refine iff_of_true (fun e he => ?_) nofun
      have hne : e ≠ e' := fun heq => hen.2 (heq ▸ he)
      simpa [call, hne] using hn e he
    | cancle e' => exact iff_of_true hn nofun
    | addTimerEvent e' =>
      refine iff_of_true (fun e he => ?_) nofun
      by_cases heq : e = e'
      · simp [call, heq]
      · simpa [call, heq] using hn e he
    | delTimerEvent e' =>
      constructor
      · intro hn' e heq he
        cases heq
        have hdel : update s.deleted e' true e' = false := hn' e' he
        simp at hdel
      · intro hout e he
        have hne : e ≠ e' := by
          rintro rfl
          exact hout e rfl he
        simpa [call, hne] using hn e he
    | onTimer =>
      refine iff_of_true (fun e he => ?_) nofun
      refine Bool.eq_false_of_not_eq_true fun hd => ?_
      exact not_mem_due (hi e hd) he
  · refine iff_of_true (fun e' he => hn e' ?_) nofun
    rw [ht]
    exact List.mem_cons_of_mem e he

omit [DecidableEq ε] in
theorem NoneDeleted.runsLive {s : Batch ε} (h : s.NoneDeleted) (na : Int × BatchAct ε) : RunsLive s na :=
  fun _ e he => h e (List.mem_of_mem_head? he)

/-- The loop of `onTimer` runs what it has copied: a deleted event among the rest of the batch has its
task run. -/
theorem not_runsLive_of_deleted {e : ε} : ∀ (tasks : List ε) {s : Batch ε}, s.tasks = tasks → e ∈ tasks →
    s.deleted e = true → ¬ Lts.Along step RunsLive s (List.replicate tasks.length (s.clock, .runTask))
  | e' :: tasks, s, ht, he, hd => by
    intro h
    have hstep : step s (s.clock, .runTask) = some { s with tasks := tasks } := by
      simp [step, ht]
    rw [List.length_cons, List.replicate_succ] at h
    obtain ⟨hlive, hrest⟩ := h _ hstep
    rcases List.mem_cons.1 he with rfl | he
    · have hfalse := hlive rfl e (by rw [ht]; rfl)
      rw [hd] at hfalse
      cases hfalse
    · exact not_runsLive_of_deleted tasks (s := { s with tasks := tasks }) rfl he hd hrest

/-- In every run, no task of a deleted event is run or left to be run exactly when no event is
deleted between the copying of its task and the running of the copy. -/
theorem noneDeleted_iff (events : ε → TimerEvent) (clock : Int) (as : List (Int × BatchAct ε)) :
    Lts.Always step NoneDeleted (init events clock) as ∧ Lts.Along step RunsLive (init events clock) as ↔
      Lts.Along step DeletesOutside (init events clock) as := by
  have hiff : Lts.Always step NoneDeleted (init events clock) as ↔
      Lts.Along step DeletesOutside (init events clock) as :=
    Lts.always_iff_along step_inv step_noneDeleted nofun nofun
  rw [← hiff]
  constructor
  · exact And.left
  · intro h
    exact ⟨h, h.along fun s na hs => hs.runsLive na⟩

/-- Two events for 100; the task of the first deletes the second. -/
def deletesNext : List (Int × BatchAct Nat) :=
  [(0, .call (.create 0 100 false)), (0, .call (.addTimerEvent 0)), (0, .call (.create 1 100 false)),
    (0, .call (.addTimerEvent 1)), (100, .call .onTimer), (100, .runTask), (100, .call (.delTimerEvent 1))]

/-- The second task is run all the same. -/
theorem not_runsLive_deletesNext : ¬ Lts.Along step RunsLive (init (fun _ => ⟨0, 0, false, false⟩) 0)
    (deletesNext ++ [(100, .runTask)]) := by
  decide

end Batch

end Flconc.Timer
