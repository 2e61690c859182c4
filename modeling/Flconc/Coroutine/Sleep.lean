/-
`sleep_hook` of coroutine/coroutine_hook.cc: any number of coroutines that sleep on the timer of their reactor,
against the other callers of the timer and whoever else resumes them.

Nobody is back before the timer says so, and that is after `1000 * seconds` milliseconds as an `unsigned int` has
them. A sleeping coroutine has its event in the timer, unless the deletion of another one overshoots onto it.
-/
import Flconc.Net.TimerCallers

namespace Flconc.Sleep

open Function Timer

/-! ## The model -/

/-- A call of `sleep_hook`, when it was made and for how long. -/
structure Nap where
  start : Int
  seconds : UInt32

/-- The interval of its event: `1000 * seconds`. -/
def Nap.interval (n : Nap) : Int := ((1000 * n.seconds).toNat : Int)

variable {ε : Type}

/-- The timer, and the calls that sleep, each under the name of its event. Those that are back, and when, are
history. -/
structure Sleepers (ε : Type) where
  timer : Clocked ε
  asleep : ε → Option Nap := fun _ => none
  back : List (Nap × Int) := []

inductive Act (ε : Type)
  /-- A coroutine calls `sleep_hook`, and yields. -/
  | sleep (e : ε) (seconds : UInt32)
  /-- Somebody resumes it, and it finds `is_timeout` clear. -/
  | resume (e : ε)
  /-- Another caller of the timer, with an event of its own. -/
  | other (a : Timer.Act ε)
  | onTimer

variable [DecidableEq ε]

namespace Sleepers

def sleep (s : Sleepers ε) (now : Int) (e : ε) (seconds : UInt32) : Option (Sleepers ε) :=
  let n : Nap := ⟨now, seconds⟩
  if (s.asleep e).isSome then none
  else (callerStep s.timer (now, .create e n.interval false)).bind fun t =>
    (callerStep t (now, .addTimerEvent e)).map fun t => { s with timer := t, asleep := update s.asleep e (some n) }

def other (s : Sleepers ε) (now : Int) (a : Timer.Act ε) : Option (Sleepers ε) :=
  match target a with
  | some e => if (s.asleep e).isSome then none else (callerStep s.timer (now, a)).map fun t => { s with timer := t }
  | none => none

/-- The tasks of the events set `is_timeout` and resume their coroutines, which return. -/
def onTimer (s : Sleepers ε) (now : Int) : Option (Sleepers ε) :=
  if now < s.timer.clock then none
  else
    let (timer, fired) := s.timer.timer.onTimer now
    some {
      timer := ⟨timer, now⟩
      asleep := fun e => if e ∈ fired then none else s.asleep e
      back := s.back ++ fired.filterMap fun e => (s.asleep e).map fun n => (n, now) }

end Sleepers

/-- A step at a clock reading. -/
def step (s : Sleepers ε) (na : Int × Act ε) : Option (Sleepers ε) :=
  match na.2 with
  | .sleep e seconds => s.sleep na.1 e seconds
  | .resume e => if (s.asleep e).isSome then some s else none
  | .other a => s.other na.1 a
  | .onTimer => s.onTimer na.1

def start (events : ε → TimerEvent) (clock : Int) : Sleepers ε := { timer := Timer.init events clock }

/-! ## Nobody is back early -/

/-- The events of the calls that sleep stand for the end of their time. -/
structure Inv (s : Sleepers ε) : Prop where
  wf : s.timer.timer.WF
  arrive : ∀ e n, s.asleep e = some n → (s.timer.timer.events e).arriveTime = n.start + n.interval

variable {s s' : Sleepers ε}

theorem sleep_cases {now : Int} {e : ε} {seconds : UInt32} (h : s.sleep now e seconds = some s') :
    ∃ t t', s.asleep e = none ∧ callerStep s.timer (now, .create e (Nap.interval ⟨now, seconds⟩) false) = some t ∧
      callerStep t (now, .addTimerEvent e) = some t' ∧
      s' = { s with timer := t', asleep := update s.asleep e (some ⟨now, seconds⟩) } := by
  obtain ⟨hsome, h⟩ := Option.ite_none_left_eq_some.1 h
  obtain ⟨t, ht, h⟩ := Option.bind_eq_some_iff.1 h
  obtain ⟨t', ht', rfl⟩ := Option.map_eq_some_iff.1 h
  exact ⟨t, t', by simpa using hsome, ht, ht', rfl⟩

theorem other_cases {now : Int} {a : Timer.Act ε} (h : s.other now a = some s') :
    ∃ e t, target a = some e ∧ s.asleep e = none ∧ callerStep s.timer (now, a) = some t ∧
      s' = { s with timer := t } := by
  unfold Sleepers.other at h
  split at h
  · rename_i e he
    obtain ⟨hsome, h⟩ := Option.ite_none_left_eq_some.1 h
    obtain ⟨t, ht, rfl⟩ := Option.map_eq_some_iff.1 h
    exact ⟨e, t, he, by simpa using hsome, ht, rfl⟩
  · cases h

theorem Inv.sleep (hi : Inv s) {now : Int} {e : ε} {seconds : UInt32} (h : s.sleep now e seconds = some s') :
    Inv s' := by
  obtain ⟨t, t', -, ht, ht', rfl⟩ := sleep_cases h
  have hwf : t.timer.WF := callerStep_wf _ _ _ hi.wf ht
  refine ⟨callerStep_wf _ _ _ hwf ht', fun e' n hn => ?_⟩
  have hcreate := (callerStep_eq_some ht).1
  have hadd := (callerStep_eq_some ht').1
  show (t'.timer.events e').arriveTime = _
  rw [hadd]
  show ((t.timer.addTimerEvent e true now).events e').arriveTime = _
  rw [addTimerEvent_events, hcreate]
  change update s.asleep e (some ⟨now, seconds⟩) e' = some n at hn
  by_cases he : e' = e
  · subst he
    rw [update_self] at hn
    cases hn
    simp [after, TimerEvent.new]
  · rw [update_of_ne he] at hn
    rw [events_after now rfl he]
    exact hi.arrive e' n hn

theorem Inv.other (hi : Inv s) {now : Int} {a : Timer.Act ε} (h : s.other now a = some s') : Inv s' := by
  obtain ⟨e, t, htarget, hnone, ht, rfl⟩ := other_cases h
  refine ⟨callerStep_wf _ _ _ hi.wf ht, fun e' n hn => ?_⟩
  have hne : e' ≠ e := by
    rintro rfl
    rw [hnone] at hn
    cases hn
  show (t.timer.events e').arriveTime = _
  rw [(callerStep_eq_some ht).1, events_after now htarget hne]
  exact hi.arrive e' n hn

theorem onTimer_cases {now : Int} (h : s.onTimer now = some s') :
    s'.timer = ⟨(s.timer.timer.onTimer now).1, now⟩ ∧
    (∀ e n, s'.asleep e = some n ↔ e ∉ (s.timer.timer.onTimer now).2 ∧ s.asleep e = some n) ∧
    s'.back = s.back ++ (s.timer.timer.onTimer now).2.filterMap fun e => (s.asleep e).map fun n => (n, now) := by
  obtain ⟨-, h⟩ := Option.ite_none_left_eq_some.1 h
  cases h
  refine ⟨rfl, fun e n => ?_, rfl⟩
  dsimp only
  split
  · rename_i hmem
    exact iff_of_false (fun hn => by cases hn) fun hn => hn.1 hmem
  · rename_i hmem
    exact ⟨fun hn => ⟨hmem, hn⟩, And.right⟩

theorem Inv.onTimer (hi : Inv s) {now : Int} (h : s.onTimer now = some s') : Inv s' := by
  obtain ⟨htimer, hasleep, -⟩ := onTimer_cases h
  constructor
  · rw [htimer]
    exact hi.wf.onTimer now
  · intro e n hn
    obtain ⟨hmem, hn⟩ := (hasleep e n).1 hn
    rw [htimer]
    show ((s.timer.timer.onTimer now).1.events e).arriveTime = _
    rw [onTimer_events, if_neg fun h => hmem h.2]
    exact hi.arrive e n hn

theorem Inv.step {na : Int × Act ε} (hi : Inv s) (h : step s na = some s') : Inv s' := by
  obtain ⟨now, a⟩ := na
  cases a with
  | sleep e seconds => exact hi.sleep h
  | resume e =>
    obtain ⟨-, h⟩ := Option.ite_none_right_eq_some.1 h
    cases h
    exact hi
  | other a => exact hi.other h
  | onTimer => exact hi.onTimer h

/-- Who is back has slept for `1000 * seconds` milliseconds, as an `unsigned int` has them. -/
def NotEarly (s : Sleepers ε) : Prop :=
  ∀ r ∈ s.back, r.1.start + ((1000 * r.1.seconds.toNat % UInt32.size : Nat) : Int) ≤ r.2

theorem interval_eq (n : Nap) : n.interval = ((1000 * n.seconds.toNat % UInt32.size : Nat) : Int) := by
  unfold Nap.interval
  rw [UInt32.toNat_mul]
  rfl

theorem back_step {na : Int × Act ε} (h : step s na = some s') : s'.back = s.back ∨
    ∃ now, na.2 = .onTimer ∧ s.onTimer now = some s' := by
  obtain ⟨now, a⟩ := na
  cases a with
  | sleep e seconds =>
    obtain ⟨_, _, -, -, -, rfl⟩ := sleep_cases h
    exact .inl rfl
  | resume e =>
    obtain ⟨-, h⟩ := Option.ite_none_right_eq_some.1 h
    cases h
    exact .inl rfl
  | other a =>
    obtain ⟨_, _, -, -, -, rfl⟩ := other_cases h
    exact .inl rfl
  | onTimer => exact .inr ⟨now, rfl, h⟩

theorem NotEarly.step {na : Int × Act ε} (hn : NotEarly s) (hi : Inv s) (h : step s na = some s') : NotEarly s' := by
  intro r hr
  rcases back_step h with hback | ⟨now, -, hfire⟩
  · rw [hback] at hr
    exact hn r hr
  · rw [(onTimer_cases hfire).2.2, List.mem_append] at hr
    rcases hr with hr | hr
    · exact hn r hr
    · obtain ⟨e, he, hmap⟩ := List.mem_filterMap.1 hr
      obtain ⟨n, hn', rfl⟩ := Option.map_eq_some_iff.1 hmap
      have hdue := hi.wf.fired_due he
      rw [hi.arrive e n hn', interval_eq] at hdue
      exact hdue

omit [DecidableEq ε] in
theorem Inv.start (events : ε → TimerEvent) (clock : Int) : Inv (start events clock) :=
  ⟨⟨by simp [Sleep.start, Timer.init], by simp [Sleep.start, Timer.init]⟩, fun _ _ h => by cases h⟩

/-- Whoever resumes them and whatever others do to the timer. -/
theorem notEarly_always (events : ε → TimerEvent) (clock : Int) (acts : List (Int × Act ε)) :
    Lts.Always step NotEarly (start events clock) acts := by
  have hstart : NotEarly (Sleep.start events clock) := fun r hr => by simp [Sleep.start] at hr
  exact (Lts.always_invariant (I := fun s => Inv s ∧ NotEarly s)
    (fun _ _ _ hi h => ⟨hi.1.step h, hi.2.step hi.1 h⟩) ⟨Inv.start events clock, hstart⟩).imp fun _ hi => hi.2

/-! ## And everybody is awaited -/

/-- Every call that sleeps has its event in the timer. -/
def Awaited (s : Sleepers ε) : Prop := ∀ e n, s.asleep e = some n → s.timer.timer.Pending e

/-- No deletion overshoots onto the event of a call that sleeps. -/
def Spares (s : Sleepers ε) : Act ε → Prop
  | .other (.delTimerEvent e') => ∀ e n, s.asleep e = some n → ¬ s.timer.timer.Overshoots e' e
  | _ => True

theorem awaited_sleep (hi : Inv s) (ha : Awaited s) {now : Int} {e : ε} {seconds : UInt32}
    (h : s.sleep now e seconds = some s') : Awaited s' := by
  obtain ⟨t, t', -, ht, ht', rfl⟩ := sleep_cases h
  intro e' n hn
  show t'.timer.Pending e'
  rw [(callerStep_eq_some ht').1]
  refine (pending_addTimerEvent_iff true now).2 ?_
  by_cases he : e' = e
  · exact .inl he
  · refine .inr ?_
    change update s.asleep e (some ⟨now, seconds⟩) e' = some n at hn
    rw [update_of_ne he] at hn
    rw [(callerStep_eq_some ht).1]
    exact (hi.wf.pending_other rfl he).2 ⟨ha e' n hn, fun _ heq => by cases heq⟩

theorem awaited_other (hi : Inv s) (ha : Awaited s) {now : Int} {a : Timer.Act ε} (h : s.other now a = some s') :
    Awaited s' ↔ Spares s (.other a) := by
  obtain ⟨e₀, t, htarget, hnone, ht, rfl⟩ := other_cases h
  have hpending : ∀ e n, s.asleep e = some n →
      (t.timer.Pending e ↔ ∀ e', a = .delTimerEvent e' → ¬ s.timer.timer.Overshoots e' e) := by
    intro e n hn
    have hne : e ≠ e₀ := by
      rintro rfl
      rw [hnone] at hn
      cases hn
    rw [(callerStep_eq_some ht).1, hi.wf.pending_other htarget hne]
    exact and_iff_right (ha e n hn)
  cases a with
  | delTimerEvent e' =>
    refine forall₃_congr fun e n hn => (hpending e n hn).trans ⟨fun hall => hall e' rfl, fun hno e'' heq => ?_⟩
    cases heq
    exact hno
  | onTimer => cases htarget
  | _ => exact iff_of_true (fun e n hn => (hpending e n hn).2 fun _ heq => by cases heq) trivial

theorem awaited_onTimer (ha : Awaited s) {now : Int} (h : s.onTimer now = some s') : Awaited s' := by
  obtain ⟨htimer, hasleep, -⟩ := onTimer_cases h
  intro e n hn
  obtain ⟨hmem, hn⟩ := (hasleep e n).1 hn
  rw [htimer]
  exact (pending_onTimer now (ha e n hn)).resolve_right hmem

theorem awaited_iff_spares {na : Int × Act ε} (hi : Inv s) (ha : Awaited s) (h : step s na = some s') :
    Awaited s' ↔ Spares s na.2 := by
  obtain ⟨now, a⟩ := na
  cases a with
  | sleep e seconds => exact iff_of_true (awaited_sleep hi ha h) trivial
  | resume e =>
    obtain ⟨-, h⟩ := Option.ite_none_right_eq_some.1 h
    cases h
    exact iff_of_true ha trivial
  | other a => exact awaited_other hi ha h
  | onTimer => exact iff_of_true (awaited_onTimer ha h) trivial

/-- All the way, just when no deletion on the way overshoots onto a call that sleeps. -/
theorem awaited_iff (events : ε → TimerEvent) (clock : Int) (acts : List (Int × Act ε)) :
    Lts.Always step Awaited (start events clock) acts ↔
      Lts.Along step (fun s na => Spares s na.2) (start events clock) acts :=
  Lts.always_iff_along (fun _ _ _ hi h => Inv.step hi h) (fun _ _ _ hi ha h => awaited_iff_spares hi ha h)
    (Inv.start events clock) fun _ _ h => by cases h

end Flconc.Sleep
