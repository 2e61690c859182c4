/-
A repeated event of net/base/timer.cc and what its task works on: the time wheel, the server and the logger each add
one to the timer of the main reactor and leave it there. The other callers of the timer have events of their own.

The task runs at an interval or more. The event stays in the timer, unless the deletion of another one overshoots
onto it; and while the reactor is never later than some time, neither is the task.
-/
import Flconc.Lib.Pace
import Flconc.Net.TimerCallers
import Mathlib.Algebra.Order.Group.Int

namespace Flconc.Periodic

open Function Timer

/-! ## The model -/

/-- What the task does at a clock reading, and what else happens to what it works on. -/
structure Job (σ α : Type) where
  task : σ → Int → σ
  act : σ → Int → α → Option σ

/-- The timer, and what the task works on. The times at which the event was made and its task has run are
history. -/
structure State (ε σ : Type) where
  timer : Clocked ε
  world : σ
  beats : List Int

inductive Act (ε α : Type)
  /-- Another caller of the timer, with an event of its own. -/
  | other (a : Timer.Act ε)
  | onTimer
  /-- Something that is not about the timer. -/
  | act (a : α)

variable {ε σ α : Type} [DecidableEq ε]

namespace State

def other (event : ε) (s : State ε σ) (now : Int) (a : Timer.Act ε) : Option (State ε σ) :=
  match target a with
  | some e => if e = event then none else (callerStep s.timer (now, a)).map fun t => { s with timer := t }
  | none => none

def onTimer (event : ε) (job : Job σ α) (s : State ε σ) (now : Int) : Option (State ε σ) :=
  if now < s.timer.clock then none
  else
    let (timer, fired) := s.timer.timer.onTimer now
    some (if event ∈ fired then ⟨⟨timer, now⟩, job.task s.world now, s.beats ++ [now]⟩
      else { s with timer := ⟨timer, now⟩ })

def act (job : Job σ α) (s : State ε σ) (now : Int) (a : α) : Option (State ε σ) :=
  if now < s.timer.clock then none
  else (job.act s.world now a).map fun world => { s with timer := ⟨s.timer.timer, now⟩, world := world }

end State

/-- A step at a clock reading. -/
def step (event : ε) (job : Job σ α) (s : State ε σ) (na : Int × Act ε α) : Option (State ε σ) :=
  match na.2 with
  | .other a => s.other event na.1 a
  | .onTimer => s.onTimer event job na.1
  | .act a => s.act job na.1 a

/-- A timer before the event is made, whatever events of others are in it. -/
structure Before (event : ε) extends Clocked ε where
  wf : timer.WF
  free : ¬ timer.Pending event

/-- The event is made and added to the timer. -/
def start {event : ε} (interval : Int) (t : Before event) (world : σ) : State ε σ :=
  let timer := (t.timer.after t.clock (.create event interval true)).after t.clock (.addTimerEvent event)
  ⟨⟨timer, t.clock⟩, world, [t.clock]⟩

/-! ## What a step does -/

variable {event : ε} {job : Job σ α} {s s' : State ε σ} {interval : Int}

inductive StepCases (event : ε) (job : Job σ α) (s : State ε σ) : Int × Act ε α → State ε σ → Prop
  | other (now : Int) (a : Timer.Act ε) (e : ε) : s.timer.clock ≤ now → target a = some e → e ≠ event →
      (s.timer.timer.after now a).WF →
      StepCases event job s (now, .other a) { s with timer := ⟨s.timer.timer.after now a, now⟩ }
  | beat (now : Int) : s.timer.clock ≤ now → event ∈ (s.timer.timer.onTimer now).2 →
      StepCases event job s (now, .onTimer)
        ⟨⟨(s.timer.timer.onTimer now).1, now⟩, job.task s.world now, s.beats ++ [now]⟩
  | wait (now : Int) : s.timer.clock ≤ now → event ∉ (s.timer.timer.onTimer now).2 →
      StepCases event job s (now, .onTimer) { s with timer := ⟨(s.timer.timer.onTimer now).1, now⟩ }
  | act (now : Int) (a : α) (world : σ) : s.timer.clock ≤ now → job.act s.world now a = some world →
      StepCases event job s (now, .act a) { s with timer := ⟨s.timer.timer, now⟩, world := world }

theorem callerStep_clock {s s' : Clocked ε} {now : Int} {a : Timer.Act ε} (h : callerStep s (now, a) = some s') :
    s.clock ≤ now ∧ s'.clock = now := by
  have hstep : Timer.step s (now, a) = some s' := by
    unfold callerStep at h
    split at h
    · exact (Option.ite_none_left_eq_some.1 h).2
    · exact h
  refine ⟨step_clock hstep, ?_⟩
  obtain ⟨-, h⟩ := Option.ite_none_left_eq_some.1 hstep
  cases a with
  | create e interval isRepeated =>
    obtain ⟨-, h⟩ := Option.ite_none_left_eq_some.1 h
    cases h
    rfl
  | _ =>
    cases h
    rfl

theorem step_cases (hw : s.timer.timer.WF) {na : Int × Act ε α} (h : step event job s na = some s') :
    StepCases event job s na s' := by
  obtain ⟨now, a⟩ := na
  cases a with
  | other a =>
    change s.other event now a = some s' at h
    unfold State.other at h
    split at h
    · rename_i e htarget
      obtain ⟨hne, h⟩ := Option.ite_none_left_eq_some.1 h
      obtain ⟨⟨timer, clock⟩, ht, rfl⟩ := Option.map_eq_some_iff.1 h
      have hwf := callerStep_wf _ _ _ hw ht
      obtain ⟨hclock, rfl⟩ := callerStep_clock ht
      obtain rfl : timer = s.timer.timer.after clock a := (callerStep_eq_some ht).1
      exact .other clock a e hclock htarget hne hwf
    · cases h
  | onTimer =>
    obtain ⟨hclock, h⟩ := Option.ite_none_left_eq_some.1 h
    cases h
    split
    · exact .beat now (not_lt.1 hclock) ‹_›
    · exact .wait now (not_lt.1 hclock) ‹_›
  | act a =>
    obtain ⟨hclock, h⟩ := Option.ite_none_left_eq_some.1 h
    obtain ⟨world, hact, rfl⟩ := Option.map_eq_some_iff.1 h
    exact .act now a world (not_lt.1 hclock) hact

/-! ## Never early -/

/-- The event stands for an interval behind the last beat. -/
structure Inv (event : ε) (interval : Int) (s : State ε σ) : Prop where
  wf : s.timer.timer.WF
  every : (s.timer.timer.events event).interval = interval
  isRepeated : (s.timer.timer.events event).isRepeated = true
  last : ∃ c, s.beats.getLast? = some c ∧ c ≤ s.timer.clock ∧
    (s.timer.timer.events event).arriveTime = c + interval
  pace : Pace.AtLeast interval s.beats

theorem Inv.step {na : Int × Act ε α} (hi : Inv event interval s) (h : step event job s na = some s') :
    Inv event interval s' := by
  obtain ⟨c, hc, hclock, harrive⟩ := hi.last
  cases step_cases hi.wf h with
  | other now a e hnow htarget hne hwf =>
    have hevent : (s.timer.timer.after now a).events event = s.timer.timer.events event :=
      events_after now htarget hne.symm
    refine ⟨hwf, ?_, ?_, ⟨c, hc, hclock.trans hnow, ?_⟩, hi.pace⟩
    · exact hevent.symm ▸ hi.every
    · exact hevent.symm ▸ hi.isRepeated
    · exact hevent.symm ▸ harrive
  | beat now hnow hfired =>
    have hdue := hi.wf.fired_due hfired
    have hevent : (s.timer.timer.onTimer now).1.events event = (s.timer.timer.events event).resetTime now := by
      rw [onTimer_events, if_pos ⟨hi.isRepeated, hfired⟩]
    refine ⟨hi.wf.onTimer now, ?_, ?_, ⟨now, List.getLast?_concat, le_rfl, ?_⟩, Pace.concat hi.pace ?_⟩
    · exact hevent.symm ▸ hi.every
    · exact hevent.symm ▸ hi.isRepeated
    · rw [← hi.every]
      exact hevent.symm ▸ rfl
    · intro a ha
      rw [hc] at ha
      cases ha
      exact harrive ▸ hdue
  | wait now hnow hwaits =>
    have hevent : (s.timer.timer.onTimer now).1.events event = s.timer.timer.events event := by
      rw [onTimer_events, if_neg fun hfired => hwaits hfired.2]
    refine ⟨hi.wf.onTimer now, ?_, ?_, ⟨c, hc, hclock.trans hnow, ?_⟩, hi.pace⟩
    · exact hevent.symm ▸ hi.every
    · exact hevent.symm ▸ hi.isRepeated
    · exact hevent.symm ▸ harrive
  | act now a world hnow => exact ⟨hi.wf, hi.every, hi.isRepeated, ⟨c, hc, hclock.trans hnow, harrive⟩, hi.pace⟩

theorem start_events (interval : Int) (t : Before event) (world : σ) :
    (start interval t world).timer.timer.events event = .new t.clock interval true := by
  show (Timer.addTimerEvent _ event true t.clock).events event = _
  rw [addTimerEvent_events]
  exact update_self _ _ _

theorem Inv.start (interval : Int) (t : Before event) (world : σ) :
    Inv event interval (start interval t world) := by
  have hevent := start_events interval t world
  have hcreate : (t.timer.after t.clock (.create event interval true)).WF := by
    refine t.wf.of_events rfl fun e he => ?_
    have hne : e ≠ event := fun heq => t.free (heq ▸ he)
    show (update t.timer.events event _ e).arriveTime = _
    rw [update_of_ne hne]
  refine ⟨hcreate.addTimerEvent t.free true t.clock, ?_, ?_, ⟨t.clock, rfl, le_rfl, ?_⟩,
    List.isChain_singleton t.clock⟩
  · rw [hevent]
    rfl
  · rw [hevent]
    rfl
  · rw [hevent]
    rfl

/-! ## Kept in the timer -/

def Kept (event : ε) (s : State ε σ) : Prop := s.timer.timer.Pending event

/-- No deletion overshoots onto the event. -/
def Spares (event : ε) (s : State ε σ) (na : Int × Act ε α) : Prop :=
  ∀ e', na.2 = .other (.delTimerEvent e') → ¬ s.timer.timer.Overshoots e' event

theorem kept_iff_spares {na : Int × Act ε α} (hi : Inv event interval s) (hk : Kept event s)
    (h : step event job s na = some s') : Kept event s' ↔ Spares event s na := by
  cases step_cases hi.wf h with
  | other now a e hnow htarget hne =>
    refine (hi.wf.pending_other htarget hne.symm).trans ⟨fun hs e' heq => ?_, fun hs => ⟨hk, fun e' heq => ?_⟩⟩
    · cases heq
      exact hs.2 e' rfl
    · exact hs e' (heq ▸ rfl)
  | beat now | wait now =>
    refine iff_of_true (pending_onTimer_repeated now hi.isRepeated hk) fun e' heq => ?_
    cases heq
  | act now a world =>
    refine iff_of_true hk fun e' heq => ?_
    cases heq

/-- In every run: a repeated event is in the timer, just while no deletion overshoots onto it. -/
theorem kept_iff (event : ε) (interval : Int) (t : Before event) (world : σ) (job : Job σ α)
    (acts : List (Int × Act ε α)) :
    Lts.Always (step event job) (Kept event) (start interval t world) acts ↔
      Lts.Along (step event job) (Spares event) (start interval t world) acts :=
  Lts.always_iff_along (fun _ _ _ hi h => Inv.step hi h) (fun _ _ _ hi hk h => kept_iff_spares hi hk h)
    (Inv.start interval t world) ((pending_addTimerEvent_iff true t.clock).2 (.inl rfl))

/-! ## Nor late -/

/-- The reactor is at no step later than this behind the time of the event. -/
def OnTime (event : ε) (late : Int) (s : State ε σ) (na : Int × Act ε α) : Prop :=
  na.1 ≤ (s.timer.timer.events event).arriveTime + late

instance (event : ε) (late : Int) (s : State ε σ) (na : Int × Act ε α) : Decidable (OnTime event late s na) :=
  inferInstanceAs (Decidable (_ ≤ _))

/-- The beats so far, and the one that is to come. -/
structure Prompt (event : ε) (late : Int) (interval : Int) (s : State ε σ) : Prop extends Inv event interval s where
  most : Pace.AtMost (interval + late) s.beats
  next : ∀ c ∈ s.beats.getLast?, s.timer.clock ≤ c + (interval + late)

theorem Prompt.step {late : Int} {na : Int × Act ε α} (hp : Prompt event late interval s)
    (ht : OnTime event late s na) (h : step event job s na = some s') : Prompt event late interval s' := by
  have hi := hp.toInv
  obtain ⟨c, hc, hlast, harrive⟩ := hi.last
  have hnow : ∀ a ∈ s.beats.getLast?, na.1 ≤ a + (interval + late) := by
    intro a ha
    rw [hc] at ha
    cases ha
    unfold OnTime at ht
    omega
  cases step_cases hi.wf h with
  | beat now hclock hfired =>
    have h0 : 0 ≤ interval + late := by
      have hnext := hp.next c hc
      omega
    refine ⟨hi.step h, Pace.concat hp.most hnow, fun a ha => ?_⟩
    rw [List.getLast?_concat] at ha
    cases ha
    show now ≤ now + (interval + late)
    omega
  | _ => exact ⟨hi.step h, hp.most, hnow⟩

theorem Prompt.start {late : Int} (h0 : 0 ≤ interval + late) (t : Before event) (world : σ) :
    Prompt event late interval (start interval t world) := by
  refine ⟨Inv.start interval t world, List.isChain_singleton t.clock, fun c hc => ?_⟩
  cases hc
  show t.clock ≤ t.clock + (interval + late)
  omega

end Flconc.Periodic
