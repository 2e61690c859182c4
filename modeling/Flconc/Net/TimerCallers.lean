/-
The callers of a timer that each have an event of their own: what a call, and `onTimer`, does to the events of the
others.
-/
import Flconc.Net.TimerTasks

namespace Flconc.Timer

open Function

variable {ε : Type}

/-- The event that a caller is about. -/
def target : Act ε → Option ε
  | .create e _ _ => some e
  | .cancle e => some e
  | .addTimerEvent e => some e
  | .delTimerEvent e => some e
  | .onTimer => none

variable [DecidableEq ε] {t : Timer ε}

/-- A caller leaves the other events as they are. -/
theorem events_after (now : Int) {a : Act ε} {e e' : ε} (ha : target a = some e) (he : e' ≠ e) :
    (t.after now a).events e' = t.events e' := by
  cases a with
  | create e₀ interval isRepeated =>
    cases ha
    exact update_of_ne he _ _
  | cancle e₀ =>
    cases ha
    exact update_of_ne he _ _
  | addTimerEvent e₀ =>
    show (t.addTimerEvent e₀ true now).events e' = _
    rw [addTimerEvent_events]
  | delTimerEvent e₀ =>
    cases ha
    exact update_of_ne he _ _
  | onTimer => cases ha

/-- And in the map, but where its deletion overshoots. -/
theorem WF.pending_other (hw : t.WF) {now : Int} {a : Act ε} {e₀ e : ε} (ha : target a = some e₀) (he : e ≠ e₀) :
    (t.after now a).Pending e ↔ t.Pending e ∧ ∀ e', a = .delTimerEvent e' → ¬ t.Overshoots e' e := by
  refine hw.pending_after ?_ ?_ ?_
  · rintro rfl
    cases ha
    exact he rfl
  · rintro rfl
    cases ha
    exact he rfl
  · rintro rfl
    cases ha

/-- What `onTimer` fires is due. -/
theorem WF.fired_due (hw : t.WF) {now : Int} {e : ε} (h : e ∈ (t.onTimer now).2) : (t.events e).arriveTime ≤ now := by
  obtain ⟨p, hp, rfl⟩ := List.mem_map.1 h
  have hdue := List.mem_takeWhile_imp hp
  simp only [Bool.and_eq_true, decide_eq_true_eq] at hdue
  rw [← hw.keyed p ((List.takeWhile_sublist _).subset hp)]
  exact hdue.1

/-- A repeated event stays in the map. -/
theorem pending_onTimer_repeated {e : ε} (now : Int) (hr : (t.events e).isRepeated = true) (h : t.Pending e) :
    (t.onTimer now).1.Pending e := by
  refine (pending_onTimer now h).elim id fun hfired => ?_
  obtain ⟨p, hp, rfl⟩ := List.mem_map.1 hfired
  refine ⟨(now + (t.events p.2).interval, p.2), (onTimer_entries t now).mem_iff.2 (List.mem_append_right _ ?_), rfl⟩
  exact List.mem_map.2 ⟨p, List.mem_filter.2 ⟨hp, hr⟩, rfl⟩

end Flconc.Timer
