/-
The timer of net/base/timer.cc: the multimap of pending events, the timerfd they are armed on, and
the operations `addTimerEvent`, `delTimerEvent`, `resetArriveTime` and `onTimer`.

Two results are about single calls and runs of them. `delTimerEvent` erases the event after the
equal range when it does not find its own, so it leaves the others alone exactly when its event is
pending or nothing is pending later. `resetArriveTime` arms the timerfd for the latest pending
event, so the earliest one is covered exactly when no live event is pending before the latest.
-/
import Flconc.Lib.Multimap
import Flconc.Lib.Run
import Mathlib.Data.List.Nodup
import Mathlib.Data.List.Perm.Basic
import Mathlib.Logic.Function.Basic
import Mathlib.Order.Lattice

namespace Flconc

open Function

/-! ## The model -/

/-- A timer event; its task is named by the event itself. -/
structure TimerEvent where
  arriveTime : Int
  interval : Int
  isRepeated : Bool
  isCancled : Bool
  deriving DecidableEq

namespace TimerEvent

/-- The constructor, at the clock reading `now`. -/
def new (now interval : Int) (isRepeated : Bool) : TimerEvent := ⟨now + interval, interval, isRepeated, false⟩

def resetTime (ev : TimerEvent) (now : Int) : TimerEvent :=
  { ev with arriveTime := now + ev.interval, isCancled := false }

def cancle (ev : TimerEvent) : TimerEvent := { ev with isCancled := true }

end TimerEvent

/-- A timer over the events `ε`. The multimap holds pointers to the events, so their fields live
outside it. -/
structure Timer (ε : Type) where
  events : ε → TimerEvent
  pendingEvents : Multimap Int ε
  /-- The absolute time the timerfd is set to expire at; `none` when it is disarmed. -/
  armed : Option Int

namespace Timer

variable {ε : Type}

/-- `resetArriveTime` at the clock reading `now`: the timerfd is set for the last entry. A zero
interval disarms it, and when every event has expired it is left as it is. -/
def resetArriveTime (t : Timer ε) (now : Int) : Timer ε :=
  match t.pendingEvents.entries.getLast? with
  | none => t
  | some it =>
    if it.1 < now then t
    else
      let interval := it.1 - now
      { t with armed := if interval = 0 then none else some (now + interval) }

/-- The event is ahead of every pending one, as `addTimerEvent` decides it. -/
def isReset (t : Timer ε) (event : ε) : Bool :=
  match t.pendingEvents.entries.head? with
  | none => true
  | some it => decide ((t.events event).arriveTime < (t.events it.2).arriveTime)

/-- The insertion of `addTimerEvent`, under the event's present arrive time. -/
def insert (t : Timer ε) (event : ε) : Timer ε :=
  { t with pendingEvents := t.pendingEvents.emplace (t.events event).arriveTime event }

def addTimerEvent (t : Timer ε) (event : ε) (needReset : Bool) (now : Int) : Timer ε :=
  if t.isReset event && needReset then (t.insert event).resetArriveTime now else t.insert event

/-- The events that `onTimer` collects: from the first entry on, while due and not cancelled. -/
def due (t : Timer ε) (now : Int) : List (Int × ε) :=
  t.pendingEvents.entries.takeWhile fun p => decide (p.1 ≤ now) && !(t.events p.2).isCancled

variable [DecidableEq ε]

/-- `delTimerEvent`: the event is cancelled and searched for in the equal range of its arrive time;
the position the search ends at is erased unless it is the end of the whole map. -/
def delTimerEvent (t : Timer ε) (event : ε) : Timer ε :=
  let arrive := (t.events event).arriveTime
  let it := t.pendingEvents.find (t.pendingEvents.lowerBound arrive) (t.pendingEvents.upperBound arrive) event
  { t with
    events := update t.events event (t.events event).cancle
    pendingEvents := if it = t.pendingEvents.entries.length then t.pendingEvents else t.pendingEvents.erase it }

/-- A fired repeated event gets its next arrive time and is queued again. -/
def requeue (now : Int) (t : Timer ε) (p : Int × ε) : Timer ε :=
  if (t.events p.2).isRepeated then
    addTimerEvent { t with events := update t.events p.2 ((t.events p.2).resetTime now) } p.2 false now
  else t

/-- `onTimer` up to the re-arming: an expiry of the timerfd is read, the due events leave the map
and the repeated ones among them are queued again. -/
def fire (t : Timer ε) (now : Int) : Timer ε :=
  (t.due now).foldl (requeue now)
    { t with
      pendingEvents := t.pendingEvents.eraseBefore (t.due now).length
      armed := t.armed.filter fun a => decide (now < a) }

/-- `onTimer`, with the events whose tasks it runs, in order. -/
def onTimer (t : Timer ε) (now : Int) : Timer ε × List ε :=
  ((t.fire now).resetArriveTime now, (t.due now).map (·.2))

/-! ## Runs -/

/-- A timer and the latest clock reading. -/
structure Clocked (ε : Type) where
  timer : Timer ε
  clock : Int

inductive Act (ε : Type)
  /-- A new event object is made under a name that is not pending. -/
  | create (e : ε) (interval : Int) (isRepeated : Bool)
  | cancle (e : ε)
  | addTimerEvent (e : ε)
  | delTimerEvent (e : ε)
  | onTimer

/-- The event is in the map. -/
def Pending (t : Timer ε) (e : ε) : Prop := ∃ p ∈ t.pendingEvents.entries, p.2 = e

instance (t : Timer ε) (e : ε) : Decidable (t.Pending e) :=
  inferInstanceAs (Decidable (∃ p ∈ t.pendingEvents.entries, p.2 = e))

/-- One call at a clock reading that does not go back. -/
def step (s : Clocked ε) (na : Int × Act ε) : Option (Clocked ε) :=
  let (now, a) := na
  if now < s.clock then none
  else
    match a with
    | .create e interval isRepeated =>
      if s.timer.Pending e then none
      else some ⟨{ s.timer with events := update s.timer.events e (.new now interval isRepeated) }, now⟩
    | .cancle e =>
      some ⟨{ s.timer with events := update s.timer.events e (s.timer.events e).cancle }, now⟩
    | .addTimerEvent e => some ⟨s.timer.addTimerEvent e true now, now⟩
    | .delTimerEvent e => some ⟨s.timer.delTimerEvent e, now⟩
    | .onTimer => some ⟨(s.timer.onTimer now).1, now⟩

/-- The callers' discipline: an event is added only while it is not pending. Every caller adds an
event it has just made, and `onTimer` queues again only what it has taken out. -/
def callerStep (s : Clocked ε) (na : Int × Act ε) : Option (Clocked ε) :=
  match na.2 with
  | .addTimerEvent e => if s.timer.Pending e then none else step s na
  | _ => step s na

/-- A timer just made, with nothing pending. -/
def init (events : ε → TimerEvent) (clock : Int) : Clocked ε := ⟨⟨events, .empty, none⟩, clock⟩

/-! ## What the operations leave alone -/

omit [DecidableEq ε] in
@[simp] theorem resetArriveTime_pendingEvents (t : Timer ε) (now : Int) :
    (t.resetArriveTime now).pendingEvents = t.pendingEvents := by
  unfold resetArriveTime; split
  · rfl
  · split <;> rfl

omit [DecidableEq ε] in
@[simp] theorem resetArriveTime_events (t : Timer ε) (now : Int) :
    (t.resetArriveTime now).events = t.events := by
  unfold resetArriveTime; split
  · rfl
  · split <;> rfl

omit [DecidableEq ε] in
@[simp] theorem addTimerEvent_pendingEvents (t : Timer ε) (e : ε) (needReset : Bool) (now : Int) :
    (t.addTimerEvent e needReset now).pendingEvents = (t.insert e).pendingEvents := by
  unfold addTimerEvent; split
  · exact resetArriveTime_pendingEvents _ _
  · rfl

omit [DecidableEq ε] in
@[simp] theorem addTimerEvent_events (t : Timer ε) (e : ε) (needReset : Bool) (now : Int) :
    (t.addTimerEvent e needReset now).events = t.events := by
  unfold addTimerEvent; split
  · exact resetArriveTime_events _ _
  · rfl

omit [DecidableEq ε] in
theorem due_append_rest (t : Timer ε) (now : Int) :
    t.due now ++ t.pendingEvents.entries.drop (t.due now).length = t.pendingEvents.entries := by
  have hp : t.due now <+: t.pendingEvents.entries := List.takeWhile_prefix _
  obtain ⟨rest, hrest⟩ := hp
  conv_lhs => rw [← hrest, List.drop_left]
  exact hrest

/-! ## Every entry stands under the present time of its event -/

/-- The multimap of a timer used by its callers: entries under their events' arrive times, no event
twice. -/
structure WF (t : Timer ε) : Prop where
  keyed : ∀ p ∈ t.pendingEvents.entries, p.1 = (t.events p.2).arriveTime
  nodup : (t.pendingEvents.entries.map (·.2)).Nodup

omit [DecidableEq ε] in
theorem WF.of_events {t t' : Timer ε} (hw : t.WF) (hp : t'.pendingEvents = t.pendingEvents)
    (ha : ∀ e, t.Pending e → (t'.events e).arriveTime = (t.events e).arriveTime) : t'.WF := by
  refine ⟨fun p hm => ?_, by rw [hp]; exact hw.nodup⟩
  rw [hp] at hm
  rw [ha p.2 ⟨p, hm, rfl⟩]
  exact hw.keyed p hm

omit [DecidableEq ε] in
theorem WF.insert {t : Timer ε} (hw : t.WF) {e : ε} (he : ¬ t.Pending e) : (t.insert e).WF := by
  refine ⟨fun p hp => ?_, ?_⟩
  · rcases Multimap.mem_emplace.1 hp with rfl | hp
    · rfl
    · exact hw.keyed p hp
  · have := (t.pendingEvents.emplace_perm (t.events e).arriveTime e).map (·.2)
    refine this.nodup_iff.2 (List.nodup_cons.2 ⟨fun hm => he ?_, hw.nodup⟩)
    exact List.mem_map.1 hm

omit [DecidableEq ε] in
theorem WF.addTimerEvent {t : Timer ε} (hw : t.WF) {e : ε} (he : ¬ t.Pending e) (needReset : Bool)
    (now : Int) : (t.addTimerEvent e needReset now).WF :=
  (hw.insert he).of_events (addTimerEvent_pendingEvents ..) fun _ _ => by rw [addTimerEvent_events]; rfl

omit [DecidableEq ε] in
theorem WF.sublist {t t' : Timer ε} (hw : t.WF) (hs : t'.pendingEvents.entries.Sublist t.pendingEvents.entries)
    (ha : ∀ e, t.Pending e → (t'.events e).arriveTime = (t.events e).arriveTime) : t'.WF := by
  refine ⟨fun p hp => ?_, hw.nodup.sublist (hs.map _)⟩
  rw [ha p.2 ⟨p, hs.subset hp, rfl⟩]
  exact hw.keyed p (hs.subset hp)

theorem delTimerEvent_sublist (t : Timer ε) (e : ε) :
    (t.delTimerEvent e).pendingEvents.entries.Sublist t.pendingEvents.entries := by
  simp only [delTimerEvent]
  split
  · exact .refl _
  · exact List.eraseIdx_sublist _ _

theorem update_cancle_arriveTime (t : Timer ε) (e e' : ε) :
    (update t.events e (t.events e).cancle e').arriveTime = (t.events e').arriveTime := by
  by_cases h : e' = e
  · subst h; simp [TimerEvent.cancle]
  · simp [h]

/-- Requeueing the fired events keeps the map well formed as long as they are distinct and out of
it. -/
theorem WF.requeue {now : Int} : ∀ (l : List (Int × ε)) {t : Timer ε}, t.WF →
    (l.map (·.2)).Nodup → (∀ p ∈ l, ¬ t.Pending p.2) → (l.foldl (requeue now) t).WF
  | [], _, hw, _, _ => hw
  | p :: l, t, hw, hnd, hno => by
    obtain ⟨hp, hnd⟩ := List.nodup_cons.1 hnd
    rw [List.foldl_cons]
    have hnop := hno p (List.mem_cons_self ..)
    by_cases hr : (t.events p.2).isRepeated = true
    · simp only [Timer.requeue, hr, if_true]
      have hw' : WF { t with events := update t.events p.2 ((t.events p.2).resetTime now) } := by
        refine hw.of_events rfl fun e he => ?_
        have hne : e ≠ p.2 := fun h => hnop (h ▸ he)
        simp [hne]
      refine WF.requeue l (hw'.addTimerEvent hnop false now) hnd fun q hq => ?_
      rintro ⟨x, hx, hxq⟩
      rw [addTimerEvent_pendingEvents] at hx
      rcases Multimap.mem_emplace.1 hx with rfl | hx
      · exact hp (List.mem_map.2 ⟨q, hq, hxq.symm⟩)
      · exact hno q (List.mem_cons_of_mem _ hq) ⟨x, hx, hxq⟩
    · simp only [Timer.requeue, hr]
      exact WF.requeue l hw hnd fun q hq => hno q (List.mem_cons_of_mem _ hq)

theorem WF.fire {t : Timer ε} (hw : t.WF) (now : Int) : (t.fire now).WF := by
  have hnd := hw.nodup
  rw [← due_append_rest t now, List.map_append] at hnd
  obtain ⟨h1, h2, h3⟩ := List.nodup_append.1 hnd
  refine WF.requeue _ (hw.sublist (List.drop_sublist _ _) fun _ _ => rfl) h1 ?_
  rintro p hp ⟨q, hq, hqp⟩
  exact h3 p.2 (List.mem_map_of_mem hp) q.2 (List.mem_map_of_mem hq) hqp.symm

theorem WF.onTimer {t : Timer ε} (hw : t.WF) (now : Int) : (t.onTimer now).1.WF :=
  (hw.fire now).of_events (resetArriveTime_pendingEvents ..) fun _ _ => by
    simp only [Timer.onTimer, resetArriveTime_events]

/-- The timer after a call. -/
def after (t : Timer ε) (now : Int) : Act ε → Timer ε
  | .create e interval isRepeated => { t with events := update t.events e (.new now interval isRepeated) }
  | .cancle e => { t with events := update t.events e (t.events e).cancle }
  | .addTimerEvent e => t.addTimerEvent e true now
  | .delTimerEvent e => t.delTimerEvent e
  | .onTimer => (t.onTimer now).1

/-- What a call does, and that an event is not pending when it is made or added. -/
theorem callerStep_eq_some {s s' : Clocked ε} {now : Int} {a : Act ε} (h : callerStep s (now, a) = some s') :
    s'.timer = s.timer.after now a ∧
      (∀ e interval isRepeated, a = .create e interval isRepeated → ¬ s.timer.Pending e) ∧
      ∀ e, a = .addTimerEvent e → ¬ s.timer.Pending e := by
  cases a with
  | create e interval isRepeated =>
    simp only [callerStep, step] at h
    split at h
    · cases h
    · split at h
      · cases h
      · rename_i hno
        cases h
        exact ⟨rfl, fun e' _ _ heq => by cases heq; exact hno, nofun⟩
  | addTimerEvent e =>
    simp only [callerStep, step] at h
    split at h
    · cases h
    · rename_i hno
      split at h
      · cases h
      · cases h
        exact ⟨rfl, nofun, fun e' heq => by cases heq; exact hno⟩
  | _ =>
    simp only [callerStep, step] at h
    split at h
    · cases h
    · cases h
      exact ⟨rfl, nofun, nofun⟩

theorem callerStep_wf (s : Clocked ε) (na : Int × Act ε) (s' : Clocked ε) (hw : s.timer.WF)
    (h : callerStep s na = some s') : s'.timer.WF := by
  obtain ⟨now, a⟩ := na
  obtain ⟨ht, hcreate, hadd⟩ := callerStep_eq_some h
  rw [ht]
  cases a with
  | create e interval isRepeated =>
    refine hw.of_events rfl fun e' he' => ?_
    have hne : e' ≠ e := fun heq => hcreate e _ _ rfl (heq ▸ he')
    simp [after, hne]
  | cancle e => exact hw.of_events rfl fun e' _ => update_cancle_arriveTime s.timer e e'
  | addTimerEvent e => exact hw.addTimerEvent (hadd e rfl) true now
  | delTimerEvent e =>
    exact hw.sublist (delTimerEvent_sublist s.timer e) fun e' _ => update_cancle_arriveTime s.timer e e'
  | onTimer => exact hw.onTimer now

/-- The states a timer reaches under its callers. -/
def Reachable (t : Timer ε) : Prop :=
  ∃ events clock s, Lts.Reachable callerStep (init events clock) s ∧ s.timer = t

theorem Reachable.wf {t : Timer ε} (h : t.Reachable) : t.WF := by
  obtain ⟨events, clock, s, hs, rfl⟩ := h
  exact hs.invariant (I := fun s => s.timer.WF) ⟨by simp [init], by simp [init]⟩ callerStep_wf

/-! ## Deletion -/

/-- `delTimerEvent` takes its event out of the map and leaves every other entry in it. -/
def RemovesOnly (t : Timer ε) (e : ε) : Prop :=
  (t.delTimerEvent e).pendingEvents.entries = t.pendingEvents.entries.filter fun p => decide (p.2 ≠ e)

/-- Where the search of `delTimerEvent` ends: at its event, or right after the equal range. -/
theorem delTimerEvent_entries (t : Timer ε) (e : ε) :
    (t.delTimerEvent e).pendingEvents.entries =
      let m := t.pendingEvents
      let a := (t.events e).arriveTime
      if (∃ p ∈ m.equal a, p.2 = e) then
        m.below a ++ (m.equal a).eraseIdx ((m.equal a).findIdx fun p => decide (p.2 = e)) ++ m.above a
      else m.below a ++ m.equal a ++ (m.above a).tail := by
  simp only [delTimerEvent]
  generalize (t.events e).arriveTime = a
  generalize t.pendingEvents = m
  rw [Multimap.find_equalRange, m.entries_length a]
  have hidx : (∃ p ∈ m.equal a, p.2 = e) ↔
      (m.equal a).findIdx (fun p => decide (p.2 = e)) < (m.equal a).length := by
    rw [List.findIdx_lt_length]; simp
  have hle : (m.equal a).findIdx (fun p => decide (p.2 = e)) ≤ (m.equal a).length := List.findIdx_le_length
  split
  · -- the end of the whole map: the event was not found and nothing is later
    rename_i hend
    rw [if_neg (by rw [hidx]; omega)]
    have : m.above a = [] := List.eq_nil_of_length_eq_zero (by omega)
    conv_lhs => rw [m.split a]
    rw [this]; rfl
  · rename_i hend
    rw [Multimap.erase_entries]
    conv_lhs => rw [m.split a]
    rw [List.append_assoc, List.eraseIdx_append_of_length_le (Nat.le_add_right _ _), Nat.add_sub_cancel_left]
    split
    · rename_i hfound
      rw [List.eraseIdx_append_of_lt_length (hidx.1 hfound), List.append_assoc]
    · rename_i hfound
      have heq : (m.equal a).findIdx (fun p => decide (p.2 = e)) = (m.equal a).length := by
        rw [hidx] at hfound; omega
      rw [heq, List.eraseIdx_append_of_length_le le_rfl, Nat.sub_self, List.append_assoc]
      cases m.above a <;> rfl

omit [DecidableEq ε] in
/-- In a well-formed timer a pending event is found among the equal entries. -/
theorem WF.pending_iff {t : Timer ε} (hw : t.WF) (e : ε) :
    t.Pending e ↔ ∃ p ∈ t.pendingEvents.equal (t.events e).arriveTime, p.2 = e := by
  constructor
  · rintro ⟨p, hp, rfl⟩
    exact ⟨p, Multimap.mem_equal.2 ⟨hp, hw.keyed p hp⟩, rfl⟩
  · rintro ⟨p, hp, rfl⟩
    exact ⟨p, (Multimap.mem_equal.1 hp).1, rfl⟩

/-- Erasing the first match from a list without repetitions is filtering it out. -/
theorem eraseIdx_findIdx_eq_filter {e : ε} : ∀ {l : List (Int × ε)}, (l.map (·.2)).Nodup →
    (∃ p ∈ l, p.2 = e) →
    l.eraseIdx (l.findIdx fun p => decide (p.2 = e)) = l.filter fun p => decide (p.2 ≠ e)
  | [], _, h => by simp at h
  | q :: l, hnd, h => by
    rw [List.map_cons, List.nodup_cons] at hnd
    rw [List.findIdx_cons]
    by_cases hq : q.2 = e
    · have hl : ∀ p ∈ l, p.2 ≠ e := fun p hp hpe => hnd.1 (List.mem_map.2 ⟨p, hp, hpe.trans hq.symm⟩)
      simp only [hq, decide_true, cond_true, List.eraseIdx_cons_zero, List.filter_cons, ne_eq,
        not_true_eq_false, decide_false, Bool.false_eq_true, if_false]
      exact (List.filter_eq_self.2 fun p hp => decide_eq_true (hl p hp)).symm
    · have h' : ∃ p ∈ l, p.2 = e := by
        obtain ⟨p, hp, hpe⟩ := h
        rcases List.mem_cons.1 hp with rfl | hp
        · exact absurd hpe hq
        · exact ⟨p, hp, hpe⟩
      simp only [hq, decide_false, cond_false, List.eraseIdx_cons_succ, List.filter_cons, ne_eq,
        not_false_eq_true, decide_true, if_true]
      rw [eraseIdx_findIdx_eq_filter hnd.2 h']

omit [DecidableEq ε] in
/-- The event is under its own arrive time only. -/
theorem WF.not_mem_of_ne {t : Timer ε} (hw : t.WF) {p : Int × ε} (hp : p ∈ t.pendingEvents.entries) {e : ε}
    (hne : p.1 ≠ (t.events e).arriveTime) : p.2 ≠ e := by
  rintro rfl
  exact hne (hw.keyed p hp)

/-- The map without the event: only the entries of its arrive time are searched for it. -/
theorem WF.filter_entries {t : Timer ε} (hw : t.WF) (e : ε) :
    t.pendingEvents.entries.filter (fun p => decide (p.2 ≠ e)) =
      t.pendingEvents.below (t.events e).arriveTime ++
        (t.pendingEvents.equal (t.events e).arriveTime).filter (fun p => decide (p.2 ≠ e)) ++
        t.pendingEvents.above (t.events e).arriveTime := by
  have hbelow : ∀ p ∈ t.pendingEvents.below (t.events e).arriveTime, p.2 ≠ e := by
    intro p hp
    obtain ⟨hm, hlt⟩ := Multimap.mem_below.1 hp
    exact hw.not_mem_of_ne hm hlt.ne
  have habove : ∀ p ∈ t.pendingEvents.above (t.events e).arriveTime, p.2 ≠ e := by
    intro p hp
    obtain ⟨hm, hlt⟩ := Multimap.mem_above.1 hp
    exact hw.not_mem_of_ne hm hlt.ne'
  conv_lhs => rw [t.pendingEvents.split (t.events e).arriveTime]
  rw [List.filter_append, List.filter_append,
    List.filter_eq_self.2 fun p hp => decide_eq_true (hbelow p hp),
    List.filter_eq_self.2 fun p hp => decide_eq_true (habove p hp)]

/-- A pending event is found, and taken out alone. -/
theorem WF.removesOnly_of_pending {t : Timer ε} (hw : t.WF) {e : ε} (hp : t.Pending e) : t.RemovesOnly e := by
  have hnd : ((t.pendingEvents.equal (t.events e).arriveTime).map (·.2)).Nodup :=
    hw.nodup.sublist ((List.filter_sublist (l := t.pendingEvents.entries)).map _)
  have hp' := (hw.pending_iff e).1 hp
  unfold RemovesOnly
  rw [delTimerEvent_entries, hw.filter_entries e]
  simp only
  rw [if_pos hp', eraseIdx_findIdx_eq_filter hnd hp']

/-- An event that is not pending is not found, and the entry behind the equal range is erased. -/
theorem WF.delTimerEvent_of_not_pending {t : Timer ε} (hw : t.WF) {e : ε} (hp : ¬ t.Pending e) :
    (t.delTimerEvent e).pendingEvents.entries =
      t.pendingEvents.below (t.events e).arriveTime ++ t.pendingEvents.equal (t.events e).arriveTime ++
        (t.pendingEvents.above (t.events e).arriveTime).tail := by
  rw [delTimerEvent_entries]
  exact if_neg fun hp' => hp ((hw.pending_iff e).2 hp')

/-- Of a reachable timer, `delTimerEvent` removes its event and nothing else exactly when the event
is pending or no pending event is later than it. -/
theorem removesOnly_iff {t : Timer ε} (h : t.Reachable) (e : ε) :
    t.RemovesOnly e ↔
      t.Pending e ∨ ∀ p ∈ t.pendingEvents.entries, p.1 ≤ (t.events e).arriveTime := by
  have hw := h.wf
  by_cases hp : t.Pending e
  · exact ⟨fun _ => .inl hp, fun _ => hw.removesOnly_of_pending hp⟩
  · have hequal : (t.pendingEvents.equal (t.events e).arriveTime).filter (fun p => decide (p.2 ≠ e)) =
        t.pendingEvents.equal (t.events e).arriveTime :=
      List.filter_eq_self.2 fun p hm => decide_eq_true fun hpe => hp ((hw.pending_iff e).2 ⟨p, hm, hpe⟩)
    unfold RemovesOnly
    rw [hw.delTimerEvent_of_not_pending hp, hw.filter_entries e, hequal, List.append_cancel_left_eq,
      Multimap.above_tail_eq_iff]
    exact ⟨.inr, fun h => h.resolve_left hp⟩

/-- Deleting `e` overshoots onto `e'`: `e` is not pending, and `e'` is the first event later than it. -/
def Overshoots (t : Timer ε) (e e' : ε) : Prop :=
  ¬ t.Pending e ∧ ((t.pendingEvents.above (t.events e).arriveTime).head?.map (·.2)) = some e'

instance (t : Timer ε) (e e' : ε) : Decidable (t.Overshoots e e') := inferInstanceAs (Decidable (_ ∧ _))

/-- The event that deleting `e` overshoots onto, if there is one. -/
def overshot (t : Timer ε) (e : ε) : Option ε :=
  if t.Pending e then none else (t.pendingEvents.above (t.events e).arriveTime).head?.map (·.2)

theorem mem_overshot {t : Timer ε} {e e' : ε} : e' ∈ t.overshot e ↔ t.Overshoots e e' := by
  unfold overshot Overshoots
  split
  · exact ⟨nofun, fun h => absurd ‹_› h.1⟩
  · exact ⟨fun h => ⟨‹_›, h⟩, And.right⟩

omit [DecidableEq ε] in
theorem Overshoots.pending {t : Timer ε} {e e' : ε} (h : t.Overshoots e e') : t.Pending e' := by
  obtain ⟨p, hp, rfl⟩ := Option.map_eq_some_iff.1 h.2
  exact ⟨p, (Multimap.mem_above.1 (List.mem_of_head? hp)).1, rfl⟩

theorem WF.not_pending_delTimerEvent {t : Timer ε} (hw : t.WF) (e : ε) : ¬ (t.delTimerEvent e).Pending e := by
  rintro ⟨p, hm, hpe⟩
  by_cases hp : t.Pending e
  · have hentries : (t.delTimerEvent e).pendingEvents.entries = _ := hw.removesOnly_of_pending hp
    rw [hentries] at hm
    exact of_decide_eq_true (List.mem_filter.1 hm).2 hpe
  · exact hp ⟨p, (delTimerEvent_sublist t e).subset hm, hpe⟩

/-- Another event stays in the map unless the deletion overshoots onto it. -/
theorem WF.pending_delTimerEvent {t : Timer ε} (hw : t.WF) {e e' : ε} (hne : e' ≠ e) :
    (t.delTimerEvent e).Pending e' ↔ t.Pending e' ∧ ¬ t.Overshoots e e' := by
  by_cases hp : t.Pending e
  · have hno : ¬ t.Overshoots e e' := fun h => h.1 hp
    have hentries : (t.delTimerEvent e).pendingEvents.entries = _ := hw.removesOnly_of_pending hp
    unfold Pending
    rw [hentries]
    constructor
    · rintro ⟨p, hm, rfl⟩
      exact ⟨⟨p, (List.mem_filter.1 hm).1, rfl⟩, hno⟩
    · rintro ⟨⟨p, hm, rfl⟩, -⟩
      exact ⟨p, List.mem_filter.2 ⟨hm, decide_eq_true hne⟩, rfl⟩
  · have hentries := hw.delTimerEvent_of_not_pending hp
    have hsplit := t.pendingEvents.split (t.events e).arriveTime
    have hnd := hw.nodup
    unfold Overshoots
    cases habove : t.pendingEvents.above (t.events e).arriveTime with
    | nil =>
      rw [habove] at hentries hsplit
      unfold Pending
      rw [hentries, hsplit]
      simp
    | cons p rest =>
      rw [habove] at hentries hsplit
      rw [hsplit, List.map_append, List.map_cons, List.nodup_middle, ← List.map_append] at hnd
      obtain ⟨hout, -⟩ := List.nodup_cons.1 hnd
      have hother : p.2 = e' → ¬ (t.delTimerEvent e).Pending e' := by
        rintro rfl ⟨q, hq, hqp⟩
        rw [hentries] at hq
        exact hout (List.mem_map.2 ⟨q, hq, hqp⟩)
      simp only [List.head?_cons, Option.map_some, Option.some.injEq, not_and]
      constructor
      · intro h
        refine ⟨?_, fun _ heq => hother heq h⟩
        obtain ⟨q, hq, hqe⟩ := h
        exact ⟨q, (delTimerEvent_sublist t e).subset hq, hqe⟩
      · rintro ⟨⟨q, hq, rfl⟩, hno⟩
        refine ⟨q, ?_, rfl⟩
        have hpq : p ≠ q := fun heq => hno hp (congrArg Prod.snd heq)
        rw [hsplit] at hq
        rw [hentries]
        simpa [hpq.symm] using hq

omit [DecidableEq ε] in
theorem pending_addTimerEvent_iff {t : Timer ε} {e e' : ε} (needReset : Bool) (now : Int) :
    (t.addTimerEvent e needReset now).Pending e' ↔ e' = e ∨ t.Pending e' := by
  unfold Pending
  rw [addTimerEvent_pendingEvents]
  constructor
  · rintro ⟨p, hm, rfl⟩
    rcases Multimap.mem_emplace.1 hm with rfl | hm
    · exact .inl rfl
    · exact .inr ⟨p, hm, rfl⟩
  · rintro (rfl | ⟨p, hm, rfl⟩)
    · exact ⟨_, Multimap.mem_emplace.2 (.inl rfl), rfl⟩
    · exact ⟨p, Multimap.mem_emplace.2 (.inr hm), rfl⟩

theorem pending_requeue (now : Int) {e : ε} : ∀ (l : List (Int × ε)) {t : Timer ε}, t.Pending e →
    (l.foldl (requeue now) t).Pending e
  | [], _, h => h
  | p :: l, t, h => by
    rw [List.foldl_cons]
    refine pending_requeue now l ?_
    unfold requeue
    split
    · exact (pending_addTimerEvent_iff false now).2 (.inr h)
    · exact h

theorem pending_of_requeue (now : Int) {e : ε} : ∀ (l : List (Int × ε)) {t : Timer ε},
    (l.foldl (requeue now) t).Pending e → t.Pending e ∨ ∃ p ∈ l, p.2 = e
  | [], _, h => .inl h
  | p :: l, t, h => by
    rw [List.foldl_cons] at h
    rcases pending_of_requeue now l h with h | ⟨q, hq, hqe⟩
    · unfold requeue at h
      split at h
      · rcases (pending_addTimerEvent_iff false now).1 h with rfl | h
        · exact .inr ⟨p, List.mem_cons_self .., rfl⟩
        · exact .inl h
      · exact .inl h
    · exact .inr ⟨q, List.mem_cons_of_mem _ hq, hqe⟩

/-- A call about other events leaves an event in the map, but where a deletion overshoots onto it. -/
theorem WF.pending_after {t : Timer ε} (hw : t.WF) {now : Int} {a : Act ε} {e : ε} (hadd : a ≠ .addTimerEvent e)
    (hdel : a ≠ .delTimerEvent e) (hfire : a ≠ .onTimer) :
    (t.after now a).Pending e ↔ t.Pending e ∧ ∀ e', a = .delTimerEvent e' → ¬ t.Overshoots e' e := by
  cases a with
  | create e' interval isRepeated => exact ⟨fun hp => ⟨hp, fun _ heq => by cases heq⟩, And.left⟩
  | cancle e' => exact ⟨fun hp => ⟨hp, fun _ heq => by cases heq⟩, And.left⟩
  | addTimerEvent e' =>
    have hne : e ≠ e' := fun heq => hadd (heq ▸ rfl)
    show (t.addTimerEvent e' true now).Pending e ↔ _
    rw [pending_addTimerEvent_iff]
    exact ⟨fun hp => ⟨hp.resolve_left hne, fun _ heq => by cases heq⟩, fun hp => .inr hp.1⟩
  | delTimerEvent e' =>
    have hne : e ≠ e' := fun heq => hdel (heq ▸ rfl)
    show (t.delTimerEvent e').Pending e ↔ _
    rw [hw.pending_delTimerEvent hne]
    refine and_congr_right fun _ => ⟨fun hno e'' heq => ?_, fun hno => hno e' rfl⟩
    cases heq
    exact hno
  | onTimer => exact absurd rfl hfire

/-- `onTimer` leaves an event in the map or runs its task. -/
theorem pending_onTimer {t : Timer ε} {e : ε} (now : Int) (h : t.Pending e) :
    (t.onTimer now).1.Pending e ∨ e ∈ (t.onTimer now).2 := by
  obtain ⟨p, hm, rfl⟩ := h
  rw [← due_append_rest t now] at hm
  rcases List.mem_append.1 hm with hdue | hrest
  · exact .inr (List.mem_map_of_mem hdue)
  · left
    unfold onTimer Pending
    rw [resetArriveTime_pendingEvents]
    exact pending_requeue now (t.due now) ⟨p, hrest, rfl⟩

/-- `onTimer` puts no event into the map that was not there. -/
theorem pending_of_onTimer {t : Timer ε} {e : ε} {now : Int} (h : (t.onTimer now).1.Pending e) : t.Pending e := by
  unfold onTimer Pending at h
  rw [resetArriveTime_pendingEvents] at h
  rcases pending_of_requeue now (t.due now) h with ⟨p, hp, rfl⟩ | ⟨p, hp, rfl⟩
  · exact ⟨p, List.mem_of_mem_drop hp, rfl⟩
  · refine ⟨p, ?_, rfl⟩
    rw [← due_append_rest t now]
    exact List.mem_append_left _ hp

/-- Two events are added, for 100 and 200. -/
def twoEvents : List (Int × Act Nat) :=
  [(0, .create 0 100 false), (0, .addTimerEvent 0), (0, .create 1 200 false), (0, .addTimerEvent 1)]

def idle : Clocked Nat := init (fun _ => ⟨0, 0, false, false⟩) 0

/-- Both events pending, and the timer after the first one has fired. -/
def bothPending : Clocked Nat := (Lts.run callerStep idle twoEvents).getD idle
def firstFired : Clocked Nat := (Lts.run callerStep idle (twoEvents ++ [(100, .onTimer)])).getD idle

theorem removesOnly_bothPending : bothPending.timer.Pending 0 ∧ bothPending.timer.RemovesOnly 0 :=
  ⟨by decide, (removesOnly_iff ⟨idle.timer.events, 0, bothPending, ⟨twoEvents, rfl⟩, rfl⟩ 0).2 (.inl (by decide))⟩

/-- Deleting the event that has fired, as `connect_hook` does after a timeout, takes the other one
out of the map. -/
theorem firstFired_removes_other :
    firstFired.timer.Reachable ∧ ¬ firstFired.timer.Pending 0 ∧ firstFired.timer.Pending 1 ∧
      ¬ (firstFired.timer.delTimerEvent 0).Pending 1 ∧ ¬ firstFired.timer.RemovesOnly 0 :=
  ⟨⟨idle.timer.events, 0, firstFired, ⟨twoEvents ++ [(100, .onTimer)], rfl⟩, rfl⟩, by decide, by decide, by decide,
    by unfold RemovesOnly; decide⟩

/-! ## Arming -/

/-- Every live pending event is covered by the timerfd: it is armed, and for no later than the
event's time or, once that has passed, the present. -/
def ArmedInTime (t : Timer ε) (now : Int) : Prop :=
  ∀ p ∈ t.pendingEvents.entries, (t.events p.2).isCancled = false →
    ∃ a, t.armed = some a ∧ a ≤ max (t.events p.2).arriveTime now

/-- What `resetArriveTime` needs to cover every live pending event: the latest pending time is in
the future and no live event is before it, or every pending time has passed and the timerfd, left
as it is, has expired already. -/
def RearmsInTime (t : Timer ε) (now : Int) : Prop :=
  ∀ p ∈ t.pendingEvents.entries, (t.events p.2).isCancled = false →
    ∀ it, t.pendingEvents.entries.getLast? = some it →
      (now < it.1 ∧ it.1 ≤ (t.events p.2).arriveTime) ∨
      (it.1 < now ∧ ∃ a, t.armed = some a ∧ a ≤ max (t.events p.2).arriveTime now)

omit [DecidableEq ε] in
theorem resetArriveTime_armedInTime (t : Timer ε) (now : Int) :
    (t.resetArriveTime now).ArmedInTime now ↔ t.RearmsInTime now := by
  unfold ArmedInTime RearmsInTime
  simp only [resetArriveTime_pendingEvents, resetArriveTime_events]
  refine forall₂_congr fun p hp => imp_congr_right fun _ => ?_
  obtain ⟨it, hit⟩ : ∃ it, t.pendingEvents.entries.getLast? = some it :=
    Option.isSome_iff_exists.1 (by simpa using List.ne_nil_of_mem hp)
  simp only [hit, Option.some.injEq, forall_eq']
  generalize (t.events p.2).arriveTime = arrive
  unfold resetArriveTime
  rw [hit]
  rcases Int.lt_trichotomy it.1 now with hlt | heq | hgt
  · -- everything has expired: the timerfd is left alone
    simp only [hlt, if_true, true_and]
    exact ⟨.inr, fun h => h.resolve_left fun h => by omega⟩
  · -- a zero interval disarms the timerfd
    simp only [heq, lt_irrefl, if_false, Int.sub_self, if_true]
    constructor
    · rintro ⟨a, ha, _⟩; cases ha
    · rintro (⟨h, _⟩ | ⟨h, _⟩) <;> exact h.elim
  · have hnlt : ¬ it.1 < now := by omega
    have h0 : it.1 - now ≠ 0 := by omega
    simp only [hnlt, if_false, h0]
    constructor
    · rintro ⟨a, ha, hle⟩; cases ha; exact .inl ⟨hgt, by omega⟩
    · rintro (⟨_, h⟩ | ⟨h, _⟩)
      · exact ⟨_, rfl, by omega⟩
      · exact h.elim

omit [DecidableEq ε] in
/-- An operation that takes no live event in and leaves the timerfd alone keeps the cover. -/
theorem ArmedInTime.mono {t t' : Timer ε} {now now' : Int} (h : t.ArmedInTime now) (hn : now ≤ now')
    (ha : t'.armed = t.armed)
    (hp : ∀ p ∈ t'.pendingEvents.entries, (t'.events p.2).isCancled = false →
      p ∈ t.pendingEvents.entries ∧ (t.events p.2).isCancled = false ∧
        (t'.events p.2).arriveTime = (t.events p.2).arriveTime) : t'.ArmedInTime now' := by
  intro p hm hl
  obtain ⟨hm', hl', harr⟩ := hp p hm hl
  obtain ⟨a, h1, h2⟩ := h p hm' hl'
  exact ⟨a, by rw [ha, h1], by rw [harr]; omega⟩

/-- The guard of a call: an event that becomes the head, and every `onTimer`, re-arm in time what
is then pending; an event added behind the head is cancelled or covered by the timerfd as it is. -/
def ArmsInTime (s : Clocked ε) (na : Int × Act ε) : Prop :=
  match na.2 with
  | .addTimerEvent e =>
    if s.timer.isReset e then (s.timer.insert e).RearmsInTime na.1
    else (s.timer.events e).isCancled = false →
      ∃ a, s.timer.armed = some a ∧ a ≤ max (s.timer.events e).arriveTime na.1
  | .onTimer => (s.timer.fire na.1).RearmsInTime na.1
  | _ => True

theorem cancle_live {events : ε → TimerEvent} {e e' : ε}
    (h : (update events e (events e).cancle e').isCancled = false) :
    (events e').isCancled = false ∧ (update events e (events e).cancle e').arriveTime = (events e').arriveTime := by
  by_cases he : e' = e
  · subst he; simp [TimerEvent.cancle] at h
  · simpa [he] using h

theorem step_clock {s s' : Clocked ε} {na : Int × Act ε} (h : step s na = some s') : s.clock ≤ na.1 := by
  simp only [step] at h
  split at h
  · cases h
  · omega

/-- The step lemma: after a call the cover holds exactly when the guard held before it. -/
theorem step_armedInTime (s : Clocked ε) (na : Int × Act ε) (s' : Clocked ε)
    (hp : s.timer.ArmedInTime s.clock) (h : step s na = some s') :
    s'.timer.ArmedInTime s'.clock ↔ ArmsInTime s na := by
  have hle := step_clock h
  obtain ⟨now, a⟩ := na
  simp only at hle
  cases a with
  | create e interval isRepeated =>
    simp only [step, not_lt_of_ge hle, if_false] at h
    split at h
    · cases h
    · rename_i hno
      cases h
      refine iff_of_true (hp.mono hle rfl fun p hm hl => ?_) trivial
      have hne : p.2 ≠ e := fun hpe => hno ⟨p, hm, hpe⟩
      simp only [update_of_ne hne] at hl ⊢
      exact ⟨hm, hl, trivial⟩
  | cancle e =>
    simp only [step, not_lt_of_ge hle, if_false] at h
    cases h
    exact iff_of_true (hp.mono hle rfl fun p hm hl => ⟨hm, cancle_live hl⟩) trivial
  | delTimerEvent e =>
    simp only [step, not_lt_of_ge hle, if_false] at h
    cases h
    refine iff_of_true (hp.mono hle rfl fun p hm hl => ?_) trivial
    exact ⟨(delTimerEvent_sublist s.timer e).subset hm, cancle_live hl⟩
  | onTimer =>
    simp only [step, not_lt_of_ge hle, if_false] at h
    cases h
    exact resetArriveTime_armedInTime _ _
  | addTimerEvent e =>
    simp only [step, not_lt_of_ge hle, if_false] at h
    cases h
    simp only [ArmsInTime, addTimerEvent, Bool.and_true]
    split
    · exact resetArriveTime_armedInTime _ _
    · constructor
      · intro h hl
        exact h _ (Multimap.mem_emplace.2 (.inl rfl)) hl
      · intro h p hm hl
        rcases Multimap.mem_emplace.1 hm with rfl | hm
        · exact h hl
        · obtain ⟨a, h1, h2⟩ := hp p hm hl
          exact ⟨a, h1, by simp only [insert]; omega⟩

/-- The timerfd covers every live pending event in every state of a run exactly when every call of
the run meets the guard. -/
theorem armedInTime_iff (events : ε → TimerEvent) (clock : Int) (as : List (Int × Act ε)) :
    Lts.Always step (fun s => s.timer.ArmedInTime s.clock) (init events clock) as ↔
      Lts.Along step ArmsInTime (init events clock) as :=
  Lts.always_iff_along (I := fun _ => True) (fun _ _ _ _ _ => trivial)
    (fun s na s' _ hp h => step_armedInTime s na s' hp h) trivial fun p hp => by cases hp

/-- An event for 50 is added after one for 100. -/
def earlierLater : List (Int × Act Nat) :=
  [(0, .create 0 100 false), (0, .addTimerEvent 0), (0, .create 1 50 false), (0, .addTimerEvent 1)]

/-- The timerfd stays armed for 100. -/
theorem not_armedInTime_earlierLater :
    ¬ Lts.Always step (fun s => s.timer.ArmedInTime s.clock) idle earlierLater := by
  intro h
  obtain ⟨a, ha, hle⟩ := h.last rfl (50, 1) (by decide) rfl
  cases ha
  exact absurd hle (by decide)

end Timer

end Flconc
