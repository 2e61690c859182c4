/-
`Logger` and the two `AsyncLogger` threads of comm/log.cc: lines go to the buffer of their logger, a
`loopFunc` hands each buffer to its thread as one batch, and `flush` does so a last time and then
stops the threads. The threads' steps come in any order between the statements of these calls; the
log files open.
-/
import Flconc.Lib.Run
import Mathlib.Logic.Function.Basic

namespace Flconc.Log

/-! ## The model -/

inductive LogType
  | rpc
  | app
  deriving DecidableEq

/-- Where `excute` is. -/
inductive Thread
  /-- Before the queue, or waiting at it. -/
  | wait
  /-- With a batch off the queue, and the stop flag as read with it. -/
  | write (tmp : List String) (isStop : Bool)
  | exited
  /-- It took the front of an empty queue. -/
  | faulted
  deriving DecidableEq

/-- A buffer of `Logger`, with the `AsyncLogger` it is handed to. -/
structure Channel where
  /-- `m_buffer` or `m_app_buffer`. -/
  buffer : List String
  /-- The vector in `loopFunc` that the buffer is swapped with. -/
  tmp : List String := []
  tasks : List (List String) := []
  stop : Bool := false
  thread : Thread := .wait
  /-- The lines written to the file. -/
  written : List String := []
  /-- The lines pushed so far. -/
  pushed : List String
  /-- The lines pushed until `flush` took the buffer. -/
  due : Option (List String) := none
  deriving DecidableEq

/-- The lines that reach a file. -/
def lines (tmp : List String) : List String := tmp.filter fun i => ¬ i.isEmpty

namespace Channel

def log (c : Channel) (msg : String) : Channel :=
  { c with buffer := c.buffer ++ [msg], pushed := c.pushed ++ [msg] }

/-- `tmp.swap(m_buffer)`, in the call of `flush` or not. -/
def swap (c : Channel) (final : Bool) : Channel :=
  { c with tmp := c.buffer, buffer := [], due := if final then some c.pushed else c.due }

/-- `AsyncLogger::push(tmp)`, at the end of which nobody uses `tmp` again. -/
def push (c : Channel) : Channel :=
  if ¬ c.tmp.isEmpty then { c with tasks := c.tasks ++ [c.tmp], tmp := [] } else { c with tmp := [] }

def setStop (c : Channel) : Channel := { c with stop := true }

/-- The wait is over: the front of the queue comes off, and the flag is read. -/
def take (c : Channel) : Option Channel :=
  if c.thread = .wait ∧ ¬ (c.tasks.isEmpty ∧ ¬ c.stop) then
    match c.tasks with
    | [] => some { c with thread := .faulted }
    | tmp :: tasks => some { c with tasks := tasks, thread := .write tmp c.stop }
  else none

/-- The batch is written, and the thread ends if the flag was set when it took it. -/
def write (c : Channel) : Option Channel :=
  match c.thread with
  | .write tmp isStop =>
    some { c with written := c.written ++ lines tmp, thread := if isStop then .exited else .wait }
  | _ => none

end Channel

/-- The next statement of the thread that runs `loopFunc` and `flush`. -/
inductive Caller
  | idle
  | swapRpc (final : Bool)
  | pushRpc (final : Bool)
  | pushApp (final : Bool)
  | stopRpc
  | stopApp
  | flushed
  deriving DecidableEq

structure Logger where
  channel : LogType → Channel
  caller : Caller := .idle

namespace Logger

/-- `init`: a million empty lines in each buffer. -/
def init : Logger :=
  { channel := fun _ => { buffer := List.replicate 1000000 "", pushed := List.replicate 1000000 "" } }

def update (s : Logger) (t : LogType) (c : Channel) : Logger :=
  { s with channel := Function.update s.channel t c }

/-- The first statements of `loopFunc`, called by the timer or by `flush`. -/
def loopFunc (s : Logger) (final : Bool) : Logger :=
  { s.update .app ((s.channel .app).swap final) with caller := .swapRpc final }

/-- The next statement of a call that is going on. -/
def next (s : Logger) : Option Logger :=
  match s.caller with
  | .idle | .flushed => none
  | .swapRpc final => some { s.update .rpc ((s.channel .rpc).swap final) with caller := .pushRpc final }
  | .pushRpc final => some { s.update .rpc (s.channel .rpc).push with caller := .pushApp final }
  | .pushApp final =>
    some { s.update .app (s.channel .app).push with caller := if final then .stopRpc else .idle }
  | .stopRpc => some { s.update .rpc (s.channel .rpc).setStop with caller := .stopApp }
  | .stopApp => some { s.update .app (s.channel .app).setStop with caller := .flushed }

end Logger

inductive Act
  /-- `pushRpcLog` or `pushAppLog`. -/
  | log (t : LogType) (msg : String)
  | loopFunc
  | flush
  | next
  | take (t : LogType)
  | write (t : LogType)
  deriving DecidableEq

def step (s : Logger) : Act → Option Logger
  | .log t msg => some (s.update t ((s.channel t).log msg))
  | .loopFunc => if s.caller = .idle then some (s.loopFunc false) else none
  | .flush => if s.caller = .idle then some (s.loopFunc true) else none
  | .next => s.next
  | .take t => (s.channel t).take.map (s.update t)
  | .write t => (s.channel t).write.map (s.update t)

/-! ## Nothing is lost -/

/-- The thread takes no front of an empty queue, and when it has ended each line pushed before the
flush has been written once, in order. -/
def Channel.Complete (c : Channel) : Prop :=
  c.thread ≠ .faulted ∧ (c.thread = .exited → ∃ due, c.due = some due ∧ c.written = lines due)

def Complete (s : Logger) : Prop := ∀ t, (s.channel t).Complete

/-- The lines between the buffer and the file, the oldest first. -/
def Channel.onTheWay (c : Channel) : List String :=
  (match c.thread with
    | .write tmp _ => tmp
    | _ => []) ++ c.tasks.flatten ++ c.tmp

/-- What holds of a channel in every run. -/
structure Channel.Inv (c : Channel) : Prop where
  flow : c.written ++ lines (c.onTheWay ++ c.buffer) = lines c.pushed
  due : ∀ due, c.due = some due → c.written ++ lines c.onTheWay = lines due
  /-- The threads are stopped when the last batch is in the queue. -/
  stop : c.stop = true → c.due ≠ none ∧ c.tmp = []
  last : ∀ tmp, c.thread = .write tmp true → c.stop = true
  exited : c.thread = .exited → c.stop = true
  faulted : c.thread = .faulted → c.stop = true

/-- The call has the channel's buffer in its vector. -/
def Caller.Holds : Caller → LogType → Prop
  | .swapRpc _, .app | .pushRpc _, _ | .pushApp _, .app => True
  | _, _ => False

/-- `flush` has taken the channel's buffer. -/
def Caller.Flushing : Caller → LogType → Prop
  | .swapRpc true, .app | .pushRpc true, _ | .pushApp true, _ | .stopRpc, _ | .stopApp, _ | .flushed, _ => True
  | _, _ => False

/-- `flush` has stopped the channel's thread. -/
def Caller.Stopped : Caller → LogType → Prop
  | .stopApp, .rpc | .flushed, _ => True
  | _, _ => False

/-- What the caller's place says of a channel. -/
structure Caller.At (caller : Caller) (t : LogType) (c : Channel) : Prop where
  tmp : ¬ caller.Holds t → c.tmp = []
  due : caller.Flushing t ↔ c.due ≠ none
  running : ¬ caller.Stopped t → c.stop = false

structure Inv (s : Logger) : Prop where
  channel : ∀ t, (s.channel t).Inv
  caller : ∀ t, s.caller.At t (s.channel t)

@[simp] theorem lines_append (a b : List String) : lines (a ++ b) = lines a ++ lines b :=
  List.filter_append ..

namespace Channel

theorem Inv.new (buffer : List String) : Inv { buffer := buffer, pushed := buffer } :=
  ⟨rfl, nofun, nofun, nofun, nofun, nofun⟩

theorem Inv.log {c : Channel} (hi : c.Inv) (msg : String) : (c.log msg).Inv := by
  refine ⟨?_, hi.due, hi.stop, hi.last, hi.exited, hi.faulted⟩
  show c.written ++ lines (c.onTheWay ++ (c.buffer ++ [msg])) = lines (c.pushed ++ [msg])
  rw [lines_append c.pushed, ← hi.flow]
  simp

/-- The buffer is taken when the vector is empty and no flush has taken it before. -/
theorem Inv.swap {c : Channel} (hi : c.Inv) (htmp : c.tmp = []) (hdue : c.due = none) (final : Bool) :
    (c.swap final).Inv := by
  have hway : (c.swap final).onTheWay = c.onTheWay ++ c.buffer := by
    show _ ++ c.tasks.flatten ++ c.buffer = _ ++ c.tasks.flatten ++ c.tmp ++ c.buffer
    rw [htmp, List.append_nil]
    rfl
  have hstop : c.stop ≠ true := fun h => (hi.stop h).1 hdue
  refine ⟨?_, fun due h => ?_, fun h => absurd h hstop, hi.last, hi.exited, hi.faulted⟩
  · show c.written ++ lines ((c.swap final).onTheWay ++ []) = lines c.pushed
    rw [hway, List.append_nil, hi.flow]
  · show c.written ++ lines (c.swap final).onTheWay = lines due
    rw [hway, hi.flow]
    cases final with
    | false =>
      have h : c.due = some due := h
      rw [hdue] at h
      cases h
    | true =>
      cases h
      rfl

theorem push_onTheWay (c : Channel) : c.push.onTheWay = c.onTheWay := by
  unfold push
  split
  · show _ ++ (c.tasks ++ [c.tmp]).flatten ++ [] = _ ++ c.tasks.flatten ++ c.tmp
    simp [List.append_assoc]
  · rename_i h
    have h : c.tmp = [] := List.isEmpty_iff.1 (not_not.1 h)
    show _ ++ c.tasks.flatten ++ [] = _ ++ c.tasks.flatten ++ c.tmp
    rw [h]

theorem push_rest (c : Channel) : c.push.buffer = c.buffer ∧ c.push.tmp = [] ∧ c.push.stop = c.stop ∧
    c.push.thread = c.thread ∧ c.push.written = c.written ∧ c.push.pushed = c.pushed ∧ c.push.due = c.due := by
  unfold push
  split <;> exact ⟨rfl, rfl, rfl, rfl, rfl, rfl, rfl⟩

theorem Inv.push {c : Channel} (hi : c.Inv) : c.push.Inv := by
  obtain ⟨hb, ht, hs, hth, hw, hp, hd⟩ := push_rest c
  refine ⟨?_, ?_, ?_, ?_, ?_, ?_⟩
  · rw [hw, push_onTheWay, hb, hp]
    exact hi.flow
  · rw [hd, hw, push_onTheWay]
    exact hi.due
  · rw [hs, hd, ht]
    exact fun h => ⟨(hi.stop h).1, rfl⟩
  · rw [hth, hs]
    exact hi.last
  · rw [hth, hs]
    exact hi.exited
  · rw [hth, hs]
    exact hi.faulted

theorem Inv.setStop {c : Channel} (hi : c.Inv) (htmp : c.tmp = []) (hdue : c.due ≠ none) : c.setStop.Inv :=
  ⟨hi.flow, hi.due, fun _ => ⟨hdue, htmp⟩, fun _ _ => rfl, fun _ => rfl, fun _ => rfl⟩

/-- What a `take` does: it faults on an empty queue, or the front of the queue is in hand. -/
theorem take_cases {c c' : Channel} (h : c.take = some c') :
    c.thread = .wait ∧ ((c.tasks = [] ∧ c.stop = true ∧ c' = { c with thread := .faulted }) ∨
      ∃ tmp tasks, c.tasks = tmp :: tasks ∧ c' = { c with tasks := tasks, thread := .write tmp c.stop }) := by
  unfold take at h
  split at h
  · rename_i hc
    refine ⟨hc.1, ?_⟩
    cases htasks : c.tasks with
    | nil =>
      have hstop : c.stop = true := by simpa [htasks] using hc.2
      rw [htasks] at h
      exact .inl ⟨rfl, hstop, (Option.some.inj h).symm⟩
    | cons tmp tasks =>
      rw [htasks] at h
      exact .inr ⟨tmp, tasks, rfl, (Option.some.inj h).symm⟩
  · cases h

theorem take_empty {c : Channel} (hwait : c.thread = .wait) (htasks : c.tasks = []) (hstop : c.stop = true) :
    c.take = some { c with thread := .faulted } := by
  unfold take
  rw [if_pos ⟨hwait, fun hn => hn.2 hstop⟩]
  split
  · rfl
  · rename_i htasks'
    rw [htasks] at htasks'
    cases htasks'

theorem take_front {c : Channel} {tmp : List String} {tasks : List (List String)} (hwait : c.thread = .wait)
    (htasks : c.tasks = tmp :: tasks) : c.take = some { c with tasks := tasks, thread := .write tmp c.stop } := by
  unfold take
  rw [if_pos ⟨hwait, fun hn => by rw [htasks] at hn; cases hn.1⟩]
  split <;> rename_i htasks' <;> rw [htasks] at htasks' <;> cases htasks'
  rfl

theorem Inv.take {c c' : Channel} (hi : c.Inv) (h : c.take = some c') : c'.Inv := by
  obtain ⟨hwait, ⟨htasks, hstop, rfl⟩ | ⟨tmp, tasks, htasks, rfl⟩⟩ := take_cases h
  · have hway : ({ c with thread := .faulted } : Channel).onTheWay = c.onTheWay := by
      unfold onTheWay
      rw [hwait]
    refine ⟨?_, fun due hd => ?_, hi.stop, nofun, nofun, fun _ => hstop⟩
    · rw [hway]
      exact hi.flow
    · rw [hway]
      exact hi.due due hd
  · have hway : ({ c with tasks := tasks, thread := .write tmp c.stop } : Channel).onTheWay = c.onTheWay := by
      unfold onTheWay
      rw [hwait, htasks]
      simp
    refine ⟨?_, fun due hd => ?_, hi.stop, fun tmp' h' => ?_, nofun, nofun⟩
    · rw [hway]
      exact hi.flow
    · rw [hway]
      exact hi.due due hd
    · injection h' with _ hstop

theorem write_cases {c c' : Channel} (h : c.write = some c') :
    ∃ tmp isStop, c.thread = .write tmp isStop ∧
      c' = { c with written := c.written ++ lines tmp, thread := if isStop then .exited else .wait } := by
  unfold write at h
  split at h
  · rename_i tmp isStop hthread
    exact ⟨tmp, isStop, hthread, (Option.some.inj h).symm⟩
  · cases h

/-- The lines of the batch go from the way to the file. -/
theorem write_onTheWay {c c' : Channel} {tmp : List String} {isStop : Bool}
    (hthread : c.thread = .write tmp isStop) (hc' : c'.thread = if isStop then .exited else .wait)
    (htasks : c'.tasks = c.tasks) (htmp : c'.tmp = c.tmp) : c.onTheWay = tmp ++ c'.onTheWay := by
  unfold onTheWay
  rw [hthread, hc', htasks, htmp]
  cases isStop <;> simp

theorem Inv.write {c c' : Channel} (hi : c.Inv) (h : c.write = some c') : c'.Inv := by
  obtain ⟨tmp, isStop, hthread, rfl⟩ := write_cases h
  have hway : c.onTheWay = tmp ++ ({ c with
      written := c.written ++ lines tmp, thread := if isStop then .exited else .wait } : Channel).onTheWay :=
    write_onTheWay hthread rfl rfl rfl
  refine ⟨?_, fun due hd => ?_, hi.stop, fun tmp' h' => ?_, fun h' => ?_, fun h' => ?_⟩
  · rw [← hi.flow, hway]
    simp
  · rw [← hi.due due hd, hway]
    simp
  · cases isStop <;> cases h'
  · cases isStop with
    | false => cases h'
    | true => exact hi.last tmp hthread
  · cases isStop <;> cases h'

end Channel

/-! ## A stopped thread -/

namespace Channel

/-- The queue has a batch, and no line behind it. -/
def OneBatch (c : Channel) : Prop := ∃ tmp rest, c.tasks = tmp :: rest ∧ lines rest.flatten = []

/-- What a stopped thread still does leaves no line: it takes one more batch. -/
def Settled (c : Channel) : Prop :=
  c.stop = true →
    match c.thread with
    | .wait | .write _ false => c.OneBatch
    | .write _ true => lines c.tasks.flatten = []
    | .exited => ∃ due, c.due = some due ∧ c.written = lines due
    | .faulted => False

theorem Settled.complete {c : Channel} (h : c.Settled) (hi : c.Inv) : c.Complete := by
  refine ⟨fun hth => ?_, fun hth => ?_⟩
  · have h := h (hi.faulted hth)
    rw [hth] at h
    exact h
  · have h := h (hi.exited hth)
    rw [hth] at h
    exact h

theorem settled_log (c : Channel) (msg : String) : (c.log msg).Settled ↔ c.Settled := .rfl

theorem settled_of_running {c : Channel} (h : c.stop = false) : c.Settled := by
  intro hstop
  rw [h] at hstop
  cases hstop

/-- Before it is stopped a thread has not seen the flag. -/
theorem settled_setStop {c : Channel} (hi : c.Inv) (h : c.stop = false) : c.setStop.Settled ↔ c.OneBatch := by
  have hnot : c.stop ≠ true := by simp [h]
  unfold Settled
  rw [forall_prop_of_true (show c.setStop.stop = true from rfl), show c.setStop.thread = c.thread from rfl]
  cases hth : c.thread with
  | wait => exact .rfl
  | write tmp isStop =>
    cases isStop with
    | false => exact .rfl
    | true => exact absurd (hi.last tmp hth) hnot
  | exited => exact absurd (hi.exited hth) hnot
  | faulted => exact absurd (hi.faulted hth) hnot

theorem settled_take {c c' : Channel} (h : c.take = some c') : c'.Settled ↔ c.Settled := by
  obtain ⟨hwait, ⟨htasks, hstop, rfl⟩ | ⟨tmp, tasks, htasks, rfl⟩⟩ := take_cases h
  · refine iff_of_false (fun hc => hc hstop) fun hc => ?_
    have hc := hc hstop
    rw [hwait] at hc
    obtain ⟨tmp, rest, hrest, -⟩ := hc
    rw [htasks] at hrest
    cases hrest
  · cases hstop : c.stop with
    | false => exact iff_of_true (settled_of_running rfl) (settled_of_running hstop)
    | true =>
      have hone : c.OneBatch ↔ lines tasks.flatten = [] := by
        unfold OneBatch
        rw [htasks]
        constructor
        · rintro ⟨_, _, ⟨⟩, hlines⟩
          exact hlines
        · exact fun hlines => ⟨tmp, tasks, rfl, hlines⟩
      unfold Settled
      rw [hwait, hstop]
      exact imp_congr_right fun _ => hone.symm

/-- The last batch is written: the file is complete when no line is left in the queue. -/
theorem settled_write {c c' : Channel} (hi : c.Inv) (h : c.write = some c') : c'.Settled ↔ c.Settled := by
  obtain ⟨tmp, isStop, hthread, rfl⟩ := write_cases h
  unfold Settled
  rw [hthread]
  refine imp_congr_right fun _ => ?_
  cases isStop with
  | false => exact .rfl
  | true =>
    -- stopped, the channel gets nothing more: what is due is written, in hand or in the queue
    obtain ⟨hdue, htmp⟩ := hi.stop (hi.last tmp hthread)
    obtain ⟨due, hdue⟩ := Option.ne_none_iff_exists'.1 hdue
    have hflow : (c.written ++ lines tmp) ++ lines c.tasks.flatten = lines due := by
      rw [← hi.due due hdue]
      unfold onTheWay
      rw [hthread, htmp]
      simp
    show (∃ due, c.due = some due ∧ c.written ++ lines tmp = lines due) ↔ lines c.tasks.flatten = []
    constructor
    · rintro ⟨due', hdue', hw⟩
      rw [hdue] at hdue'
      cases hdue'
      rw [hw] at hflow
      exact List.append_right_eq_self.1 hflow
    · intro hleft
      rw [hleft, List.append_nil] at hflow
      exact ⟨due, hdue, hflow⟩

end Channel

/-! ## Steps -/

theorem Caller.At.congr {caller : Caller} {t : LogType} {c c' : Channel} (h : caller.At t c)
    (htmp : c'.tmp = c.tmp) (hdue : c'.due = c.due) (hstop : c'.stop = c.stop) : caller.At t c' :=
  ⟨by rw [htmp]; exact h.tmp, by rw [hdue]; exact h.due, by rw [hstop]; exact h.running⟩

/-- The caller's place says the same of a channel at another place with the same answers. -/
theorem Caller.At.move {caller caller' : Caller} {t : LogType} {c : Channel} (h : caller.At t c)
    (hholds : caller'.Holds t ↔ caller.Holds t) (hflushing : caller'.Flushing t ↔ caller.Flushing t)
    (hstopped : caller'.Stopped t ↔ caller.Stopped t) : caller'.At t c :=
  ⟨by rw [hholds]; exact h.tmp, by rw [hflushing]; exact h.due, by rw [hstopped]; exact h.running⟩

namespace Logger

@[simp] theorem update_self (s : Logger) (t : LogType) (c : Channel) : (s.update t c).channel t = c :=
  Function.update_self ..

@[simp] theorem update_of_ne (s : Logger) {t u : LogType} (h : u ≠ t) (c : Channel) :
    (s.update t c).channel u = s.channel u :=
  Function.update_of_ne h ..

end Logger

/-- One channel changes, and the caller's place. -/
theorem Inv.update {s : Logger} (hi : Inv s) {t : LogType} {c : Channel} {caller : Caller} (hc : c.Inv)
    (hat : caller.At t c) (hother : ∀ u, u ≠ t → caller.At u (s.channel u)) :
    Inv { s.update t c with caller := caller } := by
  refine ⟨fun u => ?_, fun u => ?_⟩
  · show ((s.update t c).channel u).Inv
    by_cases hu : u = t
    · rw [hu, s.update_self]
      exact hc
    · rw [s.update_of_ne hu]
      exact hi.channel u
  · show caller.At u ((s.update t c).channel u)
    by_cases hu : u = t
    · rw [hu, s.update_self]
      exact hat
    · rw [s.update_of_ne hu]
      exact hother u hu

/-- What a step of a thread, or a push, does to a channel; the caller is where it was. -/
theorem Inv.update_thread {s : Logger} (hi : Inv s) {t : LogType} {c : Channel} (hc : c.Inv)
    (htmp : c.tmp = (s.channel t).tmp) (hdue : c.due = (s.channel t).due) (hstop : c.stop = (s.channel t).stop) :
    Inv (s.update t c) :=
  hi.update hc ((hi.caller t).congr htmp hdue hstop) fun u _ => hi.caller u

theorem Caller.At.due_eq_none {caller : Caller} {t : LogType} {c : Channel} (h : caller.At t c)
    (hflushing : ¬ caller.Flushing t) : c.due = none :=
  not_not.1 fun hd => hflushing (h.due.2 hd)

theorem Caller.At.stop_eq_false {caller : Caller} {t : LogType} {c : Channel} (h : caller.At t c) (hc : c.Inv)
    (hflushing : ¬ caller.Flushing t) : c.stop = false :=
  Bool.eq_false_iff.2 fun hstop => (hc.stop hstop).1 (h.due_eq_none hflushing)

/-- A channel whose buffer is taken, at the places where no flush has taken it before. -/
theorem Caller.At.swap {caller : Caller} {t : LogType} {c : Channel} (h : caller.At t c) (hc : c.Inv)
    (hholds : ¬ caller.Holds t) (hflushing : ¬ caller.Flushing t) {caller' : Caller} {final : Bool}
    (hflushing' : caller'.Flushing t ↔ final) (hholds' : caller'.Holds t) :
    (c.swap final).Inv ∧ caller'.At t (c.swap final) := by
  have hdue := h.due_eq_none hflushing
  refine ⟨hc.swap (h.tmp hholds) hdue final, fun h => absurd hholds' h, ?_, fun _ => h.stop_eq_false hc hflushing⟩
  rw [hflushing']
  cases final with
  | false => exact iff_of_false nofun (not_not.2 hdue)
  | true => exact iff_of_true rfl nofun

/-- A channel whose vector goes into the queue. -/
theorem Caller.At.push {caller caller' : Caller} {t : LogType} {c : Channel} (h : caller.At t c)
    (hflushing : caller'.Flushing t ↔ caller.Flushing t) (hstopped : caller'.Stopped t ↔ caller.Stopped t) :
    caller'.At t c.push := by
  obtain ⟨-, ht, hs, -, -, -, hd⟩ := c.push_rest
  refine ⟨fun _ => ht, ?_, ?_⟩
  · rw [hd, hflushing]
    exact h.due
  · rw [hs, hstopped]
    exact h.running

theorem Caller.At.setStop {caller caller' : Caller} {t : LogType} {c : Channel} (h : caller.At t c) (hc : c.Inv)
    (hholds : ¬ caller.Holds t) (hflushing : caller.Flushing t) (hstopped : caller'.Stopped t)
    (hflushing' : caller'.Flushing t) : c.setStop.Inv ∧ caller'.At t c.setStop :=
  ⟨hc.setStop (h.tmp hholds) (h.due.1 hflushing), fun _ => h.tmp hholds,
    iff_of_true hflushing' (h.due.1 hflushing), fun h => absurd hstopped h⟩

theorem Inv.loopFunc {s : Logger} (hi : Inv s) (hidle : s.caller = .idle) (final : Bool) : Inv (s.loopFunc final) := by
  have happ := hi.caller .app
  have hrpc := hi.caller .rpc
  rw [hidle] at happ hrpc
  have hflushing : (Caller.swapRpc final).Flushing .app ↔ final := by cases final <;> simp [Caller.Flushing]
  obtain ⟨hc, hat⟩ := happ.swap (hi.channel .app) id id hflushing trivial
  refine hi.update hc hat fun u hu => ?_
  cases u with
  | app => exact absurd rfl hu
  | rpc => exact hrpc.move .rfl (by cases final <;> exact .rfl) .rfl

theorem Inv.next {s s' : Logger} (hi : Inv s) (h : s.next = some s') : Inv s' := by
  have happ := hi.caller .app
  have hrpc := hi.caller .rpc
  unfold Logger.next at h
  split at h <;> rename_i hcaller <;> try cases h
  all_goals rw [hcaller] at happ hrpc
  case h_3 final =>
    have hflushing : (Caller.pushRpc final).Flushing .rpc ↔ final := by cases final <;> simp [Caller.Flushing]
    obtain ⟨hc, hat⟩ := hrpc.swap (hi.channel .rpc) id (by cases final <;> exact id) hflushing trivial
    refine hi.update hc hat fun u hu => ?_
    cases u with
    | rpc => exact absurd rfl hu
    | app => exact happ.move .rfl (by cases final <;> exact .rfl) .rfl
  case h_4 final =>
    refine hi.update (hi.channel .rpc).push (hrpc.push (by cases final <;> exact .rfl) .rfl) fun u hu => ?_
    cases u with
    | rpc => exact absurd rfl hu
    | app => exact happ.move .rfl (by cases final <;> exact .rfl) .rfl
  case h_5 final =>
    refine hi.update (hi.channel .app).push
      (happ.push (by cases final <;> exact .rfl) (by cases final <;> exact .rfl)) fun u hu => ?_
    cases u with
    | app => exact absurd rfl hu
    | rpc => cases final <;> exact hrpc.move .rfl .rfl .rfl
  case h_6 =>
    have hstopped : Caller.stopApp.Stopped .rpc := trivial
    obtain ⟨hc, hat⟩ := hrpc.setStop (hi.channel .rpc) id trivial hstopped trivial
    refine hi.update hc hat fun u hu => ?_
    cases u with
    | rpc => exact absurd rfl hu
    | app => exact happ.move .rfl .rfl .rfl
  case h_7 =>
    have hstopped : Caller.flushed.Stopped .app := trivial
    obtain ⟨hc, hat⟩ := happ.setStop (hi.channel .app) id trivial hstopped trivial
    refine hi.update hc hat fun u hu => ?_
    cases u with
    | app => exact absurd rfl hu
    | rpc => exact hrpc.move .rfl .rfl .rfl

theorem step_inv {s s' : Logger} {a : Act} (hi : Inv s) (h : step s a = some s') : Inv s' := by
  cases a with
  | log t msg =>
    cases h
    exact hi.update_thread ((hi.channel t).log msg) rfl rfl rfl
  | loopFunc | flush =>
    obtain ⟨hidle, h⟩ := Option.ite_none_right_eq_some.1 h
    cases h
    exact hi.loopFunc hidle _
  | next => exact hi.next h
  | take t =>
    obtain ⟨c, hc, rfl⟩ := Option.map_eq_some_iff.1 h
    have hci := (hi.channel t).take hc
    obtain ⟨-, ⟨-, -, rfl⟩ | ⟨_, _, -, rfl⟩⟩ := Channel.take_cases hc
    · exact hi.update_thread hci rfl rfl rfl
    · exact hi.update_thread hci rfl rfl rfl
  | write t =>
    obtain ⟨c, hc, rfl⟩ := Option.map_eq_some_iff.1 h
    have hci := (hi.channel t).write hc
    obtain ⟨_, _, -, rfl⟩ := Channel.write_cases hc
    exact hi.update_thread hci rfl rfl rfl

/-! ## Every run -/

def Settled (s : Logger) : Prop := ∀ t, (s.channel t).Settled

/-- A step of one channel keeps the rest, so that this channel decides. -/
theorem Settled.update_iff {s : Logger} (hp : Settled s) {t : LogType} {c : Channel} (caller : Caller) :
    Settled { s.update t c with caller := caller } ↔ c.Settled := by
  constructor
  · intro h
    simpa using h t
  · intro hc u
    show ((s.update t c).channel u).Settled
    by_cases hu : u = t
    · rw [hu, s.update_self]
      exact hc
    · rw [s.update_of_ne hu]
      exact hp u

/-- When the flag of a thread is set its queue has a batch, and no line behind it. -/
def BatchAtStop (s : Logger) : Act → Prop
  | .next =>
    match s.caller with
    | .stopRpc => (s.channel .rpc).OneBatch
    | .stopApp => (s.channel .app).OneBatch
    | _ => True
  | _ => True

theorem Inv.next_settled {s s' : Logger} (hi : Inv s) (hp : Settled s) (h : s.next = some s') :
    Settled s' ↔ BatchAtStop s .next := by
  have happ := hi.caller .app
  have hrpc := hi.caller .rpc
  unfold BatchAtStop
  unfold Logger.next at h
  split at h <;> rename_i hcaller <;> try cases h
  all_goals
    rw [hcaller] at happ hrpc ⊢
    refine (hp.update_iff _).trans ?_
  case h_3 final =>
    have hstop := hrpc.stop_eq_false (hi.channel .rpc) (by cases final <;> exact id)
    exact iff_of_true (Channel.settled_of_running hstop) trivial
  case h_4 final =>
    exact iff_of_true (Channel.settled_of_running ((Channel.push_rest _).2.2.1.trans (hrpc.running id))) trivial
  case h_5 final =>
    exact iff_of_true (Channel.settled_of_running ((Channel.push_rest _).2.2.1.trans (happ.running id))) trivial
  case h_6 => exact Channel.settled_setStop (hi.channel .rpc) (hrpc.running id)
  case h_7 => exact Channel.settled_setStop (hi.channel .app) (happ.running id)

theorem step_settled {s s' : Logger} {a : Act} (hi : Inv s) (hp : Settled s) (h : step s a = some s') :
    Settled s' ↔ BatchAtStop s a := by
  cases a with
  | log t msg =>
    cases h
    exact iff_of_true ((hp.update_iff s.caller).2 ((Channel.settled_log _ msg).2 (hp t))) trivial
  | loopFunc | flush =>
    obtain ⟨hidle, h⟩ := Option.ite_none_right_eq_some.1 h
    cases h
    have hat := hi.caller .app
    rw [hidle] at hat
    exact iff_of_true
      ((hp.update_iff _).2 (Channel.settled_of_running (hat.stop_eq_false (hi.channel .app) id))) trivial
  | next => exact hi.next_settled hp h
  | take t =>
    obtain ⟨c, hc, rfl⟩ := Option.map_eq_some_iff.1 h
    exact iff_of_true ((hp.update_iff s.caller).2 ((Channel.settled_take hc).2 (hp t))) trivial
  | write t =>
    obtain ⟨c, hc, rfl⟩ := Option.map_eq_some_iff.1 h
    exact iff_of_true ((hp.update_iff s.caller).2 ((Channel.settled_write (hi.channel t) hc).2 (hp t))) trivial

theorem init_inv : Inv .init :=
  ⟨fun _ => .new _, fun _ => ⟨fun _ => rfl, iff_of_false id fun h => h rfl, fun _ => rfl⟩⟩

/-! ## Until the threads have ended -/

def Act.OfThread : Act → Prop
  | .take _ | .write _ => True
  | _ => False

/-- Nothing is lost here, or when the threads go on. -/
def StaysComplete (s : Logger) : Prop := ∀ bs, (∀ b ∈ bs, b.OfThread) → Lts.Always step Complete s bs

theorem Settled.staysComplete {s : Logger} (hi : Inv s) (hp : Settled s) : StaysComplete s := by
  intro bs
  induction bs generalizing s with
  | nil => exact fun _ t => (hp t).complete (hi.channel t)
  | cons b bs ih =>
    intro hbs
    obtain ⟨hb, hbs⟩ := List.forall_mem_cons.1 hbs
    refine ⟨fun t => (hp t).complete (hi.channel t), fun s' hs => ih (step_inv hi hs) ?_ hbs⟩
    have hguard : BatchAtStop s b := by cases b <;> trivial
    exact (step_settled hi hp hs).2 hguard

theorem StaysComplete.step {s s' : Logger} (h : StaysComplete s) {a : Act} (ha : a.OfThread)
    (hs : step s a = some s') : StaysComplete s' :=
  fun bs hbs => (h (a :: bs) (List.forall_mem_cons.2 ⟨ha, hbs⟩)).2 s' hs

theorem StaysComplete.take {s : Logger} (h : StaysComplete s) {t : LogType} {c : Channel}
    (hc : (s.channel t).take = some c) : StaysComplete (s.update t c) :=
  h.step (a := .take t) trivial (congrArg (Option.map _) hc)

theorem StaysComplete.write {s : Logger} (h : StaysComplete s) {t : LogType} {c : Channel}
    (hc : (s.channel t).write = some c) : StaysComplete (s.update t c) :=
  h.step (a := .write t) trivial (congrArg (Option.map _) hc)

/-- What is complete now, of one thread. -/
theorem StaysComplete.complete {s : Logger} {t : LogType} {c : Channel} (h : StaysComplete (s.update t c)) :
    c.Complete := by
  simpa using (h [] nofun).head t

/-- A thread that has taken its last batch writes it. -/
theorem StaysComplete.settled_last {s : Logger} (hi : Inv s) (h : StaysComplete s) {t : LogType} {tmp : List String}
    (hthread : (s.channel t).thread = .write tmp true) : (s.channel t).Settled := by
  have hc : (s.channel t).write =
      some { s.channel t with written := (s.channel t).written ++ lines tmp, thread := .exited } := by
    unfold Channel.write
    rw [hthread]
    rfl
  exact (Channel.settled_write (hi.channel t) hc).1 fun _ => (h.write hc).complete.2 rfl

/-- A thread at its queue takes its last batch. -/
theorem StaysComplete.settled_wait {s : Logger} (hi : Inv s) (h : StaysComplete s) {t : LogType}
    (hthread : (s.channel t).thread = .wait) : (s.channel t).Settled := by
  cases hstop : (s.channel t).stop with
  | false => exact Channel.settled_of_running hstop
  | true =>
    cases htasks : (s.channel t).tasks with
    | nil => exact absurd rfl (h.take (Channel.take_empty hthread htasks hstop)).complete.1
    | cons tmp tasks =>
      have hc := Channel.take_front hthread htasks
      have hi' : Inv (s.update t _) := step_inv (a := .take t) hi (congrArg (Option.map _) hc)
      have hthread' : ((s.update t { s.channel t with
          tasks := tasks, thread := .write tmp (s.channel t).stop }).channel t).thread = .write tmp true := by
        rw [s.update_self, hstop]
      have hlast := (h.take hc).settled_last hi' hthread'
      rw [s.update_self] at hlast
      exact (Channel.settled_take hc).1 hlast

theorem StaysComplete.settled {s : Logger} (hi : Inv s) (h : StaysComplete s) : Settled s := by
  intro t
  cases hthread : (s.channel t).thread with
  | wait => exact h.settled_wait hi hthread
  | write tmp isStop =>
    cases isStop with
    | true => exact h.settled_last hi hthread
    | false =>
      have hc : (s.channel t).write =
          some { s.channel t with written := (s.channel t).written ++ lines tmp, thread := .wait } := by
        unfold Channel.write
        rw [hthread]
        rfl
      have hi' : Inv (s.update t _) := step_inv (a := .write t) hi (congrArg (Option.map _) hc)
      have hwait := (h.write hc).settled_wait hi' (t := t) (by rw [s.update_self])
      rw [s.update_self] at hwait
      exact (Channel.settled_write (hi.channel t) hc).1 hwait
  | exited =>
    intro _
    rw [hthread]
    exact ((h [] nofun).head t).2 hthread
  | faulted => exact absurd hthread ((h [] nofun).head t).1

/-- No line is lost in a run, however its threads end, and no thread takes the front of an empty queue, exactly
when each thread has just its last batch in the queue when it is stopped. -/
theorem complete_iff (as : List Act) :
    Lts.Always step StaysComplete .init as ↔ Lts.Along step BatchAtStop .init as := by
  refine Lts.always_iff_along (fun _ _ _ hi h => step_inv hi h) (fun s a s' hi hp h => ?_) init_inv ?_
  · have hsettled := step_settled hi (hp.settled hi) h
    have hi' := step_inv hi h
    exact ⟨fun hp' => hsettled.1 (hp'.settled hi'), fun hg => (hsettled.2 hg).staysComplete hi'⟩
  · exact Settled.staysComplete init_inv fun _ => Channel.settled_of_running rfl

/-- The thread has written the lines of the flush before the flag is set: it wakes to an empty queue. -/
theorem not_complete_stopped : ¬ Lts.Always step Complete .init
    [.flush, .next, .next, .take .rpc, .write .rpc, .next, .next, .take .rpc] := by
  intro h
  obtain ⟨s, hs⟩ : ∃ s, Lts.run step .init
      [.flush, .next, .next, .take .rpc, .write .rpc, .next, .next, .take .rpc] = some s := ⟨_, rfl⟩
  have hp := (h.last hs) .rpc
  cases hs
  exact hp.1 rfl

end Flconc.Log
